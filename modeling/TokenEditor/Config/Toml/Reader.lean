import TokenEditor.Config.Toml.Scalar

/-! # Reading TOML

Each reader takes a text from its front and gives what it read with the rest, or nothing if the
text is not well formed. -/

namespace TokenEditor.Toml

def quote : Char := '\x22'
def apostrophe : Char := '\x27'

/-- Control characters other than the tab. -/
def isControl (c : Char) : Bool :=
  (c.toNat < 0x20 && c != '\t') || c.toNat == 0x7F

def isInlineSpace (c : Char) : Bool :=
  c == ' ' || c == '\t'

def skipSpace (t : Text) : Text :=
  t.dropWhile isInlineSpace

/-- What follows a line end. -/
def afterNewline? : Text → Option Text
  | '\n' :: rest => some rest
  | '\r' :: '\n' :: rest => some rest
  | _ => none

/-- Skip a comment, if one begins here, up to the end of the line. -/
def skipComment? (t : Text) : Option Text :=
  match t with
  | '#' :: rest =>
    let after := rest.dropWhile fun c => !isControl c
    if after.isEmpty || (afterNewline? after).isSome then some after else none
  | _ => some t

/-- Skip spaces, line ends and comments. -/
def skipFill? : Nat → Text → Option Text
  | 0, t => some t
  | fuel + 1, t => do
    let t ← skipComment? (skipSpace t)
    match afterNewline? t with
    | some rest => skipFill? fuel rest
    | none => some t

/-! ### Strings -/

/-- The character with a code written in hexadecimal digits. -/
def scalarValue? (digits : Text) : Option Char :=
  if digits.all isHexDigit then
    let n := valueIn 16 digits
    if n < 0xD800 ∨ (0xDFFF < n ∧ n < 0x110000) then some (Char.ofNat n) else none
  else none

/-- The character that a letter stands for after a backslash. -/
def escape? (c : Char) : Option Char :=
  if c == 'b' then some '\x08'
  else if c == 't' then some '\t'
  else if c == 'n' then some '\n'
  else if c == 'f' then some '\x0c'
  else if c == 'r' then some '\r'
  else if c == 'e' then some '\x1b'
  else if c == quote then some quote
  else if c == '\x5c' then some '\x5c'
  else none

/-- An escape after its backslash. -/
def readEscape? (t : Text) : Option (Char × Text) :=
  let coded (n : Nat) (t : Text) : Option (Char × Text) :=
    if (t.take n).length = n then (scalarValue? (t.take n)).map fun c => (c, t.drop n) else none
  match t with
  | 'x' :: t => coded 2 t
  | 'u' :: t => coded 4 t
  | 'U' :: t => coded 8 t
  | c :: t => (escape? c).map fun c => (c, t)
  | [] => none

/-- The rest of a string on one line, after its opening quote. -/
def readBasic? : Nat → Text → Option (Text × Text)
  | 0, _ => none
  | _ + 1, [] => none
  | fuel + 1, c :: t =>
    if c == quote then some ([], t)
    else if c == '\x5c' then do
      let (d, t) ← readEscape? t
      let (s, t) ← readBasic? fuel t
      some (d :: s, t)
    else if isControl c then none
    else do
      let (s, t) ← readBasic? fuel t
      some (c :: s, t)

/-- The rest of a literal string on one line. -/
def readLiteral? (t : Text) : Option (Text × Text) :=
  let body := t.takeWhile fun c => c != apostrophe && !isControl c
  match t.drop body.length with
  | c :: rest => if c == apostrophe then some (body, rest) else none
  | [] => none

/-- A run of quotes in a string of several lines: three end it, and up to two before them belong
to it. The length of the run that belongs to the string, and whether the string ends. -/
def closingRun (mark : Char) (t : Text) : Nat × Bool :=
  let run := min 5 (t.takeWhile (· == mark)).length
  if 3 ≤ run then (run - 3, true) else (run, false)

/-- Skip spaces and line ends. -/
def skipLines : Text → Text
  | ' ' :: t => skipLines t
  | '\t' :: t => skipLines t
  | '\n' :: t => skipLines t
  | '\r' :: '\n' :: t => skipLines t
  | t => t

/-- A backslash at the end of a line removes the line end and the spaces and line ends after it. -/
def afterContinuation? (t : Text) : Option Text :=
  (afterNewline? (skipSpace t)).map skipLines

/-- The rest of a string of several lines. -/
def readLines? (mark : Char) (escapes : Bool) : Nat → Text → Option (Text × Text)
  | 0, _ => none
  | _ + 1, [] => none
  | fuel + 1, c :: t =>
    if c == mark then
      let (own, ends) := closingRun mark (c :: t)
      if ends then some (List.replicate own mark, (c :: t).drop (own + 3))
      else do
        let (s, t) ← readLines? mark escapes fuel ((c :: t).drop own)
        some (List.replicate own mark ++ s, t)
    else if escapes && c == '\x5c' then
      match afterContinuation? t with
      | some t => readLines? mark escapes fuel t
      | none => do
        let (d, t) ← readEscape? t
        let (s, t) ← readLines? mark escapes fuel t
        some (d :: s, t)
    else
      match afterNewline? (c :: t) with
      | some rest => do
        let (s, t) ← readLines? mark escapes fuel rest
        some ('\n' :: s, t)
      | none =>
        if isControl c then none
        else do
          let (s, t) ← readLines? mark escapes fuel t
          some (c :: s, t)

/-- A string of any sort, if one begins here. -/
def readString? (t : Text) : Option (Text × Text) :=
  match t with
  | a :: b :: c :: rest =>
    if a == b && b == c && (a == quote || a == apostrophe) then
      readLines? a (a == quote) (rest.length + 1) ((afterNewline? rest).getD rest)
    else short t
  | _ => short t
where
  /-- A string on one line. -/
  short : Text → Option (Text × Text)
    | c :: rest =>
      if c == quote then readBasic? (rest.length + 1) rest
      else if c == apostrophe then readLiteral? rest
      else none
    | [] => none

/-! ### Keys -/

def isKeyChar (c : Char) : Bool :=
  c.isAlphanum || c == '_' || c == '-'

/-- One part of a key: bare, or in quotes of one line. -/
def readKeyPart? (t : Text) : Option (Text × Text) :=
  match t with
  | c :: _ =>
    if c == quote || c == apostrophe then readString?.short t
    else
      let part := t.takeWhile isKeyChar
      if part.isEmpty then none else some (part, t.drop part.length)
  | [] => none

/-- How many parts a key may have, and how far brackets and braces may be nested. -/
def depthLimit : Nat := 80

/-- A key: parts with dots between them, at most as many as the number says. -/
def readKey? : Nat → Text → Option (List Text × Text)
  | 0, _ => none
  | limit + 1, t => do
    let (part, t) ← readKeyPart? (skipSpace t)
    match skipSpace t with
    | '.' :: t => do
      let (parts, t) ← readKey? limit t
      some (part :: parts, t)
    | t => some ([part], t)

/-! ### Values -/

/-- Characters of numbers, truth values and dates. -/
def isWordChar (c : Char) : Bool :=
  c.isAlphanum || c == '_' || c == '-' || c == '+' || c == '.' || c == ':'

/-- A scalar that is no string. A date may go on with a time after one blank. -/
def readWord? (t : Text) : Option (Scalar × Text) :=
  let word := t.takeWhile isWordChar
  let rest := t.drop word.length
  let second := (rest.drop 1).takeWhile isWordChar
  if afterDate? word == some [] && rest.head? == some ' ' && second.head?.any Char.isDigit then
    (scalar? (word ++ ' ' :: second)).map fun s => (s, rest.drop (second.length + 1))
  else (scalar? word).map fun s => (s, rest)

mutual

/-- A value with at most `depth` brackets and braces around each other. -/
def readValue? : Nat → Nat → Text → Option (Node × Text)
  | 0, _, _ => none
  | _ + 1, _, [] => none
  | fuel + 1, depth, c :: t =>
    if c == quote || c == apostrophe then
      (readString? (c :: t)).map fun (s, rest) => (.scalar (.string s), rest)
    else if c == '[' then
      match depth with
      | 0 => none
      | depth + 1 => (readItems? fuel depth t).map fun (items, rest) => (.array items false, rest)
    else if c == '\x7b' then
      match depth with
      | 0 => none
      | depth + 1 => do
        let (entries, rest) ← readEntries? fuel depth t
        let table ← inlineTable? entries
        some (table, rest)
    else (readWord? (c :: t)).map fun (s, rest) => (.scalar s, rest)

/-- The elements of an array, after its bracket or a comma. -/
def readItems? : Nat → Nat → Text → Option (List Node × Text)
  | 0, _, _ => none
  | fuel + 1, depth, t => do
    match ← skipFill? t.length t with
    | ']' :: t => some ([], t)
    | t => do
      let (item, t) ← readValue? fuel depth t
      match ← skipFill? t.length t with
      | ',' :: t => do
        let (items, t) ← readItems? fuel depth t
        some (item :: items, t)
      | ']' :: t => some ([item], t)
      | _ => none

/-- The entries of a table in braces, after the brace or a comma. -/
def readEntries? : Nat → Nat → Text → Option (List (List Text × Node) × Text)
  | 0, _, _ => none
  | fuel + 1, depth, t => do
    match ← skipFill? t.length t with
    | '\x7d' :: t => some ([], t)
    | t => do
      let (keys, t) ← readKey? depthLimit t
      let t ← drop? '=' (← skipFill? t.length t)
      let (value, t) ← readValue? fuel depth (← skipFill? t.length t)
      match ← skipFill? t.length t with
      | ',' :: t => do
        let (entries, t) ← readEntries? fuel depth t
        some ((keys, value) :: entries, t)
      | '\x7d' :: t => some ([(keys, value)], t)
      | _ => none

end

/-- A statement, if the line has one. -/
def readStatement? (t : Text) : Option (Option Statement × Text) :=
  match skipSpace t with
  | '[' :: '[' :: t => do
    let (keys, t) ← readKey? depthLimit t
    let t ← drop? ']' t
    let t ← drop? ']' t
    some (some (.element keys), t)
  | '[' :: t => do
    let (keys, t) ← readKey? depthLimit t
    let t ← drop? ']' t
    some (some (.header keys), t)
  | t =>
    if t.isEmpty || t.head? == some '#' || (afterNewline? t).isSome then some (none, t)
    else do
      let (keys, t) ← readKey? depthLimit t
      let t ← drop? '=' t
      let (value, t) ← readValue? (2 * t.length + 2) depthLimit (skipSpace t)
      some (some (.entry keys value), t)

/-- The statements of a text, one a line. -/
def readStatements? : Nat → Text → Option (List Statement)
  | 0, _ => none
  | fuel + 1, t => do
    let (statement, t) ← readStatement? t
    let t ← skipComment? (skipSpace t)
    let rest ← match t with
      | [] => some []
      | _ => do readStatements? fuel (← afterNewline? t)
    some (statement.toList ++ rest)

/-- Read a document. A byte order mark in front is skipped. -/
def read? (t : Text) : Option Table :=
  let t := if t.head? == some '\uFEFF' then t.drop 1 else t
  (readStatements? (t.length + 1) t).bind document?

end TokenEditor.Toml
