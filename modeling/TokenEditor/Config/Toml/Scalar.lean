import TokenEditor.Config.Toml.Node

/-! # TOML scalars

Numbers, truth values and dates are recognised as whole words. Of a number only matters whether it
is well formed and whether it can be held, not which number it is. -/

namespace TokenEditor.Toml

/-- Digits of a class with single underscores between them; the underscores are dropped. -/
def grouped? (inClass : Char → Bool) : Text → Option Text
  | [] => none
  | [c] => if inClass c then some [c] else none
  | c :: '_' :: rest => if inClass c then (grouped? inClass rest).map (c :: ·) else none
  | c :: rest => if inClass c then (grouped? inClass rest).map (c :: ·) else none

/-- The value of a digit in any base up to sixteen. -/
def digitValue (c : Char) : Nat :=
  if c.isDigit then c.toNat - '0'.toNat
  else if c.isUpper then c.toNat - 'A'.toNat + 10
  else c.toNat - 'a'.toNat + 10

def valueIn (base : Nat) (digits : Text) : Nat :=
  digits.foldl (fun n d => base * n + digitValue d) 0

def isHexDigit (c : Char) : Bool :=
  c.isDigit || ('a' ≤ c && c ≤ 'f') || ('A' ≤ c && c ≤ 'F')

/-- The text without its sign, and whether that is a minus. -/
def unsigned (t : Text) : Bool × Text :=
  match t with
  | '-' :: rest => (true, rest)
  | '+' :: rest => (false, rest)
  | _ => (false, t)

/-- Decimal digits without a needless zero in front. -/
def wholePart? (t : Text) : Option Text :=
  match grouped? Char.isDigit t with
  | some ('0' :: _ :: _) => none
  | ds => ds

/-- The first number that does not fit into `n` bits. -/
def wordBound (n : Nat) : Nat := Nat.pow 2 n

/-- Whether an integer can be held: in 128 bits, signed or not. -/
def integerHolds? (t : Text) : Option Bool :=
  let inBase (base : Nat) (inClass : Char → Bool) (digits : Text) : Option Bool :=
    (grouped? inClass digits).map fun ds => valueIn base ds < wordBound 128
  match t with
  | '0' :: 'x' :: ds => inBase 16 isHexDigit ds
  | '0' :: 'o' :: ds => inBase 8 (fun c => '0' ≤ c && c ≤ '7') ds
  | '0' :: 'b' :: ds => inBase 2 (fun c => c == '0' || c == '1') ds
  | _ =>
    let (negative, rest) := unsigned t
    (wholePart? rest).map fun ds =>
      if negative then valueIn 10 ds ≤ wordBound 127 else valueIn 10 ds < wordBound 128

/-- `digits` times ten to the power `exponent` rounds to a finite double. -/
def isFinite (digits : Text) (exponent : Int) : Bool :=
  let m := valueIn 10 digits
  let length : Int := (Nat.toDigits 10 m).length
  let bound := wordBound 1024 - wordBound 970
  if m = 0 ∨ length + exponent ≤ 308 then true
  else if 310 ≤ length + exponent then false
  else if 0 ≤ exponent then m * Nat.pow 10 exponent.toNat < bound
  else m < bound * Nat.pow 10 (-exponent).toNat

/-- Cut at the first character of a class, which is dropped. -/
def cutAt (inClass : Char → Bool) (t : Text) : Text × Option Text :=
  match t.dropWhile (fun c => !inClass c) with
  | [] => (t, none)
  | _ :: rest => (t.takeWhile (fun c => !inClass c), some rest)

/-- Whether a float can be held. It has a fraction, an exponent or both. -/
def floatHolds? (t : Text) : Option Bool :=
  let (_, body) := unsigned t
  if body = "inf".toList ∨ body = "nan".toList then some true
  else
    let (mantissa, exponent) := cutAt (fun c => c == 'e' || c == 'E') body
    let (whole, fraction) := cutAt (· == '.') mantissa
    let fractionDigits := match fraction with
      | none => some []
      | some f => grouped? Char.isDigit f
    let power := match exponent with
      | none => some 0
      | some e =>
        let (negative, ds) := unsigned e
        (grouped? Char.isDigit ds).map fun ds =>
          if negative then -(valueIn 10 ds : Int) else (valueIn 10 ds : Int)
    match wholePart? whole, fractionDigits, power with
    | some w, some f, some p =>
      if fraction.isSome || exponent.isSome then some (isFinite (w ++ f) (p - f.length)) else none
    | _, _, _ => none

/-! ### Dates and times -/

/-- The first `n` characters as a number, if they are digits. -/
def digits? (n : Nat) (t : Text) : Option (Nat × Text) :=
  if (t.take n).length = n ∧ (t.take n).all Char.isDigit then some (valueIn 10 (t.take n), t.drop n)
  else none

/-- Drop the character `c` in front. -/
def drop? (c : Char) : Text → Option Text
  | d :: rest => if d = c then some rest else none
  | [] => none

def daysIn (year month : Nat) : Nat :=
  if month = 2 then
    if year % 4 = 0 ∧ (year % 100 ≠ 0 ∨ year % 400 = 0) then 29 else 28
  else if month = 4 ∨ month = 6 ∨ month = 9 ∨ month = 11 then 30
  else 31

/-- A date in front of the text; what follows it. -/
def afterDate? (t : Text) : Option Text := do
  let (year, t) ← digits? 4 t
  let t ← drop? '-' t
  let (month, t) ← digits? 2 t
  let t ← drop? '-' t
  let (day, t) ← digits? 2 t
  if 1 ≤ month ∧ month ≤ 12 ∧ 1 ≤ day ∧ day ≤ daysIn year month then some t else none

/-- A time in front of the text; what follows it. Seconds and their fraction may be left out. -/
def afterTime? (t : Text) : Option Text := do
  let (hour, t) ← digits? 2 t
  let t ← drop? ':' t
  let (minute, t) ← digits? 2 t
  if 23 < hour ∨ 59 < minute then none
  else
    match t with
    | ':' :: t => do
      let (second, t) ← digits? 2 t
      if 60 < second then none
      else
        match t with
        | '.' :: t => if t.head?.any Char.isDigit then some (t.dropWhile Char.isDigit) else none
        | _ => some t
    | _ => some t

/-- An offset from universal time, or nothing. -/
def isOffset (t : Text) : Bool :=
  match t with
  | [] | ['Z'] | ['z'] => true
  | sign :: t =>
    (sign == '+' || sign == '-') &&
      ((do
        let (hour, t) ← digits? 2 t
        let t ← drop? ':' t
        let (minute, t) ← digits? 2 t
        if hour ≤ 23 ∧ minute ≤ 59 ∧ t.isEmpty then some () else none) : Option Unit).isSome

/-- A date, a time, or both with `T` or a blank between them and perhaps an offset. -/
def isDate (t : Text) : Bool :=
  match afterDate? t with
  | some [] => true
  | some (mark :: rest) =>
    (mark == 'T' || mark == 't' || mark == ' ') && (afterTime? rest).any isOffset
  | none => afterTime? t == some []

/-- The scalar that a word stands for. -/
def scalar? (t : Text) : Option Scalar :=
  if t = "true".toList then some (.boolean true)
  else if t = "false".toList then some (.boolean false)
  else
    match integerHolds? t <|> floatHolds? t with
    | some holds => some (if holds then .number else .oversized)
    | none => if isDate t then some .date else none

end TokenEditor.Toml
