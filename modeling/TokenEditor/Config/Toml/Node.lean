import TokenEditor.Text.Basic

/-! # TOML documents

The tree of a document, and how its statements build it. A table may be written out under a header,
arise on the way to another one, grow by dotted keys, or be closed in braces; what may still be
added to it depends on that. -/

namespace TokenEditor.Toml

inductive Scalar where
  | string (t : Text)
  | number
  /-- A well-formed number that is too large to be held. -/
  | oversized
  | boolean (b : Bool)
  | date
deriving DecidableEq, Repr

/-- How a table came about. -/
inductive Origin where
  /-- Written out under its own header, or the document itself. -/
  | header
  /-- On the way to a table with a header. -/
  | path
  /-- By dotted keys. -/
  | dotted
  /-- In braces, complete. -/
  | inline
deriving DecidableEq, Repr

inductive Node where
  | scalar (s : Scalar)
  /-- `ofTables` if its elements come from headers in double brackets. -/
  | array (items : List Node) (ofTables : Bool)
  | table (origin : Origin) (entries : List (Text × Node))

mutual

/-- Every number in the node can be held. -/
def Node.holds : Node → Bool
  | .scalar s => s != .oversized
  | .array items _ => holdsItems items
  | .table _ entries => holdsEntries entries

def holdsItems : List Node → Bool
  | [] => true
  | n :: items => n.holds && holdsItems items

def holdsEntries : List (Text × Node) → Bool
  | [] => true
  | (_, n) :: entries => n.holds && holdsEntries entries

end

/-- A table apart from its place in the tree. -/
structure Table where
  origin : Origin
  entries : List (Text × Node)

namespace Table

def empty (origin : Origin) : Table := ⟨origin, []⟩

def node (t : Table) : Node := .table t.origin t.entries

def get? (t : Table) (key : Text) : Option Node :=
  (t.entries.find? fun e => e.1 == key).map Prod.snd

/-- Set an entry, in its place if there is one. -/
def put (t : Table) (key : Text) (n : Node) : Table :=
  if (t.get? key).isSome then
    { t with entries := t.entries.map fun e => if e.1 == key then (key, n) else e }
  else { t with entries := t.entries ++ [(key, n)] }

/-- Change the table that a key path leads to. Tables are made on the way as `made`; the last
element of an array of tables stands for the array. A complete table cannot be entered, nor, by
dotted keys, one that has its own header. -/
def update (made : Origin) (change : Table → Option Table) : List Text → Table → Option Table
  | [], t => change t
  | key :: path, t =>
    match t.get? key with
    | none => do
      let inner ← update made change path (empty made)
      some (t.put key inner.node)
    | some (.table origin entries) =>
      if origin = .inline ∨ (made = .dotted ∧ origin = .header) then none
      else do
        let inner ← update made change path ⟨origin, entries⟩
        some (t.put key inner.node)
    | some (.array items true) =>
      match items.getLast? with
      | some (.table origin entries) => do
        let inner ← update made change path ⟨origin, entries⟩
        some (t.put key (.array (items.dropLast ++ [inner.node]) true))
      | _ => none
    | _ => none

/-- Add an entry that must be new. `plain` if its key has no dots: only then may the table be one
that is not grown by dotted keys. -/
def add (plain : Bool) (key : Text) (n : Node) (t : Table) : Option Table :=
  if (t.origin == .dotted) == plain then none
  else if (t.get? key).isSome then none
  else some (t.put key n)

/-- Add an entry under a key with dots. -/
def addDotted (keys : List Text) (n : Node) (t : Table) : Option Table :=
  match keys.getLast? with
  | none => none
  | some key => update .dotted (add (keys.length == 1) key n) keys.dropLast t

/-- Begin the table of a header. It must be new, or have arisen on the way to another one. -/
def beginTable (key : Text) (t : Table) : Option Table :=
  match t.get? key with
  | none => some (t.put key (empty .header).node)
  | some (.table .path entries) => some (t.put key (.table .header entries))
  | _ => none

/-- Begin the next table of an array of tables. -/
def beginElement (key : Text) (t : Table) : Option Table :=
  match t.get? key with
  | none => some (t.put key (.array [(empty .header).node] true))
  | some (.array items true) => some (t.put key (.array (items ++ [(empty .header).node]) true))
  | _ => none

end Table

/-- A line of a document that says something. -/
inductive Statement where
  | header (keys : List Text)
  | element (keys : List Text)
  | entry (keys : List Text) (n : Node)

/-- A document so far, and the keys that lead to the table under the last header. -/
structure Draft where
  root : Table := .empty .header
  current : List Text := []

namespace Draft

/-- Go to the current table and change it. -/
def inCurrent (change : Table → Option Table) : List Text → Table → Option Table
  | [], t => change t
  | key :: path, t =>
    match t.get? key with
    | some (.table origin entries) => do
      let inner ← inCurrent change path ⟨origin, entries⟩
      some (t.put key inner.node)
    | some (.array items true) =>
      match items.getLast? with
      | some (.table origin entries) => do
        let inner ← inCurrent change path ⟨origin, entries⟩
        some (t.put key (.array (items.dropLast ++ [inner.node]) true))
      | _ => none
    | _ => none

/-- Begin what a header with these keys asks for. -/
def begin (start : Text → Table → Option Table) (keys : List Text) (d : Draft) : Option Draft := do
  let key ← keys.getLast?
  let root ← d.root.update .path (start key) keys.dropLast
  some ⟨root, keys⟩

def apply (d : Draft) : Statement → Option Draft
  | .header keys => d.begin Table.beginTable keys
  | .element keys => d.begin Table.beginElement keys
  | .entry keys n => do
    let root ← inCurrent (Table.addDotted keys n) d.current d.root
    some { d with root := root }

end Draft

/-- The table of entries written in braces. -/
def inlineTable? (entries : List (List Text × Node)) : Option Node := do
  let t ← entries.foldlM (fun t e => Table.addDotted e.1 e.2 t) (Table.empty .header)
  some (.table .inline t.entries)

/-- The document that the statements make up. -/
def document? (statements : List Statement) : Option Table :=
  (statements.foldlM Draft.apply {}).map Draft.root

end TokenEditor.Toml
