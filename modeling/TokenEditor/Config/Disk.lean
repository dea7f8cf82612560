import TokenEditor.Config.File
import TokenEditor.Forest

/-! # Storing settings

A disk is a tree of folders and files. Storing settings makes the folders on the way to the file,
then writes it. -/

namespace TokenEditor.Config

/-- Names from the root down. -/
abbrev Path := List Text

/-- The contents of a folder: folders are nodes, files are leaves with their name and text. -/
abbrev Disk := Forest Text (Text × Text)

/-- What a name stands for. -/
inductive Item where
  | file (t : Text)
  | folder (inside : Disk)

/-- Why settings cannot be stored; the path as it was asked for. -/
inductive WriteError where
  | creating (folder : Text)
  | writing (file : Text)
deriving DecidableEq, Repr

def WriteError.message : WriteError → Text
  | creating folder => "creating ".toList ++ folder
  | writing file => "writing ".toList ++ file

/-- The parts of a path text between its slashes. -/
def parts : Text → List Text
  | [] => [[]]
  | c :: t =>
    if c = '/' then [] :: parts t
    else
      match parts t with
      | [] => [[c]]
      | p :: ps => (c :: p) :: ps

/-- A part that leads nowhere. -/
def isIdle (part : Text) : Bool :=
  part == [] || part == ['.']

def up : Text := ['.', '.']

/-- The parts that lead somewhere. -/
def steps (t : Text) : List Text :=
  (parts t).filter fun p => !isIdle p

/-- A file or folder may be called so. -/
def isNameable (part : Text) : Bool :=
  part.utf8Size ≤ 255 && !part.contains '\x00'

/-- A path text is short enough to be followed. -/
def isReachable (t : Text) : Bool :=
  t.utf8Size ≤ 4095

/-- The path text `t` seen from the folder `base`; with a slash in front it stands for itself. -/
def join (base t : Text) : Text :=
  if t.head? == some '/' then t
  else if base.isEmpty || base.getLast? == some '/' then base ++ t
  else base ++ '/' :: t

/-- A path text without what leads nowhere at its end, given backwards. -/
def trimmed : Text → Text
  | '/' :: t => trimmed t
  | '.' :: '/' :: t => trimmed t
  | t => t

/-- The text of the folder that holds what a path text names. -/
def parentText (t : Text) : Text :=
  (trimmed ((trimmed t.reverse).dropWhile (· != '/'))).reverse

namespace Disk

def find? (name : Text) : Disk → Option Item
  | .nil => none
  | .leaf (n, t) rest => if n = name then some (.file t) else find? name rest
  | .node n inside rest => if n = name then some (.folder inside) else find? name rest

/-- What stands at a path. -/
def item? (d : Disk) : Path → Option Item
  | [] => some (.folder d)
  | name :: path =>
    match d.find? name with
    | some (.folder inside) => item? inside path
    | some (.file t) => if path.isEmpty then some (.file t) else none
    | none => none

/-- The text of the file at a path. -/
def text? (d : Disk) (p : Path) : Option Text :=
  match d.item? p with
  | some (.file t) => some t
  | _ => none

def isFolder (d : Disk) (p : Path) : Bool :=
  match d.item? p with
  | some (.folder _) => true
  | _ => false

/-- What there is to be read at a path. -/
def entry? (d : Disk) (p : Path) : Option Entry :=
  match d.item? p with
  | some (.file t) => some (.file (String.ofList t).toUTF8)
  | some (.folder _) => some .folder
  | none => none

/-- Change what is in the folder `name`. -/
def changeFolder (change : Disk → Disk) (name : Text) : Disk → Disk
  | .nil => .nil
  | .leaf file rest => .leaf file (changeFolder change name rest)
  | .node n inside rest =>
    if n = name then .node n (change inside) rest
    else .node n inside (changeFolder change name rest)

/-- Change what is in the folder at a path. -/
def changeAt (change : Disk → Disk) : Path → Disk → Disk
  | [] => change
  | name :: path => changeFolder (changeAt change path) name

def removeFile (name : Text) : Disk → Disk
  | .nil => .nil
  | .leaf file rest =>
    if file.1 = name then removeFile name rest else .leaf file (removeFile name rest)
  | .node n inside rest => .node n inside (removeFile name rest)

/-- Follow the steps from a folder, making the folders that are missing. A file or an impossible
name in the way ends it. -/
def makeFolders (d : Disk) (base : Path) : List Text → Option (Path × Disk)
  | [] => some (base, d)
  | step :: rest =>
    if step = up then makeFolders d base.dropLast rest
    else
      match d.item? (base ++ [step]) with
      | some (.folder _) => makeFolders d (base ++ [step]) rest
      | some (.file _) => none
      | none =>
        if isNameable step then
          makeFolders (d.changeAt (Forest.node step .nil) base) (base ++ [step]) rest
        else none

/-- Write a file in a folder, over the one that may be there. -/
def put (d : Disk) (folder : Path) (name t : Text) : Disk :=
  d.changeAt (fun inside => .leaf (name, t) (inside.removeFile name)) folder

/-- Store settings at a path text; tells where the file is. -/
def store (d : Disk) (t : Text) (s : Settings) : Except WriteError (Path × Disk) :=
  match (steps t).getLast? with
  | none => .error (.writing t)
  | some name =>
    if !isReachable (parentText t) then .error (.creating (parentText t))
    else
      match d.makeFolders [] (steps t).dropLast with
      | none => .error (.creating (parentText t))
      | some (folder, d) =>
        let namesFile := name != up && !(parts t).getLast?.any isIdle && isNameable name
        if namesFile && isReachable t && !d.isFolder (folder ++ [name]) then
          .ok (folder ++ [name], d.put folder name (write s))
        else .error (.writing t)

end Disk

end TokenEditor.Config
