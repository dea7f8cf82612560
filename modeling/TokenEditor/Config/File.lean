import TokenEditor.Config.Toml.Reader
import TokenEditor.Settings

/-! # Settings files

Settings are kept in a TOML file in the table `editor`. What is missing there takes its default,
what is unknown is ignored, but its numbers have to be such as can be held; an array in its place
gives the settings in order, and what follows them there is not looked at. -/

namespace TokenEditor.Config

inductive ReadError where
  /-- The file cannot be read as text. -/
  | read
  /-- The text is no TOML, or a setting has the wrong type. -/
  | parse
deriving DecidableEq, Repr

/-- What stands at a path. -/
inductive Entry where
  | file (bytes : ByteArray)
  | folder

def reparseKey : Text := "auto_reparse".toList
def reprintKey : Text := "auto_reprint".toList
def hideKey : Text := "hide_tokens_in_menu".toList
def editorKey : Text := "editor".toList

/-- A truth value, or the default where there is none. -/
def flag? (default : Bool) : Option Toml.Node → Option Bool
  | none => some default
  | some (.scalar (.boolean b)) => some b
  | some _ => none

def flags? (reparse reprint hide : Option Toml.Node) : Option Settings := do
  let defaults : Settings := {}
  some {
    autoReparse := ← flag? defaults.autoReparse reparse
    autoReprint := ← flag? defaults.autoReprint reprint
    hideTokensInMenu := ← flag? defaults.hideTokensInMenu hide }

/-- The settings in a node. A date counts as a table without known keys. -/
def settingsOf? : Toml.Node → Option Settings
  | .table origin entries =>
    let t : Toml.Table := ⟨origin, entries⟩
    if t.node.holds then flags? (t.get? reparseKey) (t.get? reprintKey) (t.get? hideKey) else none
  | .array items _ => flags? items[0]? items[1]? items[2]?
  | .scalar .date => some {}
  | .scalar _ => none

/-- The settings in a text. -/
def parse? (t : Text) : Option Settings := do
  let document ← Toml.read? t
  guard (Toml.holdsEntries (document.entries.filter fun e => e.1 != editorKey))
  match document.get? editorKey with
  | none => some {}
  | some n => settingsOf? n

/-- Read what stands at a path; nothing if there is nothing. -/
def read : Option Entry → Except ReadError (Option Settings)
  | none => .ok none
  | some .folder => .error .read
  | some (.file bytes) =>
    match String.fromUTF8? bytes with
    | none => .error .read
    | some s =>
      match parse? s.toList with
      | none => .error .parse
      | some settings => .ok (some settings)

def readOrDefault (e : Option Entry) : Except ReadError Settings :=
  (read e).map fun s => s.getD {}

/-- The text of a settings file. -/
def write (s : Settings) : Text :=
  let line (key : Text) (b : Bool) : Text := key ++ (if b then " = true\n" else " = false\n").toList
  '[' :: editorKey ++ [']', '\n'] ++ line reparseKey s.autoReparse ++
    line reprintKey s.autoReprint ++ line hideKey s.hideTokensInMenu

/-- Where the settings of a user are, given their home folder. -/
def userPath (home : Text) : Text :=
  home ++ "/.config/hybrid-editor/config.toml".toList

end TokenEditor.Config
