/-! # Settings -/

namespace TokenEditor

/-- How a region behaves. -/
structure Settings where
  /-- Read the row again after every edit of it. -/
  autoReparse : Bool := true
  /-- Print again whenever the value is replaced or a watched cell has changed. -/
  autoReprint : Bool := true
  /-- The menu offers extra items only, never plain tokens. -/
  hideTokensInMenu : Bool := false
deriving DecidableEq, Repr

end TokenEditor
