import TokenEditor.Language

/-! # Palettes

A palette gives a language other completion items and pairs while its grammar stays. Text is then
cut into tokens with the items of the palette. -/

namespace TokenEditor
variable {V : Type}

structure Palette (V : Type) where
  items : List (Item V) := []
  extras : List (Item V) := []
  /-- Later items that are there at once; without them a request waits for an answer. -/
  ready : Option (List (Item V)) := none
  /-- Texts of the left and right tokens of a pair. -/
  pairs : List (Text × Text) := []

namespace Palette

/-- A non-empty text of characters in the class; its beginnings may be empty. -/
def run (inClass : Char → Bool) : Matcher :=
  .pattern (fun t => !t.isEmpty && t.all inClass) (fun t => t.all inClass)

/-- Any non-empty text. -/
def anything : Matcher :=
  .pattern (fun t => !t.isEmpty) (fun _ => true)

/-- Exactly two characters of the class. -/
def couple (inClass : Char → Bool) : Matcher :=
  .pattern (fun t => t.length == 2 && t.all inClass) (fun t => t.length ≤ 2 && t.all inClass)

/-- The language `base` with the items and pairs of the palette. -/
def dress [Payload V] (p : Palette V) (base : Language V) : Language V where
  parse := base.parse
  print := base.print
  tokenItems _ _ _ := p.items
  extraItems _ _ _ := p.extras
  laterItems _ _ _ :=
    match p.ready with
    | some items => .ready items
    | none => .latest
  pairLeft cells t := p.pairs.any fun q => q.1 == t.text cells
  pairRight cells t := p.pairs.any fun q => q.2 == t.text cells
  pair cells l r := p.pairs.any fun q => q.1 == l.text cells && q.2 == r.text cells

end Palette

end TokenEditor
