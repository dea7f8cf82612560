import TokenEditor.Expr.Lexeme
import TokenEditor.Forest

/-! # Events

A parser reports its findings as a flat list of events: a node begins, a lexeme is taken, a node
ends. A node may be found to stand inside another one that begins only later in the list; its
beginning then links to the later one. `replay` builds the forest that the events describe,
opening linked nodes outermost first. -/

namespace TokenEditor.Expr

inductive Event where
  /-- A node begins; `link` is the position of the event at which its parent begins. -/
  | start (kind : Kind) (link : Option Nat)
  | token (kind : Kind)
  | finish
  /-- Nothing, or a beginning that has been dealt with. -/
  | placeholder
deriving DecidableEq, Repr

/-- A syntax tree: nodes of some kind over lexemes. -/
abbrev Tree := Forest Kind Lexeme

/-- The text under a tree. -/
def Tree.text (tree : Tree) : Text :=
  (tree.leaves.map Lexeme.text).flatten

namespace Event

def isStart : Event → Bool
  | start _ _ => true
  | _ => false

/-- Follow links from a beginning: the kinds met, innermost first, and the events with those
beginnings struck out. -/
def follow (events : List Event) (link : Option Nat) : List Kind × List Event :=
  match link with
  | none => ([], events)
  | some i =>
    match _h : events[i]? with
    | some (start kind next) =>
      let (kinds, events) := follow (events.set i .placeholder) next
      (kind :: kinds, events)
    | _ => ([], events.set i .placeholder)
termination_by events.countP isStart
decreasing_by
  obtain ⟨hi, hs⟩ := List.getElem?_eq_some_iff.1 _h
  have hpos : 0 < events.countP isStart :=
    List.countP_pos_iff.2 ⟨events[i], List.getElem_mem hi, by simp [hs, isStart]⟩
  rw [List.countP_set hi]
  simp only [hs, isStart, reduceIte, Bool.false_eq_true]
  omega

/-- The text of the next lexeme, empty past the end, and the lexemes after it. -/
def nextText : List Lexeme → Text × List Lexeme
  | [] => ([], [])
  | l :: ls => (l.text, ls)

/-- Replay the event at position `i`. -/
def replayAt (i : Nat) (events : List Event) (lexemes : List Lexeme)
    (b : Forest.Builder Kind Lexeme) : List Event × List Lexeme × Forest.Builder Kind Lexeme :=
  match events[i]? with
  | some (start kind link) =>
    let (parents, events) := follow (events.set i .placeholder) link
    (events, lexemes, (kind :: parents).reverse.foldl .openNode b)
  | some (token kind) =>
    let (text, lexemes) := nextText lexemes
    (events, lexemes, b.leaf ⟨kind, text⟩)
  | some finish => (events, lexemes, b.closeNode)
  | _ => (events, lexemes, b)

/-- Replay `n` events from position `i` on. -/
def replayFrom (i : Nat) :
    Nat → List Event → List Lexeme → Forest.Builder Kind Lexeme → Forest.Builder Kind Lexeme
  | 0, _, _, b => b
  | n + 1, events, lexemes, b =>
    let (events, lexemes, b) := replayAt i events lexemes b
    replayFrom (i + 1) n events lexemes b

/-- The forest that the events describe over the lexemes they took. Nodes that never end are
left out, and what was found in them stands by itself. -/
def replay (events : List Event) (lexemes : List Lexeme) : Tree :=
  (replayFrom 0 events.length events lexemes .empty).release

end Event

end TokenEditor.Expr
