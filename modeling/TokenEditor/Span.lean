/-! # Spans of tokens

A selection is a span of neighbouring tokens. It grows and shrinks along the spans of the nodes of
the printed tree. -/

namespace TokenEditor

/-- The tokens from `start` up to but not including `stop`. -/
structure Span where
  start : Nat
  stop : Nat
deriving DecidableEq, Repr

namespace Span

def length (s : Span) : Nat := s.stop - s.start

/-- `t` lies within `s`. -/
def covers (s t : Span) : Bool := s.start ≤ t.start && t.stop ≤ s.stop

def has (s : Span) (index : Nat) : Bool := s.start ≤ index && index < s.stop

/-- The shortest of the spans, the first of several. -/
def shortest? : List Span → Option Span
  | [] => none
  | s :: ss =>
    match shortest? ss with
    | none => some s
    | some t => if t.length < s.length then some t else some s

/-- The longest of the spans, the last of several. -/
def longest? : List Span → Option Span
  | [] => none
  | s :: ss =>
    match longest? ss with
    | none => some s
    | some t => if t.length < s.length then some s else some t

/-- Grow a selection: without one the focused token, then the shortest node span that properly
contains it, at last all `count` tokens. A row without a tree is selected at once. -/
def expand (selection : Option Span) (focus : Option Nat) (nodes : Option (List Span))
    (count : Nat) : Option Span :=
  match selection with
  | none => focus.map fun i => ⟨i, i + 1⟩
  | some current =>
    match nodes with
    | none => some ⟨0, count⟩
    | some spans =>
      (shortest? (spans.filter fun s => s.covers current && current.length < s.length)).or
        (some ⟨0, count⟩)

/-- Shrink a selection to the longest node span properly inside it that holds the focused token;
without one the selection is dropped. -/
def shrink (current : Span) (focus : Nat) (nodes : Option (List Span)) : Option Span :=
  match nodes with
  | none => none
  | some spans =>
    longest? (spans.filter fun s => current.covers s && s.length < current.length && s.has focus)

end Span

end TokenEditor
