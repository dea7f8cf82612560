/-! # Ordered forests

A forest is a row of trees: leaves carry data, nodes carry a label and a forest of their own. It is
built from the flat stream of its opening, leaf and closing steps by a `Builder`. -/

namespace TokenEditor

/-- A row of trees, first tree first. -/
inductive Forest (ν τ : Type) where
  | nil
  | leaf (item : τ) (rest : Forest ν τ)
  | node (label : ν) (children rest : Forest ν τ)
deriving DecidableEq, Repr

namespace Forest
variable {ν τ : Type}

def append : Forest ν τ → Forest ν τ → Forest ν τ
  | nil, g => g
  | leaf t rest, g => leaf t (rest.append g)
  | node l cs rest, g => node l cs (rest.append g)

instance : Append (Forest ν τ) := ⟨append⟩

/-- Leaves in document order. -/
def leaves : Forest ν τ → List τ
  | nil => []
  | leaf t rest => t :: rest.leaves
  | node _ cs rest => cs.leaves ++ rest.leaves

def leafCount : Forest ν τ → Nat
  | nil => 0
  | leaf _ rest => rest.leafCount + 1
  | node _ cs rest => cs.leafCount + rest.leafCount

/-- Labels of all nodes, a node before its descendants. -/
def labels : Forest ν τ → List ν
  | nil => []
  | leaf _ rest => rest.labels
  | node l cs rest => l :: (cs.labels ++ rest.labels)

/-- For every leaf the label of the node that holds it directly; `owner` for those of the row. -/
def owners (owner : ν) : Forest ν τ → List ν
  | nil => []
  | leaf _ rest => owner :: rest.owners owner
  | node l cs rest => cs.owners l ++ rest.owners owner

/-- For every node, a node before its descendants, the interval of leaves under it, where the
first leaf of the row has number `start`; and the number after the last leaf. -/
def spansFrom (start : Nat) : Forest ν τ → List (Nat × Nat) × Nat
  | nil => ([], start)
  | leaf _ rest => rest.spansFrom (start + 1)
  | node _ cs rest =>
    let (inner, stop) := cs.spansFrom start
    let (later, last) := rest.spansFrom stop
    ((start, stop) :: (inner ++ later), last)

def spans (start : Nat) (f : Forest ν τ) : List (Nat × Nat) :=
  (f.spansFrom start).1

/-- Leaves that stand in the row itself. -/
def ownLeaves : Forest ν τ → List τ
  | nil => []
  | leaf t rest => t :: rest.ownLeaves
  | node _ _ rest => rest.ownLeaves

/-- The first node of the row, with its children. -/
def firstNode? : Forest ν τ → Option (ν × Forest ν τ)
  | nil => none
  | leaf _ rest => rest.firstNode?
  | node l cs _ => some (l, cs)

/-- A tree met on a walk. -/
inductive Visit (ν τ : Type) where
  | node (label : ν) (children : Forest ν τ)
  | leaf (item : τ)

/-- All trees with their depth, a node before its descendants. -/
def walk (depth : Nat) : Forest ν τ → List (Nat × Visit ν τ)
  | nil => []
  | leaf t rest => (depth, .leaf t) :: rest.walk depth
  | node l cs rest => (depth, .node l cs) :: (cs.walk (depth + 1) ++ rest.walk depth)

@[simp] theorem nil_append (f : Forest ν τ) : nil ++ f = f := rfl
@[simp] theorem leaf_append (t : τ) (f g : Forest ν τ) : leaf t f ++ g = leaf t (f ++ g) := rfl
@[simp] theorem node_append (l : ν) (cs f g : Forest ν τ) :
    node l cs f ++ g = node l cs (f ++ g) := rfl

@[simp] theorem leaves_append (f g : Forest ν τ) : (f ++ g).leaves = f.leaves ++ g.leaves := by
  induction f <;> simp_all [leaves]

theorem labels_append (f g : Forest ν τ) : (f ++ g).labels = f.labels ++ g.labels := by
  induction f <;> simp_all [labels]

theorem length_leaves (f : Forest ν τ) : f.leaves.length = f.leafCount := by
  induction f <;> simp_all [leaves, leafCount]

theorem length_owners (owner : ν) (f : Forest ν τ) : (f.owners owner).length = f.leafCount := by
  induction f generalizing owner <;> simp_all [owners, leafCount]

theorem spansFrom_snd (start : Nat) (f : Forest ν τ) :
    (f.spansFrom start).2 = start + f.leafCount := by
  induction f generalizing start with
  | nil => rfl
  | leaf t rest ih =>
    rw [spansFrom, ih, leafCount, Nat.add_assoc, Nat.add_comm 1]
  | node l cs rest ihc ihr =>
    simp only [spansFrom, ihc, ihr, leafCount, Nat.add_assoc]

@[simp] theorem spans_nil (start : Nat) : (nil : Forest ν τ).spans start = [] := rfl

@[simp] theorem spans_leaf (start : Nat) (t : τ) (rest : Forest ν τ) :
    (leaf t rest).spans start = rest.spans (start + 1) := rfl

@[simp] theorem spans_node (start : Nat) (l : ν) (cs rest : Forest ν τ) :
    (node l cs rest).spans start =
      (start, start + cs.leafCount) :: (cs.spans start ++ rest.spans (start + cs.leafCount)) := by
  rw [← spansFrom_snd]
  rfl

/-! ### Building from a stream of steps -/

/-- A forest under construction: the finished row, and the open nodes, innermost first, each with
the children it has so far. -/
structure Builder (ν τ : Type) where
  done : Forest ν τ
  pending : List (ν × Forest ν τ)

namespace Builder

def empty : Builder ν τ := ⟨nil, []⟩

/-- Append a finished row to the innermost open node. -/
def add (b : Builder ν τ) (f : Forest ν τ) : Builder ν τ :=
  match b.pending with
  | [] => { b with done := b.done ++ f }
  | (l, cs) :: outer => { b with pending := (l, cs ++ f) :: outer }

def leaf (b : Builder ν τ) (t : τ) : Builder ν τ :=
  b.add (.leaf t .nil)

def openNode (b : Builder ν τ) (l : ν) : Builder ν τ :=
  { b with pending := (l, .nil) :: b.pending }

/-- Close the innermost open node; without one nothing happens. -/
def closeNode (b : Builder ν τ) : Builder ν τ :=
  match b.pending with
  | [] => b
  | (l, cs) :: outer => { b with pending := outer }.add (.node l cs .nil)

/-- The whole forest, with every node that is still open closed. -/
def finish (b : Builder ν τ) : Forest ν τ :=
  match b.pending with
  | [] => b.done
  | (l, cs) :: outer => go (.node l cs .nil) outer
where
  go (inner : Forest ν τ) : List (ν × Forest ν τ) → Forest ν τ
    | [] => b.done ++ inner
    | (l, cs) :: outer => go (.node l (cs ++ inner) .nil) outer

/-- The whole forest without the nodes that are still open; what they hold stands in their place. -/
def release (b : Builder ν τ) : Forest ν τ :=
  b.done ++ b.pending.foldl (fun inner p => p.2 ++ inner) .nil

end Builder

end Forest

end TokenEditor
