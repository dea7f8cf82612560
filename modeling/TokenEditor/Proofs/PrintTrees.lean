import Mathlib.Data.List.Induction
import TokenEditor.Proofs.Acts
import TokenEditor.Proofs.Replay

/-! # The tree of a print

A printer's tokens go into a flat row and, at the same time, into the innermost node that is open.
`Progress` follows a stream of steps without a tree: how many tokens were printed, how many nodes
entered, and which of them are open. `ofSteps_aligned` says that the tree tells the same: its leaves
are the row, each is owned by the innermost node that was open, and the span of a node has the
tokens that were printed while it was open.

The nodes still open are the right edge of the tree. What is added goes below that edge, so in every
listing of the tree it comes last (`leaves_go`, `owners_go`, `spans_go`). -/

namespace TokenEditor

namespace Forest
variable {ν τ : Type}

theorem owners_append (owner : ν) (f g : Forest ν τ) :
    (f ++ g).owners owner = f.owners owner ++ g.owners owner := by
  induction f with
  | nil => rfl
  | leaf t rest ih => simp [owners, ih]
  | node l cs rest _ ih => simp [owners, ih]

theorem spans_append (start : Nat) (f g : Forest ν τ) :
    (f ++ g).spans start = f.spans start ++ g.spans (start + f.leafCount) := by
  induction f generalizing start with
  | nil => rfl
  | leaf t rest ih =>
    simp only [leaf_append, spans_leaf, leafCount, ih]
    congr 2
    omega
  | node l cs rest _ ih => simp [leafCount, ih, Nat.add_assoc]

theorem bounds_of_mem_spans {f : Forest ν τ} {start : Nat} {s : Nat × Nat} (h : s ∈ f.spans start) :
    start ≤ s.1 ∧ s.1 ≤ s.2 := by
  induction f generalizing start with
  | nil => simp at h
  | leaf t rest ih =>
    have := ih h
    omega
  | node l cs rest ihc ihr =>
    simp only [spans_node, List.mem_cons, List.mem_append] at h
    rcases h with rfl | h | h
    · exact ⟨Nat.le_refl _, Nat.le_add_right _ _⟩
    · exact ihc h
    · have := ihr h
      omega

/-- Of two spans the later one lies within the earlier one or begins behind it. -/
theorem spans_laminar (start : Nat) (f : Forest ν τ) :
    (f.spans start).Pairwise fun s t => s.1 ≤ t.1 ∧ t.2 ≤ s.2 ∨ s.2 ≤ t.1 := by
  induction f generalizing start with
  | nil => exact .nil
  | leaf t rest ih => exact ih (start + 1)
  | node l cs rest ihc ihr =>
    rw [spans_node]
    refine List.pairwise_cons.2 ⟨fun t ht => ?_, List.pairwise_append.2 ⟨ihc start, ihr _, ?_⟩⟩
    · rcases List.mem_append.1 ht with ht | ht
      · exact .inl ⟨(bounds_of_mem_spans ht).1, le_of_mem_spans ht⟩
      · exact .inr (bounds_of_mem_spans ht).1
    · intro s hs t ht
      exact .inr (Nat.le_trans (le_of_mem_spans hs) (bounds_of_mem_spans ht).1)

namespace Builder

/-- Closing reads the finished row of a builder and, apart from its own argument, no open nodes. -/
theorem go_pending (done : Forest ν τ) (pending pending' : List (ν × Forest ν τ)) (f : Forest ν τ)
    (outer : List (ν × Forest ν τ)) :
    finish.go ⟨done, pending⟩ f outer = finish.go ⟨done, pending'⟩ f outer := by
  induction outer generalizing f with
  | nil => rfl
  | cons p outer ih => exact ih _

theorem finish_eq_go (b : Builder ν τ) : b.finish = finish.go b .nil b.pending := by
  obtain ⟨done, _ | ⟨⟨l, cs⟩, outer⟩⟩ := b
  · exact (append_nil done).symm
  · simp only [finish, finish.go, append_nil]

theorem finish_add (b : Builder ν τ) (f : Forest ν τ) :
    (b.add f).finish = finish.go b f b.pending := by
  obtain ⟨done, _ | ⟨⟨l, cs⟩, outer⟩⟩ := b
  · rfl
  · exact go_pending done _ _ _ outer

theorem finish_openNode (b : Builder ν τ) (l : ν) :
    (b.openNode l).finish = finish.go b (.node l .nil .nil) b.pending :=
  go_pending b.done _ _ _ b.pending

theorem finish_closeNode (b : Builder ν τ) : b.closeNode.finish = b.finish := by
  obtain ⟨done, _ | ⟨⟨l, cs⟩, outer⟩⟩ := b
  · rfl
  · rw [closeNode, finish_add]
    exact go_pending done _ _ _ outer

theorem leaves_go (b : Builder ν τ) (f : Forest ν τ) (outer : List (ν × Forest ν τ)) :
    (finish.go b f outer).leaves = (finish.go b .nil outer).leaves ++ f.leaves := by
  induction outer generalizing f with
  | nil => simp [finish.go]
  | cons p outer ih =>
    rw [finish.go, ih, finish.go, ih (.node p.1 (p.2 ++ .nil) .nil)]
    simp [leaves]

/-- The label of the innermost open node, `root` if none is open. -/
def innermost (root : ν) : List (ν × Forest ν τ) → ν
  | [] => root
  | (l, _) :: _ => l

theorem owners_go (root : ν) (b : Builder ν τ) (f : Forest ν τ) (outer : List (ν × Forest ν τ)) :
    (finish.go b f outer).owners root =
      (finish.go b .nil outer).owners root ++ f.owners (innermost root outer) := by
  induction outer generalizing f with
  | nil => simp [finish.go, owners_append, innermost]
  | cons p outer ih =>
    rw [finish.go, ih, finish.go, ih (.node p.1 (p.2 ++ .nil) .nil)]
    simp [owners, owners_append, innermost]

/-- A span whose end is known. -/
def closed (s : Nat × Nat) : Nat × Option Nat :=
  (s.1, some s.2)

/-- Where every node starts, the root and all others in the order in which they were opened, and
where it stops if it is closed. -/
def outline (done : Forest ν τ) : List (ν × Forest ν τ) → List (Nat × Option Nat)
  | [] => (0, none) :: (done.spans 0).map closed
  | (_, cs) :: outer => outline done outer ++ (done.leafCount + pendingCount outer, none) ::
      (cs.spans (done.leafCount + pendingCount outer)).map closed

/-- The span when all that is open is closed after `count` leaves. -/
def closedAt (count : Nat) (s : Nat × Option Nat) : Nat × Nat :=
  (s.1, s.2.getD count)

theorem map_closedAt (count : Nat) (ss : List (Nat × Nat)) :
    (ss.map closed).map (closedAt count) = ss := by
  rw [List.map_map]
  exact List.map_id ss

theorem spans_go (b : Builder ν τ) (f : Forest ν τ) (outer : List (ν × Forest ν τ)) (count : Nat)
    (h : count = b.done.leafCount + f.leafCount + pendingCount outer) :
    (0, count) :: (finish.go b f outer).spans 0 =
      (outline b.done outer).map (closedAt count) ++
        f.spans (b.done.leafCount + pendingCount outer) := by
  induction outer generalizing f with
  | nil =>
    simp only [finish.go, outline, spans_append, pendingCount, Nat.zero_add, Nat.add_zero,
      List.map_cons, map_closedAt]
    rfl
  | cons p outer ih =>
    simp only [pendingCount] at h
    rw [finish.go, ih _ (by simp only [leafCount, leafCount_append]; omega), outline,
      List.map_append, List.map_cons, map_closedAt]
    have hstop : b.done.leafCount + pendingCount outer + (p.2 ++ f).leafCount = count := by
      rw [leafCount_append]
      omega
    have hstart : b.done.leafCount + pendingCount outer + p.2.leafCount =
        b.done.leafCount + (p.2.leafCount + pendingCount outer) := by omega
    simp only [spans_node, spans_nil, spans_append, pendingCount, hstop, hstart, List.append_nil,
      List.append_assoc, List.cons_append]
    rfl

theorem spans_finish (b : Builder ν τ) :
    (0, b.count) :: b.finish.spans 0 = (outline b.done b.pending).map (closedAt b.count) := by
  rw [finish_eq_go, spans_go b .nil b.pending b.count rfl, spans_nil, List.append_nil]

/-- The open nodes, innermost first, by their places in the outline. -/
def numbered (done : Forest ν τ) : List (ν × Forest ν τ) → List (Nat × ν)
  | [] => []
  | (l, _) :: outer => ((outline done outer).length, l) :: numbered done outer

theorem outline_add (b : Builder ν τ) (f : Forest ν τ) :
    outline (b.add f).done (b.add f).pending =
      outline b.done b.pending ++ (f.spans b.count).map closed := by
  obtain ⟨done, _ | ⟨⟨l, cs⟩, outer⟩⟩ := b
  · simp [add, outline, spans_append, count, pendingCount]
  · simp only [add, outline, spans_append, count, pendingCount, List.map_append, List.append_assoc,
      List.cons_append]
    congr 5
    omega

theorem numbered_add (b : Builder ν τ) (f : Forest ν τ) :
    numbered (b.add f).done (b.add f).pending = numbered b.done b.pending := by
  obtain ⟨done, _ | ⟨⟨l, cs⟩, outer⟩⟩ := b
  · rfl
  · rfl

theorem count_openNode (b : Builder ν τ) (l : ν) : (b.openNode l).count = b.count := by
  simp [count, openNode, pendingCount, leafCount]

theorem outline_openNode (b : Builder ν τ) (l : ν) :
    outline (b.openNode l).done (b.openNode l).pending =
      outline b.done b.pending ++ [(b.count, none)] :=
  rfl

theorem outline_closeNode (done : Forest ν τ) (l : ν) (cs : Forest ν τ)
    (outer : List (ν × Forest ν τ)) :
    outline (closeNode ⟨done, (l, cs) :: outer⟩).done (closeNode ⟨done, (l, cs) :: outer⟩).pending =
      (outline done ((l, cs) :: outer)).set (outline done outer).length
        (done.leafCount + pendingCount outer, some (count ⟨done, (l, cs) :: outer⟩)) := by
  have hstop : done.leafCount + pendingCount outer + cs.leafCount =
      done.leafCount + (cs.leafCount + pendingCount outer) := by omega
  rw [closeNode, outline_add, outline]
  simp [closed, count, pendingCount, hstop]

/-- The entries without an end are those of the root and of the open nodes. -/
theorem outline_none_iff (done : Forest ν τ) (pending : List (ν × Forest ν τ)) (i : Nat) :
    (∃ start, (outline done pending)[i]? = some (start, none)) ↔
      i = 0 ∨ i ∈ (numbered done pending).map Prod.fst := by
  have hclosed (ss : List (Nat × Nat)) (j start : Nat) :
      (ss.map closed)[j]? ≠ some (start, none) := by
    intro h
    obtain ⟨s, -, hs⟩ := List.mem_map.1 (List.mem_of_getElem? h)
    simp [closed] at hs
  induction pending with
  | nil =>
    cases i with
    | zero => simp [outline]
    | succ i => simpa [outline, numbered] using fun start => hclosed _ i start
  | cons p outer ih =>
    have hlt (h : i = 0 ∨ i ∈ (numbered done outer).map Prod.fst) :
        i < (outline done outer).length := by
      obtain ⟨start, hs⟩ := ih.2 h
      exact (List.getElem?_eq_some_iff.1 hs).1
    rw [outline, numbered, List.map_cons, List.mem_cons]
    rcases Nat.lt_trichotomy i (outline done outer).length with h | h | h
    · rw [List.getElem?_append_left h]
      exact ih.trans (by simp [Nat.ne_of_lt h])
    · subst h
      simp
    · constructor
      · rintro ⟨start, hs⟩
        rw [List.getElem?_append_right (Nat.le_of_lt h),
          show i - (outline done outer).length = i - (outline done outer).length - 1 + 1 by omega,
          List.getElem?_cons_succ] at hs
        exact absurd hs (hclosed _ _ _)
      · intro hi
        have := hlt (hi.imp_right (·.resolve_left (Nat.ne_of_gt h)))
        omega

end Builder

end Forest

namespace PrintTree
variable {V : Type}

theorem spans_laminar (t : PrintTree V) :
    t.spans.Pairwise fun s s' => s.1 ≤ s'.1 ∧ s'.2 ≤ s.2 ∨ s.2 ≤ s'.1 :=
  Forest.spans_laminar 0 t.forest

end PrintTree

/-! ### A print without its tree -/

/-- How far a print has come. The root is node number 0 and open throughout. -/
structure Progress (V : Type) where
  tokens : Nat := 0
  /-- The nodes entered, with the root. -/
  nodes : Nat := 1
  /-- The nodes that are open, innermost first, with their numbers; without the root. -/
  opened : List (Nat × V) := []

namespace Progress
variable {V : Type}

def step (p : Progress V) : PrintStep V → Progress V
  | .enter v => { p with nodes := p.nodes + 1, opened := (p.nodes, v) :: p.opened }
  | .token _ => { p with tokens := p.tokens + 1 }
  | .close => { p with opened := p.opened.tail }
  | .watch _ => p

def after (steps : List (PrintStep V)) : Progress V :=
  steps.foldl step {}

/-- The value of the innermost open node. -/
def owner (root : V) (p : Progress V) : V :=
  (p.opened.head?.map Prod.snd).getD root

def IsOpen (p : Progress V) (i : Nat) : Prop :=
  i = 0 ∨ i ∈ p.opened.map Prod.fst

end Progress

namespace Forest.Builder
variable {V : Type}

def progress (b : Builder V (Token V)) : Progress V where
  tokens := b.count
  nodes := (outline b.done b.pending).length
  opened := numbered b.done b.pending

theorem progress_build (b : Builder V (Token V)) (s : PrintStep V) :
    (PrintStep.build b s).progress = b.progress.step s := by
  cases s with
  | enter v =>
    simp only [PrintStep.build, progress, Progress.step, count_openNode, outline_openNode,
      List.length_append]
    rfl
  | token t =>
    simp [PrintStep.build, progress, Progress.step, leaf, count_add, outline_add, numbered_add,
      leafCount]
  | close =>
    obtain ⟨done, _ | ⟨⟨l, cs⟩, outer⟩⟩ := b
    · rfl
    · simp only [PrintStep.build, progress, Progress.step, count_closeNode, outline_closeNode,
        List.length_set]
      rw [closeNode, numbered_add]
      rfl
  | watch c => rfl

end Forest.Builder

namespace Printed
variable {V : Type}

/-- The tree under construction after some steps. -/
def built (steps : List (PrintStep V)) : Forest.Builder V (Token V) :=
  steps.foldl PrintStep.build .empty

theorem built_concat (steps : List (PrintStep V)) (s : PrintStep V) :
    built (steps ++ [s]) = PrintStep.build (built steps) s := by
  rw [built, List.foldl_concat, built]

theorem progress_built (steps : List (PrintStep V)) :
    (built steps).progress = Progress.after steps := by
  induction steps using List.reverseRecOn with
  | nil => rfl
  | append_singleton steps s ih =>
    rw [built_concat, Forest.Builder.progress_build, ih, Progress.after, Progress.after,
      List.foldl_concat]

theorem tokens_after (steps : List (PrintStep V)) :
    (Progress.after steps).tokens = (steps.filterMap PrintStep.token?).length := by
  rw [← progress_built]
  exact (count_foldl_build steps .empty).trans (Nat.zero_add _)

theorem tokens_lt (before after : List (PrintStep V)) (t : Token V) :
    (Progress.after before).tokens < (Progress.after (before ++ .token t :: after)).tokens := by
  rw [tokens_after, tokens_after, List.filterMap_append, List.length_append]
  simp [PrintStep.token?]

theorem tokens_le_concat (steps : List (PrintStep V)) (s : PrintStep V) :
    (Progress.after steps).tokens ≤ (Progress.after (steps ++ [s])).tokens := by
  rw [tokens_after, tokens_after, List.filterMap_append, List.length_append]
  exact Nat.le_add_right _ _

/-- What a step adds below the nodes that are open. -/
def grown : PrintStep V → Forest V (Token V)
  | .enter v => .node v .nil .nil
  | .token t => .leaf t .nil
  | .close | .watch _ => .nil

theorem finish_build (b : Forest.Builder V (Token V)) (s : PrintStep V) :
    (PrintStep.build b s).finish = Forest.Builder.finish.go b (grown s) b.pending := by
  cases s with
  | enter v => exact Forest.Builder.finish_openNode b v
  | token t => exact Forest.Builder.finish_add b _
  | close => exact (Forest.Builder.finish_closeNode b).trans (Forest.Builder.finish_eq_go b)
  | watch c => exact Forest.Builder.finish_eq_go b

theorem leaves_built (steps : List (PrintStep V)) :
    (built steps).finish.leaves = steps.filterMap PrintStep.token? := by
  induction steps using List.reverseRecOn with
  | nil => rfl
  | append_singleton steps s ih =>
    rw [built_concat, finish_build, Forest.Builder.leaves_go, ← Forest.Builder.finish_eq_go, ih,
      List.filterMap_append]
    cases s <;> rfl

theorem owners_built_concat (root : V) (steps : List (PrintStep V)) (s : PrintStep V) :
    (built (steps ++ [s])).finish.owners root =
      (built steps).finish.owners root ++ (grown s).owners ((Progress.after steps).owner root) := by
  have hinner : Forest.Builder.innermost root (built steps).pending =
      (Progress.after steps).owner root := by
    rw [← progress_built]
    generalize built steps = b
    obtain ⟨done, _ | ⟨⟨l, cs⟩, outer⟩⟩ := b
    · rfl
    · rfl
  rw [built_concat, finish_build, Forest.Builder.owners_go, ← Forest.Builder.finish_eq_go, hinner]

/-- A listing that every step extends is extended by a run. -/
theorem extends_of_concat {α : Type} (listing : List (PrintStep V) → List α)
    (hstep : ∀ steps s, listing steps <+: listing (steps ++ [s]))
    (before after : List (PrintStep V)) : listing before <+: listing (before ++ after) := by
  induction after using List.reverseRecOn with
  | nil => simp
  | append_singleton after s ih =>
    rw [← List.append_assoc]
    exact ih.trans (hstep _ s)

theorem getElem?_of_extends {α : Type} {xs ys : List α} {x : α} (h : xs ++ [x] <+: ys) :
    ys[xs.length]? = some x := by
  obtain ⟨rest, rfl⟩ := h
  simp

theorem owner_at (root : V) (before after : List (PrintStep V)) (t : Token V) :
    ((built (before ++ .token t :: after)).finish.owners root)[(Progress.after before).tokens]? =
      some ((Progress.after before).owner root) := by
  have h := extends_of_concat (fun steps => (built steps).finish.owners root)
    (fun steps s => ⟨_, (owners_built_concat root steps s).symm⟩) (before ++ [.token t]) after
  rw [owners_built_concat, List.append_assoc] at h
  have hlen : ((built before).finish.owners root).length = (Progress.after before).tokens := by
    rw [Forest.length_owners, Forest.Builder.leafCount_finish, ← progress_built]
    rfl
  rw [← hlen]
  exact getElem?_of_extends h

/-- The entries of all nodes after some steps. -/
def entries (steps : List (PrintStep V)) : List (Nat × Option Nat) :=
  Forest.Builder.outline (built steps).done (built steps).pending

theorem length_entries (steps : List (PrintStep V)) :
    (entries steps).length = (Progress.after steps).nodes := by
  rw [← progress_built]
  rfl

theorem isOpen_iff (steps : List (PrintStep V)) (i : Nat) :
    (Progress.after steps).IsOpen i ↔ ∃ start, (entries steps)[i]? = some (start, none) := by
  rw [← progress_built]
  exact (Forest.Builder.outline_none_iff _ _ i).symm

theorem entries_enter (steps : List (PrintStep V)) (v : V) :
    entries (steps ++ [.enter v]) = entries steps ++ [((Progress.after steps).tokens, none)] := by
  rw [← progress_built, entries, built_concat]
  rfl

/-- What a step does to the entries: it keeps them, adds one, or closes one that is open. -/
theorem entries_concat (steps : List (PrintStep V)) (s : PrintStep V) :
    entries (steps ++ [s]) = entries steps ∨
    (∃ v, s = .enter v ∧
      entries (steps ++ [s]) = entries steps ++ [((Progress.after steps).tokens, none)]) ∨
    s = .close ∧ ∃ i start, (entries steps)[i]? = some (start, none) ∧
      entries (steps ++ [s]) =
        (entries steps).set i (start, some (Progress.after steps).tokens) := by
  cases s with
  | enter v => exact .inr (.inl ⟨v, rfl, entries_enter steps v⟩)
  | token t =>
    left
    rw [entries, built_concat, PrintStep.build, Forest.Builder.leaf, Forest.Builder.outline_add]
    exact List.append_nil _
  | close =>
    rw [← progress_built, entries, built_concat, entries]
    generalize built steps = b
    obtain ⟨done, _ | ⟨⟨l, cs⟩, outer⟩⟩ := b
    · exact .inl rfl
    · refine .inr (.inr ⟨rfl, _, _, ?_, Forest.Builder.outline_closeNode done l cs outer⟩)
      simp [Forest.Builder.outline]
  | watch c =>
    left
    rw [entries, built_concat]
    rfl

/-- The entry of node `i` tells at which tokens the node was open. -/
structure Records (steps : List (PrintStep V)) (i : Nat) (entry : Nat × Option Nat) : Prop where
  start_le : entry.1 ≤ (Progress.after steps).tokens
  stop_le : ∀ stop ∈ entry.2, entry.1 ≤ stop ∧ stop ≤ (Progress.after steps).tokens
  isOpen_iff : ∀ before t after, steps = before ++ .token t :: after →
    ((Progress.after before).IsOpen i ↔
      entry.1 ≤ (Progress.after before).tokens ∧
        ∀ stop ∈ entry.2, (Progress.after before).tokens < stop)

theorem starts_extend (before after : List (PrintStep V)) :
    (entries before).map Prod.fst <+: (entries (before ++ after)).map Prod.fst := by
  refine extends_of_concat (fun steps => (entries steps).map Prod.fst) (fun steps s => ?_) _ _
  rcases entries_concat steps s with h | ⟨v, -, h⟩ | ⟨-, i, start, hi, h⟩
  · exact h ▸ List.prefix_rfl
  · rw [h, List.map_append]
    exact List.prefix_append _ _
  · have hstart : ((entries steps).map Prod.fst)[i]? = some start := by simp [hi]
    obtain ⟨hlt, rfl⟩ := List.getElem?_eq_some_iff.1 hstart
    have hsame : (entries (steps ++ [s])).map Prod.fst = (entries steps).map Prod.fst := by
      rw [h, List.map_set, List.set_getElem_self]
    exact hsame ▸ List.prefix_rfl

theorem nodes_le (before after : List (PrintStep V)) :
    (Progress.after before).nodes ≤ (Progress.after (before ++ after)).nodes := by
  have := (starts_extend before after).length_le
  rwa [List.length_map, List.length_map, length_entries, length_entries] at this

theorem split_concat {steps before after : List (PrintStep V)} {s : PrintStep V} {t : Token V}
    (h : steps ++ [s] = before ++ .token t :: after) :
    (before = steps ∧ s = .token t) ∨ ∃ after', steps = before ++ .token t :: after' := by
  rcases List.eq_nil_or_concat after with rfl | ⟨after', s', rfl⟩
  · obtain ⟨rfl, hs⟩ := List.append_inj' h rfl
    exact .inl ⟨rfl, by simpa using hs⟩
  · rw [List.concat_eq_append, ← List.cons_append, ← List.append_assoc] at h
    exact .inr ⟨after', (List.append_inj' h rfl).1⟩

theorem Records.concat {steps : List (PrintStep V)} {i : Nat} {entry : Nat × Option Nat}
    (h : Records steps i entry) (hi : (entries steps)[i]? = some entry) (s : PrintStep V) :
    Records (steps ++ [s]) i entry where
  start_le := Nat.le_trans h.start_le (tokens_le_concat steps s)
  stop_le stop hs := by
    obtain ⟨hstart, hstop⟩ := h.stop_le stop hs
    exact ⟨hstart, Nat.le_trans hstop (tokens_le_concat steps s)⟩
  isOpen_iff before t after hsplit := by
    rcases split_concat hsplit with ⟨rfl, -⟩ | ⟨after', hsteps⟩
    · rw [Printed.isOpen_iff, hi]
      obtain ⟨start, _ | stop⟩ := entry
      · simpa using h.start_le
      · simpa using fun _ => (h.stop_le stop rfl).2
    · exact h.isOpen_iff before t after' hsteps

theorem Records.entered (steps : List (PrintStep V)) (v : V) :
    Records (steps ++ [.enter v]) (Progress.after steps).nodes
      ((Progress.after steps).tokens, none) where
  start_le := tokens_le_concat steps _
  stop_le stop hs := by simp at hs
  isOpen_iff before t after hsplit := by
    rcases split_concat hsplit with ⟨-, hs⟩ | ⟨after', rfl⟩
    · simp at hs
    · have hlt := tokens_lt before after' t
      have hnodes := nodes_le before (.token t :: after')
      rw [Printed.isOpen_iff]
      constructor
      · rintro ⟨start, hs⟩
        have := (List.getElem?_eq_some_iff.1 hs).1
        rw [length_entries] at this
        omega
      · rintro ⟨hle, -⟩
        omega

theorem Records.closed {steps : List (PrintStep V)} {i start : Nat}
    (h : Records steps i (start, none)) :
    Records (steps ++ [.close]) i (start, some (Progress.after steps).tokens) where
  start_le := Nat.le_trans h.start_le (tokens_le_concat steps _)
  stop_le stop hs := by
    obtain rfl := Option.some.inj hs
    exact ⟨h.start_le, tokens_le_concat steps _⟩
  isOpen_iff before t after hsplit := by
    rcases split_concat hsplit with ⟨-, hs⟩ | ⟨after', hsteps⟩
    · simp at hs
    · have hlt := tokens_lt before after' t
      rw [h.isOpen_iff before t after' hsteps, hsteps]
      simp [hlt]

theorem records_entries (steps : List (PrintStep V)) :
    ∀ {i entry}, (entries steps)[i]? = some entry → Records steps i entry := by
  induction steps using List.reverseRecOn with
  | nil =>
    intro i entry hi
    obtain rfl := List.mem_singleton.1 (List.mem_of_getElem? hi)
    exact ⟨Nat.zero_le _, by simp, by simp⟩
  | append_singleton steps s ih =>
    intro i entry hi
    rcases entries_concat steps s with h | ⟨v, rfl, h⟩ | ⟨rfl, j, start, hj, h⟩
    · rw [h] at hi
      exact (ih hi).concat hi s
    · rw [h] at hi
      rcases Nat.lt_or_ge i (entries steps).length with hlt | hge
      · rw [List.getElem?_append_left hlt] at hi
        exact (ih hi).concat hi _
      · rw [List.getElem?_append_right hge, List.getElem?_singleton] at hi
        split at hi
        case isTrue h0 =>
          obtain rfl := Option.some.inj hi
          rw [show i = (Progress.after steps).nodes by rw [← length_entries]; omega]
          exact Records.entered steps v
        case isFalse => cases hi
    · rw [h, List.getElem?_set] at hi
      split at hi
      case isTrue heq =>
        subst heq
        split at hi
        case isTrue =>
          obtain rfl := Option.some.inj hi
          exact (ih hj).closed
        case isFalse => cases hi
      case isFalse => exact (ih hi).concat hi _

theorem start_at (before after : List (PrintStep V)) (v : V) :
    ((entries (before ++ .enter v :: after)).map Prod.fst)[(Progress.after before).nodes]? =
      some (Progress.after before).tokens := by
  have h := starts_extend (before ++ [.enter v]) after
  rw [entries_enter, List.map_append, List.append_assoc] at h
  have hlen : ((entries before).map Prod.fst).length = (Progress.after before).nodes := by
    rw [List.length_map, length_entries]
  rw [← hlen]
  exact getElem?_of_extends h

/-! ### The tree and the row -/

theorem spans_ofSteps (root : V) (steps : List (PrintStep V)) :
    (ofSteps root steps).tree.spans =
      (entries steps).map (Forest.Builder.closedAt (Progress.after steps).tokens) := by
  rw [← progress_built]
  refine Eq.trans ?_ (Forest.Builder.spans_finish (built steps))
  rw [PrintTree.spans_eq, ← Forest.Builder.leafCount_finish]
  rfl

theorem Records.mem_iff {steps : List (PrintStep V)} {i : Nat} {entry : Nat × Option Nat}
    (h : Records steps i entry) :
    let s := Forest.Builder.closedAt (Progress.after steps).tokens entry
    s.1 ≤ s.2 ∧ s.2 ≤ (Progress.after steps).tokens ∧
    ∀ before t after, steps = before ++ .token t :: after →
      ((Progress.after before).IsOpen i ↔
        s.1 ≤ (Progress.after before).tokens ∧ (Progress.after before).tokens < s.2) := by
  obtain ⟨start, _ | stop⟩ := entry
  · refine ⟨h.start_le, Nat.le_refl _, fun before t after hsplit => ?_⟩
    have hlt := tokens_lt before after t
    rw [← hsplit] at hlt
    rw [h.isOpen_iff before t after hsplit]
    simpa [Forest.Builder.closedAt] using fun _ => hlt
  · refine ⟨(h.stop_le stop rfl).1, (h.stop_le stop rfl).2, fun before t after hsplit => ?_⟩
    rw [h.isOpen_iff before t after hsplit]
    simp [Forest.Builder.closedAt]

/-- Row and tree of a print tell the same, also where nodes are left open. A token is owned by the
innermost node that was open when it was printed. Nodes are listed as they were entered, each with
the tokens that were printed while it was open; of two spans one lies within the other, or they
have no token in common. -/
theorem ofSteps_aligned (root : V) (steps : List (PrintStep V)) :
    let p := ofSteps root steps
    p.tree.tokens = p.tokens ∧ p.tree.tokenCount = p.tokens.length ∧
    p.tree.objects.length = p.tokens.length ∧
    (∀ before t after, steps = before ++ .token t :: after →
      p.tokens[(Progress.after before).tokens]? = some t ∧
      p.tree.objects[(Progress.after before).tokens]? = some ((Progress.after before).owner root)) ∧
    p.tree.spans.length = (Progress.after steps).nodes ∧
    p.tree.spans[0]? = some (0, p.tokens.length) ∧
    (∀ before v after, steps = before ++ .enter v :: after → ∃ stop,
      p.tree.spans[(Progress.after before).nodes]? = some ((Progress.after before).tokens, stop)) ∧
    (∀ i s, p.tree.spans[i]? = some s → s.1 ≤ s.2 ∧ s.2 ≤ p.tokens.length ∧
      ∀ before t after, steps = before ++ .token t :: after →
        ((Progress.after before).IsOpen i ↔
          s.1 ≤ (Progress.after before).tokens ∧ (Progress.after before).tokens < s.2)) ∧
    p.tree.spans.Pairwise fun s t => s.1 ≤ t.1 ∧ t.2 ≤ s.2 ∨ s.2 ≤ t.1 := by
  intro p
  have hlength : p.tokens.length = (Progress.after steps).tokens := (tokens_after steps).symm
  have hspans : p.tree.spans = (entries steps).map _ := spans_ofSteps root steps
  refine ⟨leaves_built steps, tokenCount_tree root steps, ?_, ?_, ?_, ?_, ?_, ?_,
    p.tree.spans_laminar⟩
  · exact (Forest.length_owners root _).trans (tokenCount_tree root steps)
  · rintro before t after rfl
    refine ⟨?_, owner_at root before after t⟩
    rw [tokens_after]
    simp [p, ofSteps, PrintStep.token?]
  · rw [hspans, List.length_map, length_entries]
  · rw [PrintTree.spans_eq, ← tokenCount_tree root steps]
    rfl
  · rintro before v after rfl
    obtain ⟨entry, hentry, hstart⟩ := Option.map_eq_some_iff.1
      (List.getElem?_map .. ▸ start_at before after v)
    rw [hspans, List.getElem?_map, hentry, ← hstart]
    exact ⟨_, rfl⟩
  · intro i s hi
    rw [hspans, List.getElem?_map] at hi
    obtain ⟨entry, hentry, rfl⟩ := Option.map_eq_some_iff.1 hi
    rw [hlength]
    exact (records_entries steps hentry).mem_iff

end Printed

end TokenEditor
