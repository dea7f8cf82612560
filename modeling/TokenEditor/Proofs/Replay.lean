import TokenEditor.Expr.Grammar

/-! # Replaying events

`Plays base es ls f`: replaying the events `es`, placed from position `base` on, takes the lexemes
`ls` and adds the forest `f` to whatever is under construction. Played lists concatenate, and a
fragment plays as one node: its events are a chain of layers, each linked to the next, and replaying
the first opens all of them, the last layer outermost.

`Accounts es ls f` leaves positions and links aside: the events begin the nodes of `f`, each once,
and end what they begin, and its leaves are `ls`. -/

namespace TokenEditor

namespace Forest
variable {ν τ : Type}

@[simp] theorem append_nil (f : Forest ν τ) : f ++ nil = f := by
  induction f with
  | nil => rfl
  | leaf t rest ih => rw [leaf_append, ih]
  | node l cs rest _ ih => rw [node_append, ih]

theorem append_assoc (f g h : Forest ν τ) : f ++ g ++ h = f ++ (g ++ h) := by
  induction f with
  | nil => rfl
  | leaf t rest ih => simp only [leaf_append, ih]
  | node l cs rest _ ih => simp only [node_append, ih]

namespace Builder

@[simp] theorem add_nil (b : Builder ν τ) : b.add nil = b := by
  obtain ⟨done, pending⟩ := b
  cases pending <;> simp [add]

theorem add_add (b : Builder ν τ) (f g : Forest ν τ) : (b.add f).add g = b.add (f ++ g) := by
  obtain ⟨done, pending⟩ := b
  cases pending <;> simp [add, append_assoc]

/-- Open nodes with the listed labels, the last one outermost. -/
def openAll (labels : List ν) (b : Builder ν τ) : Builder ν τ :=
  labels.reverse.foldl openNode b

@[simp] theorem openAll_nil (b : Builder ν τ) : openAll [] b = b := rfl

theorem openAll_cons (l : ν) (ls : List ν) (b : Builder ν τ) :
    openAll (l :: ls) b = (openAll ls b).openNode l := by
  simp [openAll]

theorem closeNode_add_openNode (b : Builder ν τ) (l : ν) (f : Forest ν τ) :
    ((b.openNode l).add f).closeNode = b.add (.node l f .nil) := by
  obtain ⟨done, pending⟩ := b
  cases pending <;> simp [openNode, add, closeNode]

end Builder

end Forest

namespace Expr

namespace Event

/-- Replaying `es` from position `base` on takes `ls` and adds `f`. The events may be struck out on
the way; nothing looks at them again. -/
def Plays (base : Nat) (es : List Event) (ls : List Lexeme) (f : Tree) : Prop :=
  ∃ es', es'.length = es.length ∧ ∀ pre post rest b n, pre.length = base →
    replayFrom base (es.length + n) (pre ++ es ++ post) (ls ++ rest) b =
      replayFrom (base + es.length) n (pre ++ es' ++ post) rest (b.add f)

theorem replayFrom_placeholder (pre post : List Event) (ls : List Lexeme)
    (b : Forest.Builder Kind Lexeme) (n : Nat) :
    replayFrom pre.length (n + 1) (pre ++ placeholder :: post) ls b =
      replayFrom (pre.length + 1) n (pre ++ placeholder :: post) ls b := by
  simp [replayFrom, replayAt]

theorem replayFrom_finish (pre post : List Event) (ls : List Lexeme)
    (b : Forest.Builder Kind Lexeme) (n : Nat) :
    replayFrom pre.length (n + 1) (pre ++ finish :: post) ls b =
      replayFrom (pre.length + 1) n (pre ++ finish :: post) ls b.closeNode := by
  simp [replayFrom, replayAt]

namespace Plays
variable {base : Nat} {es es₁ es₂ : List Event} {ls ls₁ ls₂ : List Lexeme} {f f₁ f₂ : Tree}

theorem nil : Plays base [] [] .nil :=
  ⟨[], rfl, fun pre post rest b n _ => by simp⟩

theorem token (l : Lexeme) : Plays base [.token l.kind] [l] (.leaf l .nil) := by
  refine ⟨[.token l.kind], rfl, fun pre post rest b n hpre => ?_⟩
  subst hpre
  simp [replayFrom, replayAt, nextText, Forest.Builder.leaf, Nat.add_comm 1 n]

theorem append (h₁ : Plays base es₁ ls₁ f₁) (h₂ : Plays (base + es₁.length) es₂ ls₂ f₂) :
    Plays base (es₁ ++ es₂) (ls₁ ++ ls₂) (f₁ ++ f₂) := by
  obtain ⟨es₁', hlen₁, h₁⟩ := h₁
  obtain ⟨es₂', hlen₂, h₂⟩ := h₂
  refine ⟨es₁' ++ es₂', by simp [hlen₁, hlen₂], fun pre post rest b n hpre => ?_⟩
  have e₁ := h₁ pre (es₂ ++ post) (ls₂ ++ rest) b (es₂.length + n) hpre
  have e₂ := h₂ (pre ++ es₁') post rest (b.add f₁) n (by simp [hpre, hlen₁])
  simp only [List.append_assoc, List.length_append, Nat.add_assoc] at e₁ e₂ ⊢
  rw [e₁, e₂, Forest.Builder.add_add]

theorem unique (h₁ : Plays base es ls f₁) (h₂ : Plays base es ls f₂) : f₁ = f₂ := by
  obtain ⟨es₁, -, h₁⟩ := h₁
  obtain ⟨es₂, -, h₂⟩ := h₂
  have e₁ := h₁ (.replicate base .placeholder) [] [] .empty 0 (by simp)
  have e₂ := h₂ (.replicate base .placeholder) [] [] .empty 0 (by simp)
  exact congrArg Forest.Builder.done (e₁.symm.trans e₂)

theorem replay_eq (h : Plays 0 es ls f) : replay es ls = f := by
  obtain ⟨es', -, h⟩ := h
  have e := h [] [] [] .empty 0 rfl
  simp only [List.nil_append, List.append_nil, Nat.add_zero, replayFrom] at e
  rw [replay, e]
  exact Forest.append_nil f

end Plays

/-- The kind of the node that begins. -/
def kind? : Event → Option Kind
  | start kind _ => some kind
  | _ => none

/-- How many nodes are open after the events, when `depth` are open before; nothing if a node ends
that has not begun. -/
def depthAfter : Nat → List Event → Option Nat
  | depth, [] => some depth
  | depth, start _ _ :: es => depthAfter (depth + 1) es
  | 0, finish :: _ => none
  | depth + 1, finish :: es => depthAfter depth es
  | depth, token _ :: es | depth, placeholder :: es => depthAfter depth es

theorem depthAfter_append (depth : Nat) (es₁ es₂ : List Event) :
    depthAfter depth (es₁ ++ es₂) = (depthAfter depth es₁).bind fun d => depthAfter d es₂ := by
  fun_induction depthAfter depth es₁ <;> simp_all [depthAfter]

/-- The event with its link, if it has one, set to `target`. -/
def relink (target : Nat) : Event → Event
  | start k _ => start k (some target)
  | e => e

theorem filterMap_kind?_modify (i target : Nat) (es : List Event) :
    (es.modify i (relink target)).filterMap kind? = es.filterMap kind? := by
  induction es generalizing i with
  | nil => simp
  | cons e es ih =>
    cases i with
    | zero => cases e <;> rfl
    | succ i => simp [List.filterMap_cons, ih]

theorem depthAfter_modify (depth i target : Nat) (es : List Event) :
    depthAfter depth (es.modify i (relink target)) = depthAfter depth es := by
  induction es generalizing depth i with
  | nil => simp
  | cons e es ih =>
    cases i with
    | zero => cases depth <;> cases e <;> rfl
    | succ i => cases depth <;> cases e <;> simp [depthAfter, ih]

/-- The events begin every node of the forest once and end it, and begin no root; the leaves of the
forest are the lexemes. -/
structure Accounts (es : List Event) (ls : List Lexeme) (f : Tree) : Prop where
  leaves : f.leaves = ls
  labels : f.labels.Perm (es.filterMap kind?)
  depth : ∀ d, depthAfter d es = some d
  rootless : .root ∉ f.labels

namespace Accounts
variable {es es₁ es₂ : List Event} {ls ls₁ ls₂ : List Lexeme} {f f₁ f₂ : Tree}

theorem nil : Accounts [] [] .nil :=
  ⟨rfl, .nil, fun _ => rfl, by simp [Forest.labels]⟩

theorem token (l : Lexeme) : Accounts [.token l.kind] [l] (.leaf l .nil) :=
  ⟨rfl, .nil, fun _ => rfl, by simp [Forest.labels]⟩

theorem append (h₁ : Accounts es₁ ls₁ f₁) (h₂ : Accounts es₂ ls₂ f₂) :
    Accounts (es₁ ++ es₂) (ls₁ ++ ls₂) (f₁ ++ f₂) where
  leaves := by rw [Forest.leaves_append, h₁.leaves, h₂.leaves]
  labels := by
    rw [Forest.labels_append, List.filterMap_append]
    exact h₁.labels.append h₂.labels
  depth d := by rw [depthAfter_append, h₁.depth, Option.bind_some, h₂.depth]
  rootless := by simp [Forest.labels_append, h₁.rootless, h₂.rootless]

theorem depth_node (h : Accounts es ls f) (kind : Kind) (d : Nat) :
    depthAfter d (.start kind none :: (es ++ [.finish])) = some d := by
  rw [depthAfter, depthAfter_append, h.depth]
  rfl

theorem labels_node (h : Accounts es ls f) (kind : Kind) :
    (Forest.node kind f .nil).labels.Perm
      ((start kind none :: (es ++ [finish])).filterMap kind?) := by
  simpa [Forest.labels, List.filterMap_cons, kind?] using h.labels

theorem node (h : Accounts es ls f) {kind : Kind} (hk : kind ≠ .root) :
    Accounts (.start kind none :: (es ++ [.finish])) ls (.node kind f .nil) where
  leaves := by simp [Forest.leaves, h.leaves]
  labels := h.labels_node kind
  depth := h.depth_node kind
  rootless := by simp [Forest.labels, hk.symm, h.rootless]

theorem wrap (h₁ : Accounts es₁ ls₁ f₁) (h₂ : Accounts es₂ ls₂ f₂) {kind : Kind}
    (hk : kind ≠ .root) :
    Accounts (es₁ ++ .start kind none :: (es₂ ++ [.finish])) (ls₁ ++ ls₂)
      (.node kind (f₁ ++ f₂) .nil) where
  leaves := by simp [Forest.leaves, h₁.leaves, h₂.leaves]
  labels := by
    have hkinds : (es₁ ++ start kind none :: (es₂ ++ [finish])).filterMap kind? =
        es₁.filterMap kind? ++ kind :: es₂.filterMap kind? := by
      simp [List.filterMap_cons, kind?]
    rw [hkinds]
    refine .trans ?_ List.perm_middle.symm
    simpa [Forest.labels, Forest.labels_append] using h₁.labels.append h₂.labels
  depth d := by rw [depthAfter_append, h₁.depth, Option.bind_some, h₂.depth_node]
  rootless := by simp [Forest.labels, Forest.labels_append, hk.symm, h₁.rootless, h₂.rootless]

theorem modify_relink (h : Accounts es ls f) (i target : Nat) :
    Accounts (es.modify i (relink target)) ls f where
  leaves := h.leaves
  labels := by rw [filterMap_kind?_modify]; exact h.labels
  depth d := by rw [depthAfter_modify, h.depth]
  rootless := h.rootless

end Accounts

/-- The events play as the forest and account for it. -/
structure Describes (base : Nat) (es : List Event) (ls : List Lexeme) (f : Tree) : Prop
    extends Accounts es ls f where
  plays : Plays base es ls f

namespace Describes
variable {base : Nat} {es es₁ es₂ : List Event} {ls ls₁ ls₂ : List Lexeme} {f f₁ f₂ : Tree}

theorem nil : Describes base [] [] .nil := ⟨.nil, .nil⟩

theorem token (l : Lexeme) : Describes base [.token l.kind] [l] (.leaf l .nil) :=
  ⟨.token l, .token l⟩

theorem append (h₁ : Describes base es₁ ls₁ f₁) (h₂ : Describes (base + es₁.length) es₂ ls₂ f₂) :
    Describes base (es₁ ++ es₂) (ls₁ ++ ls₂) (f₁ ++ f₂) :=
  ⟨h₁.toAccounts.append h₂.toAccounts, h₁.plays.append h₂.plays⟩

theorem cons (l : Lexeme) (h : Describes (base + 1) es ls f) :
    Describes base (.token l.kind :: es) (l :: ls) (.leaf l f) :=
  (token l).append h

end Describes

end Event

/-! ### Chains -/

/-- One node of a chain: its kind, the events between its beginning and its end, and what they
stand for. -/
structure Layer where
  kind : Kind
  body : List Event
  taken : List Lexeme
  inner : Tree

namespace Layer

/-- The link to the layers that follow, if any. -/
def linkTo (base : Nat) : List Layer → Option Nat
  | [] => none
  | _ :: _ => some base

/-- The events of a chain placed from `base` on. -/
def render (base : Nat) : List Layer → List Event
  | [] => []
  | l :: ls =>
    .start l.kind (linkTo (base + l.body.length + 2) ls) ::
      (l.body ++ .finish :: render (base + l.body.length + 2) ls)

/-- The events of a chain with all beginnings struck out. -/
def struck : List Layer → List Event
  | [] => []
  | l :: ls => .placeholder :: (l.body ++ .finish :: struck ls)

/-- Position at which the last layer begins. -/
def lastStart : List Layer → Nat
  | [] => 0
  | [_] => 0
  | l :: m :: ls => l.body.length + 2 + lastStart (m :: ls)

/-- Each layer becomes the first child of the next; `acc` stands first in the first one. -/
def grow (acc : Tree) : List Layer → Tree
  | [] => acc
  | l :: ls => grow (.node l.kind (acc ++ l.inner) .nil) ls

/-- The bodies of the layers play as they should. -/
def Playing (base : Nat) : List Layer → Prop
  | [] => True
  | l :: ls =>
    Event.Plays (base + 1) l.body l.taken l.inner ∧ Playing (base + l.body.length + 2) ls

theorem length_render (base : Nat) (ls : List Layer) : (render base ls).length = (struck ls).length := by
  induction ls generalizing base with
  | nil => rfl
  | cons l ls ih => simp [render, struck, ih]

theorem grow_concat (acc : Tree) (ls : List Layer) (l : Layer) :
    grow acc (ls ++ [l]) = .node l.kind (grow acc ls ++ l.inner) .nil := by
  induction ls generalizing acc with
  | nil => rfl
  | cons m ls ih => simp only [List.cons_append, grow, ih]

theorem playing_concat {base : Nat} {ls : List Layer} {l : Layer} (h : Playing base ls)
    (hl : Event.Plays (base + (render base ls).length + 1) l.body l.taken l.inner) :
    Playing base (ls ++ [l]) := by
  induction ls generalizing base with
  | nil => exact ⟨hl, trivial⟩
  | cons m ls ih =>
    refine ⟨h.1, ih h.2 ?_⟩
    have hlen : base + (render base (m :: ls)).length + 1 =
        base + m.body.length + 2 + (render (base + m.body.length + 2) ls).length + 1 := by
      simp only [render, List.length_cons, List.length_append]; omega
    rwa [hlen] at hl

theorem getElem?_render (pre post : List Event) (l : Layer) (ls : List Layer) :
    (pre ++ render pre.length (l :: ls) ++ post)[pre.length]? =
      some (.start l.kind (linkTo (pre.length + l.body.length + 2) ls)) := by
  simp [render]

theorem follow_first {ls : List Layer} {post : List Event} (l : Layer) (pre : List Event)
    (h : ∀ pre, Event.follow (pre ++ render pre.length ls ++ post) (linkTo pre.length ls) =
      (ls.map kind, pre ++ struck ls ++ post)) :
    Event.follow ((pre ++ render pre.length (l :: ls) ++ post).set pre.length .placeholder)
        (linkTo (pre.length + l.body.length + 2) ls) =
      (ls.map kind, pre ++ struck (l :: ls) ++ post) := by
  have hlen : (pre ++ Event.placeholder :: (l.body ++ [Event.finish])).length =
      pre.length + l.body.length + 2 := by simp; omega
  have h := h (pre ++ .placeholder :: (l.body ++ [.finish]))
  rw [hlen] at h
  simpa [render, struck] using h

/-- Following the links of a chain meets its kinds in order and strikes out its beginnings. -/
theorem follow_render (ls : List Layer) (pre post : List Event) :
    Event.follow (pre ++ render pre.length ls ++ post) (linkTo pre.length ls) =
      (ls.map kind, pre ++ struck ls ++ post) := by
  induction ls generalizing pre with
  | nil => simp [render, struck, linkTo, Event.follow]
  | cons l ls ih =>
    rw [linkTo, Event.follow]
    split
    case h_1 kind next h =>
      rw [getElem?_render] at h
      obtain ⟨rfl, rfl⟩ : l.kind = kind ∧ linkTo (pre.length + l.body.length + 2) ls = next := by
        simpa using h
      rw [follow_first l pre ih]
      rfl
    case h_2 h => exact absurd (getElem?_render pre post l ls) (h _ _)

/-- With all nodes of a chain open and its beginnings struck out, replaying it closes them one
inside the other. -/
theorem replay_struck {base : Nat} {ls : List Layer} (h : Playing base ls) :
    ∃ es', es'.length = (struck ls).length ∧ ∀ pre post rest b acc n, pre.length = base →
      Event.replayFrom base ((struck ls).length + n) (pre ++ struck ls ++ post)
          (ls.flatMap taken ++ rest) ((Forest.Builder.openAll (ls.map kind) b).add acc) =
        Event.replayFrom (base + (struck ls).length) n (pre ++ es' ++ post) rest
          (b.add (grow acc ls)) := by
  induction ls generalizing base with
  | nil => exact ⟨[], rfl, fun pre post rest b acc n _ => by simp [struck, grow]⟩
  | cons l ls ih =>
    obtain ⟨⟨body', hbody, hplay⟩, hrest⟩ := h
    obtain ⟨es', hes, ih⟩ := ih hrest
    refine ⟨.placeholder :: (body' ++ .finish :: es'), by simp [struck, hbody, hes],
      fun pre post rest b acc n hpre => ?_⟩
    subst hpre
    have hn : (struck (l :: ls)).length + n = (l.body.length + ((struck ls).length + n + 1)) + 1 := by
      simp only [struck, List.length_cons, List.length_append]; omega
    have e₁ := hplay (pre ++ [.placeholder]) (.finish :: (struck ls ++ post))
      (ls.flatMap taken ++ rest)
      ((Forest.Builder.openAll ((l :: ls).map kind) b).add acc) ((struck ls).length + n + 1) (by simp)
    have e₂ := Event.replayFrom_finish (pre ++ .placeholder :: body') (struck ls ++ post)
      (ls.flatMap taken ++ rest)
      ((Forest.Builder.openAll ((l :: ls).map kind) b).add (acc ++ l.inner))
      ((struck ls).length + n)
    have e₃ := ih (pre ++ .placeholder :: (body' ++ [.finish])) post rest b
      (.node l.kind (acc ++ l.inner) .nil) n (by simp [hbody]; omega)
    rw [List.map_cons, Forest.Builder.openAll_cons, Forest.Builder.closeNode_add_openNode] at e₂
    simp only [List.append_assoc, List.cons_append, List.nil_append, List.length_append,
      List.length_cons, hbody, Nat.add_assoc] at e₁ e₂ e₃
    rw [hn]
    simp only [struck, List.append_assoc, List.cons_append, List.flatMap_cons,
      List.length_cons, List.length_append, grow]
    rw [Event.replayFrom_placeholder, Nat.add_assoc (struck ls).length, e₁, Forest.Builder.add_add,
      List.map_cons, Forest.Builder.openAll_cons, Nat.add_comm 1, e₂, e₃]
    have hpos : l.body.length + ((struck ls).length + 1) + 1 =
        l.body.length + (2 + (struck ls).length) := by omega
    rw [hpos]

theorem plays_render {base : Nat} {ls : List Layer} (h : Playing base ls) :
    Event.Plays base (render base ls) (ls.flatMap taken) (grow .nil ls) := by
  cases ls with
  | nil => exact Event.Plays.nil
  | cons l ls =>
    obtain ⟨es', hlen, hplay⟩ := replay_struck h
    refine ⟨es', by rw [hlen, length_render], fun pre post rest b n hpre => ?_⟩
    subst hpre
    have e := hplay pre post rest b .nil n rfl
    rw [Forest.Builder.add_nil] at e
    rw [length_render, ← e]
    -- both sides take one step: the first opens the whole chain, the second finds it open
    have hfollow := follow_first l pre fun pre => follow_render ls pre post
    have hn : (struck (l :: ls)).length + n = (l.body.length + (struck ls).length + n + 1) + 1 := by
      simp only [struck, List.length_cons, List.length_append]; omega
    have hstep := Event.replayFrom_placeholder pre (l.body ++ .finish :: struck ls ++ post)
      ((l :: ls).flatMap taken ++ rest) (Forest.Builder.openAll ((l :: ls).map kind) b)
      (l.body.length + (struck ls).length + n + 1)
    have hstruck : pre ++ .placeholder :: (l.body ++ .finish :: struck ls ++ post) =
        pre ++ struck (l :: ls) ++ post := by
      simp [struck]
    rw [hstruck] at hstep
    rw [hn, hstep, Event.replayFrom, Event.replayAt, getElem?_render]
    simp only [hfollow]
    rfl

end Layer

end Expr

end TokenEditor
