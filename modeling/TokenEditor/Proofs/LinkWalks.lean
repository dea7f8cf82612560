import Mathlib.Logic.Relation
import TokenEditor.Proofs.Replay

/-! # Walks along links

Replaying seen from the tree under construction: the steps that a list of events issues to it,
whatever its links are. `Walks` is the way along the links from a beginning and `Turn` what happens
at one position; neither has a rule for a link that leads out of the list.

Each step of a walk strikes out a beginning, so that it comes to an end on a circle of links too
(`LinksInRange.exists_walks`). When the turn comes to a position, the events struck out are those
that the links of an earlier beginning lead to (`Turn.struckOut`). -/

namespace TokenEditor

namespace Forest.Builder
variable {ν τ : Type}

theorem leaves_release (b : Builder ν τ) :
    b.release.leaves = b.done.leaves ++ b.pending.reverse.flatMap fun p => p.2.leaves := by
  have hfold : ∀ (outer : List (ν × Forest ν τ)) (inner : Forest ν τ),
      (outer.foldl (fun inner p => p.2 ++ inner) inner).leaves =
        outer.reverse.flatMap (fun p => p.2.leaves) ++ inner.leaves := by
    intro outer
    induction outer with
    | nil => intro inner; rfl
    | cons p outer ih => intro inner; simp [ih]
  rw [release, leaves_append, hfold]
  simp [Forest.leaves]

theorem leaves_release_add (b : Builder ν τ) (f : Forest ν τ) :
    (b.add f).release.leaves = b.release.leaves ++ f.leaves := by
  obtain ⟨done, pending⟩ := b
  cases pending <;> simp [leaves_release, add]

theorem leaves_release_closeNode (b : Builder ν τ) :
    b.closeNode.release.leaves = b.release.leaves := by
  obtain ⟨done, pending⟩ := b
  cases pending with
  | nil => rfl
  | cons p outer =>
    rw [closeNode, leaves_release_add]
    simp [leaves_release, Forest.leaves]

end Forest.Builder

namespace Expr.Event

/-- Where the link of a beginning leads. -/
def link? : Event → Option Nat
  | start _ link => link
  | _ => none

/-- Every link leads to an event of the list. -/
def LinksInRange (events : List Event) : Prop :=
  ∀ e ∈ events, ∀ q ∈ e.link?, q < events.length

instance (events : List Event) : Decidable (LinksInRange events) :=
  inferInstanceAs (Decidable (∀ e ∈ events, ∀ q ∈ e.link?, q < events.length))

/-- The event at `p` is a beginning with a link to `q`. -/
def Linked (events : List Event) (p q : Nat) : Prop :=
  events[p]?.bind link? = some q

/-- Links lead from `p` to `q`, over any number of beginnings. -/
def Reaches (events : List Event) : Nat → Nat → Prop :=
  Relation.ReflTransGen (Linked events)

/-- Links lead to `q` from before it, so that it is struck out when its turn comes. -/
def Skipped (events : List Event) (q : Nat) : Prop :=
  ∃ p < q, Reaches events p q

/-- A step of building the tree, with the position of the event that calls for it. -/
inductive BuildStep where
  | enter (pos : Nat) (kind : Kind)
  | take (pos : Nat) (lexeme : Lexeme)
  | close (pos : Nat)
deriving DecidableEq, Repr

namespace BuildStep

def entered? : BuildStep → Option (Nat × Kind)
  | enter pos kind => some (pos, kind)
  | _ => none

def taken? : BuildStep → Option (Nat × Lexeme)
  | take pos lexeme => some (pos, lexeme)
  | _ => none

/-- The effect of a step on the tree under construction. -/
def build (b : Forest.Builder Kind Lexeme) : BuildStep → Forest.Builder Kind Lexeme
  | enter _ kind => b.openNode kind
  | take _ lexeme => b.leaf lexeme
  | close _ => b.closeNode

/-- The step that enters the node of a beginning. -/
def ofBeginning (x : Nat × Kind) : BuildStep :=
  enter x.1 x.2

@[simp] theorem filterMap_entered?_ofBeginning (xs : List (Nat × Kind)) :
    (xs.map ofBeginning).filterMap entered? = xs := by
  induction xs with
  | nil => rfl
  | cons x xs ih => simpa [List.filterMap_cons, ofBeginning, entered?] using ih

@[simp] theorem filterMap_taken?_ofBeginning (xs : List (Nat × Kind)) :
    (xs.map ofBeginning).filterMap taken? = [] := by
  induction xs with
  | nil => rfl
  | cons x xs ih => rw [List.map_cons, List.filterMap_cons_none rfl, ih]

theorem foldl_build_ofBeginning (xs : List (Nat × Kind)) (b : Forest.Builder Kind Lexeme) :
    (xs.map ofBeginning).foldl build b = (xs.map Prod.snd).foldl .openNode b := by
  rw [List.foldl_map, List.foldl_map]
  rfl

theorem leaves_release_foldl (steps : List BuildStep) (b : Forest.Builder Kind Lexeme) :
    (steps.foldl build b).release.leaves =
      b.release.leaves ++ (steps.filterMap taken?).map Prod.snd := by
  induction steps generalizing b with
  | nil => simp
  | cons s steps ih =>
    rw [List.foldl_cons, ih]
    cases s with
    | enter pos kind =>
      simp [build, taken?, List.filterMap_cons, Forest.Builder.leaves_release,
        Forest.Builder.openNode, Forest.leaves]
    | take pos lexeme =>
      simp [build, taken?, Forest.Builder.leaf, Forest.Builder.leaves_release_add, Forest.leaves]
    | close pos =>
      simp [build, taken?, List.filterMap_cons, Forest.Builder.leaves_release_closeNode]

end BuildStep

/-- From `link` on, the links lead over the beginnings `path`, up to an event that is none or is
struck out. All events met are struck out, which leaves `es'`. -/
inductive Walks : List Event → Option Nat → List (Nat × Kind) → List Event → Prop where
  | none (es : List Event) : Walks es none [] es
  | stop {es : List Event} {i : Nat} {e : Event} (he : es[i]? = some e) (hk : e.kind? = .none) :
    Walks es (some i) [] (es.set i placeholder)
  | on {es es' : List Event} {i : Nat} {kind : Kind} {next : Option Nat} {path : List (Nat × Kind)}
    (he : es[i]? = some (start kind next)) (h : Walks (es.set i placeholder) next path es') :
    Walks es (some i) ((i, kind) :: path) es'

/-- The turn of position `i` issues steps; what is left are the events `es'` and the lexemes
`ls'`. -/
inductive Turn (i : Nat) (es : List Event) (ls : List Lexeme) :
    List BuildStep → List Event → List Lexeme → Prop where
  | start {es' : List Event} {kind : Kind} {link : Option Nat} {path : List (Nat × Kind)}
    (he : es[i]? = some (start kind link)) (h : Walks (es.set i placeholder) link path es') :
    Turn i es ls (((i, kind) :: path).reverse.map .ofBeginning) es' ls
  | token {kind : Kind} (he : es[i]? = some (token kind)) :
    Turn i es ls [.take i ⟨kind, (nextText ls).1⟩] es (nextText ls).2
  | finish (he : es[i]? = some finish) : Turn i es ls [.close i] es ls
  | placeholder (he : es[i]? = some placeholder) : Turn i es ls [] es ls

/-- Replaying the events from position `i` to the end issues the steps. -/
inductive Issues : Nat → List Event → List Lexeme → List BuildStep → Prop where
  | done {i : Nat} {es : List Event} {ls : List Lexeme} (h : es.length ≤ i) : Issues i es ls []
  | turn {i : Nat} {es es' : List Event} {ls ls' : List Lexeme} {steps rest : List BuildStep}
    (ht : Turn i es ls steps es' ls') (h : Issues (i + 1) es' ls' rest) :
    Issues i es ls (steps ++ rest)

section Replaying
variable {es es' : List Event} {ls ls' : List Lexeme} {link : Option Nat} {path : List (Nat × Kind)}
  {i : Nat} {steps : List BuildStep}

theorem Walks.follow_eq (h : Walks es link path es') :
    follow es link = (path.map Prod.snd, es') := by
  induction h with
  | none es => rw [follow]; rfl
  | stop he hk =>
    rw [follow]
    split
    case h_1 kind next h =>
      rw [he] at h
      cases h
      cases hk
    case h_2 => rfl
  | on he _ ih =>
    rw [follow]
    split
    case h_1 kind next h =>
      rw [he] at h
      cases h
      rw [ih]
      rfl
    case h_2 h => exact absurd he (h _ _)

theorem Walks.length_eq (h : Walks es link path es') : es'.length = es.length := by
  induction h with
  | none es => rfl
  | stop => exact List.length_set
  | on _ _ ih => rw [ih, List.length_set]

theorem Turn.length_eq (h : Turn i es ls steps es' ls') : es'.length = es.length := by
  cases h with
  | start _ h => rw [h.length_eq, List.length_set]
  | token => rfl
  | finish => rfl
  | placeholder => rfl

theorem Turn.lt_length (h : Turn i es ls steps es' ls') : i < es.length := by
  cases h <;> exact (List.getElem?_eq_some_iff.1 ‹_›).1

theorem Turn.replayAt_eq (h : Turn i es ls steps es' ls') (b : Forest.Builder Kind Lexeme) :
    replayAt i es ls b = (es', ls', steps.foldl BuildStep.build b) := by
  cases h with
  | start he h =>
    rw [BuildStep.foldl_build_ofBeginning, List.map_reverse, List.map_cons]
    simp only [replayAt, he, h.follow_eq]
  | token he => simp [replayAt, he, BuildStep.build]
  | finish he => simp [replayAt, he, BuildStep.build]
  | placeholder he => simp [replayAt, he]

theorem Issues.replayFrom_eq (h : Issues i es ls steps) (n : Nat) (hn : es.length = i + n)
    (b : Forest.Builder Kind Lexeme) :
    replayFrom i n es ls b = steps.foldl BuildStep.build b := by
  induction h generalizing n b with
  | done h =>
    obtain rfl : n = 0 := by omega
    rfl
  | turn ht _ ih =>
    have hlt := ht.lt_length
    obtain ⟨m, rfl⟩ : ∃ m, n = m + 1 := ⟨n - 1, by omega⟩
    rw [replayFrom, ht.replayAt_eq b, List.foldl_append]
    exact ih m (by rw [ht.length_eq, hn]; omega) _

end Replaying

/-! ### Coming to an end -/

section Ending
variable {es es' : List Event} {ls ls' : List Lexeme} {link : Option Nat} {path : List (Nat × Kind)}
  {i : Nat} {steps : List BuildStep}

theorem LinksInRange.set_placeholder (h : LinksInRange es) (j : Nat) :
    LinksInRange (es.set j placeholder) := by
  intro e he q hq
  rw [List.length_set]
  rcases List.mem_or_eq_of_mem_set he with he | rfl
  · exact h e he q hq
  · cases hq

theorem LinksInRange.of_start (h : LinksInRange es) {kind : Kind}
    (he : es[i]? = some (start kind link)) : ∀ q ∈ link, q < es.length :=
  h _ (List.mem_of_getElem? he)

theorem Walks.linksInRange (hw : Walks es link path es') (h : LinksInRange es) :
    LinksInRange es' := by
  induction hw with
  | none es => exact h
  | stop => exact h.set_placeholder _
  | on _ _ ih => exact ih (h.set_placeholder _)

theorem Turn.linksInRange (ht : Turn i es ls steps es' ls') (h : LinksInRange es) :
    LinksInRange es' := by
  cases ht with
  | start _ hw => exact hw.linksInRange (h.set_placeholder _)
  | token => exact h
  | finish => exact h
  | placeholder => exact h

/-- A walk comes to an end: each of its steps leaves one beginning less to meet. -/
theorem LinksInRange.exists_walks (h : LinksInRange es) (hlink : ∀ q ∈ link, q < es.length) :
    ∃ path es', Walks es link path es' := by
  induction es, link using follow.induct with
  | case1 es => exact ⟨_, _, .none es⟩
  | case2 es i kind next he _ _ _ ih =>
    obtain ⟨path, es', hw⟩ := ih (h.set_placeholder i) (by
      rw [List.length_set]; exact h.of_start he)
    exact ⟨_, _, .on he hw⟩
  | case3 es i hno =>
    obtain ⟨e, he⟩ : ∃ e, es[i]? = some e := ⟨_, List.getElem?_eq_getElem (hlink i rfl)⟩
    refine ⟨_, _, .stop he ?_⟩
    cases e with
    | start kind next => exact absurd he (hno kind next)
    | token kind => rfl
    | finish => rfl
    | placeholder => rfl

theorem LinksInRange.exists_turn (h : LinksInRange es) (ls : List Lexeme) (hi : i < es.length) :
    ∃ steps es' ls', Turn i es ls steps es' ls' := by
  obtain ⟨e, he⟩ : ∃ e, es[i]? = some e := ⟨_, List.getElem?_eq_getElem hi⟩
  cases e with
  | start kind link =>
    obtain ⟨path, es', hw⟩ := (h.set_placeholder i).exists_walks (by
      rw [List.length_set]; exact h.of_start he)
    exact ⟨_, _, _, .start he hw⟩
  | token kind => exact ⟨_, _, _, .token he⟩
  | finish => exact ⟨_, _, _, .finish he⟩
  | placeholder => exact ⟨_, _, _, .placeholder he⟩

theorem LinksInRange.exists_issues (h : LinksInRange es) (ls : List Lexeme) (i n : Nat)
    (hn : es.length ≤ i + n) : ∃ steps, Issues i es ls steps := by
  induction n generalizing i es ls with
  | zero => exact ⟨[], .done hn⟩
  | succ n ih =>
    rcases Nat.lt_or_ge i es.length with hi | hi
    · obtain ⟨steps, es', ls', ht⟩ := h.exists_turn ls hi
      obtain ⟨rest, hrest⟩ := ih (ht.linksInRange h) ls' (i + 1) (by rw [ht.length_eq]; omega)
      exact ⟨_, .turn ht hrest⟩
    · exact ⟨[], .done hi⟩

end Ending

/-- The events of `events` at which `gone` holds are struck out in `es`, and the others are not. -/
structure StruckOut (events : List Event) (gone : Nat → Prop) (es : List Event) : Prop where
  length : es.length = events.length
  eq_placeholder : ∀ p e, gone p → es[p]? = some e → e = placeholder
  eq_self : ∀ p, ¬ gone p → es[p]? = events[p]?

/-- A beginning before position `i` reaches `q`. -/
def Dealt (events : List Event) (i q : Nat) : Prop :=
  ∃ p < i, (events[p]?.bind kind?).isSome ∧ Reaches events p q

section Striking
variable {events es es' : List Event} {ls ls' : List Lexeme} {link : Option Nat}
  {path : List (Nat × Kind)} {steps : List BuildStep} {gone : Nat → Prop} {i p q : Nat}

theorem linked_iff : Linked events p q ↔ ∃ kind, events[p]? = some (start kind (some q)) := by
  unfold Linked
  cases h : events[p]? with
  | none => simp
  | some e => cases e <;> simp [link?]

theorem Linked.begins (h : Linked events p q) : (events[p]?.bind kind?).isSome := by
  obtain ⟨kind, he⟩ := linked_iff.1 h
  simp [he, kind?]

theorem reaches_iff_head (p q : Nat) :
    Reaches events p q ↔ q = p ∨ ∃ r, Linked events p r ∧ Reaches events r q := by
  rw [Reaches, Relation.ReflTransGen.cases_head_iff, eq_comm]

theorem not_dealt_zero : ¬ Dealt events 0 q :=
  fun ⟨p, hp, _⟩ => Nat.not_lt_zero p hp

theorem Dealt.trans (h : Dealt events i p) (hpq : Reaches events p q) : Dealt events i q := by
  obtain ⟨r, hr, hbegins, hrp⟩ := h
  exact ⟨r, hr, hbegins, hrp.trans hpq⟩

theorem dealt_succ_iff : Dealt events (i + 1) q ↔
    Dealt events i q ∨ (events[i]?.bind kind?).isSome ∧ Reaches events i q := by
  constructor
  · rintro ⟨p, hp, hbegins, hpq⟩
    rcases Nat.lt_succ_iff_lt_or_eq.1 hp with hp | rfl
    · exact .inl ⟨p, hp, hbegins, hpq⟩
    · exact .inr ⟨hbegins, hpq⟩
  · rintro (⟨p, hp, hbegins, hpq⟩ | ⟨hbegins, hpq⟩)
    · exact ⟨p, by omega, hbegins, hpq⟩
    · exact ⟨i, by omega, hbegins, hpq⟩

/-- Only a beginning leads elsewhere. -/
theorem skipped_iff_dealt : Skipped events q ↔ Dealt events q q := by
  constructor
  · rintro ⟨p, hp, hpq⟩
    rcases (reaches_iff_head p q).1 hpq with rfl | ⟨r, hpr, -⟩
    · omega
    · exact ⟨p, hp, hpr.begins, hpq⟩
  · rintro ⟨p, hp, -, hpq⟩
    exact ⟨p, hp, hpq⟩

namespace StruckOut

theorem nothing (events : List Event) : StruckOut events (Dealt events 0) events :=
  ⟨rfl, fun _ _ hp => absurd hp not_dealt_zero, fun _ _ => rfl⟩

theorem congr {gone' : Nat → Prop} (h : StruckOut events gone es)
    (hiff : ∀ p, gone p ↔ gone' p) : StruckOut events gone' es :=
  ⟨h.length, fun p e hp => h.eq_placeholder p e ((hiff p).2 hp),
    fun p hp => h.eq_self p fun hg => hp ((hiff p).1 hg)⟩

theorem set (h : StruckOut events gone es) (j : Nat) :
    StruckOut events (fun p => gone p ∨ p = j) (es.set j placeholder) where
  length := by rw [List.length_set, h.length]
  eq_placeholder p e hp he := by
    by_cases hpj : p = j
    · subst hpj
      have hlt := (List.getElem?_eq_some_iff.1 he).1
      rw [List.getElem?_set_self (by rwa [List.length_set] at hlt)] at he
      exact (Option.some.inj he).symm
    · rw [List.getElem?_set_ne (Ne.symm hpj)] at he
      exact h.eq_placeholder p e (hp.resolve_right hpj) he
  eq_self p hp := by
    rw [List.getElem?_set_ne fun hjp => hp (.inr hjp.symm)]
    exact h.eq_self p fun hg => hp (.inl hg)

theorem of_ne_placeholder (h : StruckOut events gone es) {e : Event} (he : es[p]? = some e)
    (hne : e ≠ placeholder) : ¬ gone p ∧ events[p]? = some e := by
  have hp : ¬ gone p := fun hp => hne (h.eq_placeholder p e hp he)
  exact ⟨hp, h.eq_self p hp ▸ he⟩

theorem gone_of_ne (h : StruckOut events gone es) (hne : es[p]? ≠ events[p]?) : gone p :=
  Classical.byContradiction fun hp => hne (h.eq_self p hp)

theorem bind_kind?_of_gone (h : StruckOut events gone es) (hp : gone p) :
    es[p]?.bind kind? = none := by
  cases he : es[p]? with
  | none => rfl
  | some e => rw [h.eq_placeholder p e hp he]; rfl

end StruckOut

/-- A walk that stops at `i` has no more than `i` to strike out: all that lies further on has been
struck out before, by an earlier walk or by this one on its way round a circle. -/
theorem StruckOut.of_reaches_stop (h : StruckOut events gone es)
    (hclosed : ∀ p q, gone p → Linked events p q → gone q ∨ i = q) {e : Event}
    (he : es[i]? = some e) (hk : e.kind? = none) (hq : Reaches events i q) : gone q ∨ q = i := by
  by_cases hi : gone i
  · left
    induction hq with
    | refl => exact hi
    | tail _ hlink ih =>
      rcases hclosed _ _ ih hlink with hgone | rfl
      · exact hgone
      · exact hi
  · right
    rcases (reaches_iff_head i q).1 hq with hqi | ⟨r, hlink, -⟩
    · exact hqi
    · have hbegins := hlink.begins
      rw [← h.eq_self i hi, he, Option.bind_some, hk] at hbegins
      cases hbegins

/-- A walk strikes out what its link reaches. On the way the targets of the links of what is struck
out are so as well, except for the one that it is about to come to. -/
theorem Walks.struckOut (hw : Walks es link path es') (h : StruckOut events gone es)
    (hclosed : ∀ p q, gone p → Linked events p q → gone q ∨ link = some q) :
    StruckOut events (fun q => gone q ∨ ∃ j ∈ link, Reaches events j q) es' := by
  induction hw generalizing gone with
  | none es => exact h.congr fun p => by simp
  | @stop es i e he hk =>
    refine (h.set i).congr fun q => ⟨?_, ?_⟩
    · rintro (hq | rfl)
      · exact .inl hq
      · exact .inr ⟨q, rfl, .refl⟩
    · rintro (hq | ⟨j, hj, hreach⟩)
      · exact .inl hq
      · obtain rfl : i = j := Option.some.inj hj
        exact h.of_reaches_stop (fun p q hp hpq => (hclosed p q hp hpq).imp_right Option.some.inj)
          he hk hreach
  | @on es es' i kind next path he _ ih =>
    have hevent := (h.of_ne_placeholder he nofun).2
    have hlinked : ∀ q, Linked events i q ↔ next = some q := fun q => by simp [Linked, hevent, link?]
    refine (ih (h.set i) ?_).congr fun q => ?_
    · rintro p q (hp | rfl) hpq
      · rcases hclosed p q hp hpq with hq | hq
        · exact .inl (.inl hq)
        · exact .inl (.inr (Option.some.inj hq).symm)
      · exact .inr ((hlinked q).1 hpq)
    · simp only [or_assoc, Option.mem_def, Option.some.injEq, exists_eq_left', ← hlinked]
      rw [reaches_iff_head i q]

/-- A position whose turn changes no event has nothing more to strike out. -/
theorem StruckOut.pass (h : StruckOut events (Dealt events i) es) {e : Event}
    (he : es[i]? = some e) (hk : e.kind? = none) : StruckOut events (Dealt events (i + 1)) es := by
  refine h.congr fun q => ⟨fun hq => dealt_succ_iff.2 (.inl hq), fun hq => ?_⟩
  rcases dealt_succ_iff.1 hq with hq | ⟨hbegins, hreach⟩
  · exact hq
  · refine Dealt.trans (h.gone_of_ne fun heq => ?_) hreach
    rw [← heq, he, Option.bind_some, hk] at hbegins
    cases hbegins

theorem Turn.struckOut (ht : Turn i es ls steps es' ls')
    (h : StruckOut events (Dealt events i) es) : StruckOut events (Dealt events (i + 1)) es' := by
  cases ht with
  | start he hw =>
    have hbegins : (events[i]?.bind kind?).isSome := by
      rw [(h.of_ne_placeholder he nofun).2]
      rfl
    refine ((Walks.on he hw).struckOut h fun p q hp hpq => .inl (hp.trans (.single hpq))).congr
      fun q => ?_
    simp [dealt_succ_iff, hbegins]
  | token he => exact h.pass he rfl
  | finish he => exact h.pass he rfl
  | placeholder he => exact h.pass he rfl

end Striking

end Expr.Event

end TokenEditor
