import Mathlib.Data.List.Infix
import Mathlib.Data.List.Nodup
import TokenEditor.Proofs.LinkWalks

/-! # Openings

Which nodes a list of events opens, and in which order, whatever its links are. A turn moves
beginnings from those left to those entered, so that a run enters each of them once
(`Issues.entered_perm`). A beginning is entered before those linked to it, unless links lead back
(`Issues.target_first`): a walk meets it later, or an earlier walk has met it. The events that take
lexemes do so in order, less those that a walk has struck out. -/

namespace TokenEditor.Expr.Event

open scoped List

/-- The kinds that `f` finds in the events, with the positions of these; the first event stands at
`base`. -/
def placed (f : Event → Option Kind) : Nat → List Event → List (Nat × Kind)
  | _, [] => []
  | base, e :: es => (f e).toList.map (Prod.mk base) ++ placed f (base + 1) es

section Entering
variable {events es es' : List Event} {ls ls' : List Lexeme} {link : Option Nat}
  {path : List (Nat × Kind)} {steps : List BuildStep} {f : Event → Option Kind} {i : Nat}
  {x y : Nat × Kind}

theorem mem_placed_iff (base : Nat) :
    x ∈ placed f base es ↔ base ≤ x.1 ∧ es[x.1 - base]?.bind f = some x.2 := by
  obtain ⟨p, kind⟩ := x
  induction es generalizing base with
  | nil => simp [placed]
  | cons e es ih =>
    rw [placed, List.mem_append, ih]
    rcases Nat.lt_trichotomy p base with hp | rfl | hp
    · simp [hp.ne', Nat.not_le.2 hp, Nat.not_le.2 (Nat.lt_succ_of_lt hp)]
    · have hp : ¬ p + 1 ≤ p := Nat.not_succ_le_self p
      simp [hp]
    · have hsub : p - base = p - (base + 1) + 1 := by omega
      simp [hsub, hp.ne, hp.le, Nat.succ_le_of_lt hp]

theorem mem_placed : x ∈ placed f 0 es ↔ es[x.1]?.bind f = some x.2 := by
  simp [mem_placed_iff]

theorem nodup_placed (f : Event → Option Kind) (base : Nat) (es : List Event) :
    (placed f base es).Nodup := by
  induction es generalizing base with
  | nil => exact .nil
  | cons e es ih =>
    rw [placed]
    refine List.Nodup.append ?_ (ih (base + 1)) fun x hx hx' => ?_
    · cases f e <;> simp
    · obtain ⟨kind, -, rfl⟩ := List.mem_map.1 hx
      exact absurd ((mem_placed_iff _).1 hx').1 (Nat.not_succ_le_self base)

/-- Striking out an event takes away what was placed there. -/
theorem placed_perm_set (hf : f placeholder = none) {j : Nat} {e : Event} (he : es[j]? = some e)
    (base : Nat) : (placed f base es).Perm
      ((f e).toList.map (Prod.mk (base + j)) ++ placed f base (es.set j placeholder)) := by
  induction es generalizing base j with
  | nil => cases he
  | cons e' es ih =>
    cases j with
    | zero =>
      obtain rfl : e' = e := by simpa using he
      simp [placed, hf]
    | succ j =>
      have hpos : base + 1 + j = base + (j + 1) := by omega
      have ih := ih (j := j) he (base + 1)
      rw [hpos] at ih
      rw [List.set_cons_succ, placed, placed]
      exact (ih.append_left _).trans (List.perm_append_comm_assoc _ _ _)

theorem Walks.placed_perm (hw : Walks es link path es') :
    (placed kind? 0 es).Perm (path ++ placed kind? 0 es') := by
  induction hw with
  | none es => exact .refl _
  | stop he hk => simpa [hk] using placed_perm_set (f := kind?) rfl he 0
  | on he _ ih =>
    have hset := placed_perm_set (f := kind?) rfl he 0
    simpa [kind?] using hset.trans (ih.append_left _)

theorem Turn.placed_perm (ht : Turn i es ls steps es' ls') :
    (placed kind? 0 es).Perm (steps.filterMap BuildStep.entered? ++ placed kind? 0 es') := by
  cases ht with
  | start he hw =>
    rw [BuildStep.filterMap_entered?_ofBeginning]
    exact (Walks.on he hw).placed_perm.trans ((List.reverse_perm _).symm.append_right _)
  | token => exact .refl _
  | finish => exact .refl _
  | placeholder => exact .refl _

theorem Issues.entered_perm (hi : Issues i es ls steps)
    (h : StruckOut events (Dealt events i) es) :
    (steps.filterMap BuildStep.entered?).Perm (placed kind? 0 es) := by
  induction hi with
  | @done i es ls hlen =>
    -- all positions have had their turn, so no beginning is left
    have hnone : placed kind? 0 es = [] := List.eq_nil_iff_forall_not_mem.2 fun x hx => by
      have hx := mem_placed.1 hx
      have hlt : x.1 < i := by
        by_contra hge
        rw [List.getElem?_eq_none (by omega)] at hx
        cases hx
      by_cases hgone : Dealt events i x.1
      · rw [h.bind_kind?_of_gone hgone] at hx
        cases hx
      · rw [h.eq_self _ hgone] at hx
        exact hgone ⟨x.1, hlt, by rw [hx]; rfl, .refl⟩
    rw [hnone]
    exact .refl _
  | turn ht _ ih =>
    rw [List.filterMap_append]
    exact ((ih (ht.struckOut h)).append_left _).trans ht.placed_perm.symm

theorem Turn.mem_entered (ht : Turn i es ls steps es' ls')
    (h : StruckOut events (Dealt events i) es) (hx : x ∈ placed kind? 0 events)
    (hbefore : ¬ Dealt events i x.1) (hafter : Dealt events (i + 1) x.1) :
    x ∈ steps.filterMap BuildStep.entered? := by
  have hmem : x ∈ placed kind? 0 es := by
    rw [mem_placed, h.eq_self _ hbefore]
    exact mem_placed.1 hx
  rcases List.mem_append.1 (ht.placed_perm.mem_iff.1 hmem) with hx | hx
  · exact hx
  · rw [mem_placed, (ht.struckOut h).bind_kind?_of_gone hafter] at hx
    cases hx

end Entering

/-- Two orders within a list without repetition join. -/
theorem sublist_cons_of_pair {α : Type} {a b : α} {xs l : List α} (hl : l.Nodup)
    (hab : [a, b] <+ l) (hbs : b :: xs <+ l) : a :: b :: xs <+ l := by
  induction l with
  | nil => cases hab
  | cons c l ih =>
    obtain ⟨hc, hl⟩ := List.nodup_cons.1 hl
    have hb : b ∈ l := by
      cases hab with
      | cons _ h => exact h.subset (by simp)
      | cons_cons _ h => exact h.subset (by simp)
    have hrest : b :: xs <+ l := by
      cases hbs with
      | cons _ h => exact h
      | cons_cons _ h => exact absurd hb hc
    cases hab with
    | cons _ h => exact .cons _ (ih hl h hrest)
    | cons_cons _ h => exact .cons_cons _ hrest

theorem pair_sublist_or {α : Type} {a b : α} {l : List α} (ha : a ∈ l) (hb : b ∈ l) (hne : a ≠ b) :
    [a, b] <+ l ∨ [b, a] <+ l := by
  induction l with
  | nil => cases ha
  | cons c l ih =>
    rcases List.mem_cons.1 ha with rfl | hal
    · have hbl := (List.mem_cons.1 hb).resolve_left (Ne.symm hne)
      exact .inl (.cons_cons _ (List.singleton_sublist.2 hbl))
    · rcases List.mem_cons.1 hb with rfl | hbl
      · exact .inr (.cons_cons _ (List.singleton_sublist.2 hal))
      · exact (ih hal hbl).imp (.cons c) (.cons c)

section Ordering
variable {events es es' : List Event} {ls ls' : List Lexeme} {link : Option Nat}
  {path : List (Nat × Kind)} {steps : List BuildStep} {gone : Nat → Prop} {i : Nat}
  {x y : Nat × Kind}

theorem Walks.reaches (hw : Walks es link path es') (h : StruckOut events gone es) :
    ∀ x ∈ path, ∃ j ∈ link, Reaches events j x.1 := by
  induction hw generalizing gone with
  | none es => simp
  | stop => simp
  | @on es es' i kind next path he _ ih =>
    have hevent := (h.of_ne_placeholder he nofun).2
    intro x hx
    rcases List.mem_cons.1 hx with rfl | hx
    · exact ⟨i, rfl, .refl⟩
    · obtain ⟨j, hj, hreach⟩ := ih (h.set i) x hx
      have hlinked : Linked events i j := by simpa [Linked, hevent, link?] using hj
      exact ⟨i, rfl, .head hlinked hreach⟩

theorem Walks.pairwise_reaches (hw : Walks es link path es') (h : StruckOut events gone es) :
    path.Pairwise fun x y => Reaches events x.1 y.1 := by
  induction hw generalizing gone with
  | none es => exact .nil
  | stop => exact .nil
  | on he hw ih =>
    refine List.pairwise_cons.2 ⟨fun x hx => ?_, ih (h.set _)⟩
    obtain ⟨j, hj, hreach⟩ := (Walks.on he hw).reaches h x (List.mem_cons_of_mem _ hx)
    exact Option.some.inj hj ▸ hreach

/-- The beginning that a link leads to is entered before the one that has the link, unless links
lead back. -/
theorem Turn.target_first (ht : Turn i es ls steps es' ls')
    (h : StruckOut events (Dealt events i) es) (hx : x ∈ steps.filterMap BuildStep.entered?)
    (hy : y ∈ placed kind? 0 events) (hxy : Linked events x.1 y.1)
    (hback : ¬ Reaches events y.1 x.1) (hdealt : ¬ Dealt events i y.1) :
    [y, x] <+ steps.filterMap BuildStep.entered? := by
  have hentered := ht.mem_entered h hy hdealt
  cases ht with
  | @start _ kind link path he hw =>
    have hevent := (h.of_ne_placeholder he nofun).2
    have hw := Walks.on he hw
    simp only [BuildStep.filterMap_entered?_ofBeginning, List.mem_reverse] at hx hentered ⊢
    obtain ⟨j, hj, hreach⟩ := hw.reaches h x hx
    obtain rfl : i = j := Option.some.inj hj
    have hy : y ∈ (i, kind) :: path := hentered
      (dealt_succ_iff.2 (.inr ⟨by rw [hevent]; rfl, hreach.tail hxy⟩))
    have hne : x ≠ y := fun heq => hback (heq ▸ .refl)
    rcases pair_sublist_or hx hy hne with hsub | hsub
    · exact hsub.reverse
    · exact absurd (List.pairwise_iff_forall_sublist.1 (hw.pairwise_reaches h) hsub) hback
  | token => cases hx
  | finish => cases hx
  | placeholder => cases hx

theorem Issues.target_first (hi : Issues i es ls steps)
    (h : StruckOut events (Dealt events i) es) (hx : x ∈ steps.filterMap BuildStep.entered?)
    (hy : y ∈ placed kind? 0 events) (hxy : Linked events x.1 y.1)
    (hback : ¬ Reaches events y.1 x.1) (hdealt : ¬ Dealt events i y.1) :
    [y, x] <+ steps.filterMap BuildStep.entered? := by
  induction hi with
  | done => cases hx
  | @turn i es es' ls ls' steps rest ht _ ih =>
    rw [List.filterMap_append] at hx ⊢
    rcases List.mem_append.1 hx with hx | hx
    · exact (ht.target_first h hx hy hxy hback hdealt).trans (List.sublist_append_left _ _)
    · by_cases hafter : Dealt events (i + 1) y.1
      · -- this turn enters `y`, a later one `x`
        exact (List.singleton_sublist.2 (ht.mem_entered h hy hdealt hafter)).append
          (List.singleton_sublist.2 hx)
      · exact (ih (ht.struckOut h) hx hafter).trans (List.sublist_append_right _ _)

end Ordering

/-! ### Chains of forward links -/

/-- Beginnings at the listed positions, each linked to the next one, which comes later. Where the
link of the last one leads is left open. -/
def ForwardChain (events : List Event) : List (Nat × Kind) → Prop
  | [] => True
  | [x] => ∃ link, events[x.1]? = some (start x.2 link)
  | x :: y :: rest =>
    events[x.1]? = some (start x.2 (some y.1)) ∧ x.1 < y.1 ∧ ForwardChain events (y :: rest)

/-- Links lead from `p` back to it; not all of them can lead forward. -/
def Circles (events : List Event) (p : Nat) : Prop :=
  Relation.TransGen (Linked events) p p

section Chains
variable {events es es' : List Event} {ls : List Lexeme} {path chain : List (Nat × Kind)}
  {steps : List BuildStep} {gone : Nat → Prop} {i p : Nat} {x y : Nat × Kind}

namespace ForwardChain

theorem tail (h : ForwardChain events (x :: chain)) : ForwardChain events chain := by
  cases chain with
  | nil => trivial
  | cons y rest => exact h.2.2

theorem first (h : ForwardChain events (x :: chain)) :
    ∃ link, events[x.1]? = some (start x.2 link) := by
  cases chain with
  | nil => exact h
  | cons y rest => exact ⟨some y.1, h.1⟩

theorem mem_placed (h : ForwardChain events chain) : ∀ x ∈ chain, x ∈ placed kind? 0 events := by
  induction chain with
  | nil => nofun
  | cons y rest ih =>
    intro x hx
    rcases List.mem_cons.1 hx with rfl | hx
    · obtain ⟨link, he⟩ := h.first
      rw [Event.mem_placed, he]
      rfl
    · exact ih h.tail x hx

theorem lt_of_mem (h : ForwardChain events (x :: chain)) : ∀ y ∈ chain, x.1 < y.1 := by
  induction chain generalizing x with
  | nil => nofun
  | cons z rest ih =>
    intro y hy
    rcases List.mem_cons.1 hy with rfl | hy
    · exact h.2.1
    · exact Nat.lt_trans h.2.1 (ih h.2.2 y hy)

theorem of_struckOut (h : ForwardChain events chain) (hs : StruckOut events gone es)
    (hkept : ∀ x ∈ chain, ¬ gone x.1) : ForwardChain es chain := by
  induction chain with
  | nil => trivial
  | cons x rest ih =>
    have hx := hs.eq_self x.1 (hkept x List.mem_cons_self)
    cases rest with
    | nil =>
      obtain ⟨link, he⟩ := h
      exact ⟨link, hx.trans he⟩
    | cons y rest =>
      exact ⟨hx.trans h.1, h.2.1, ih h.2.2 fun z hz => hkept z (List.mem_cons_of_mem _ hz)⟩

/-- A walk that comes to the first event of a chain goes along the whole chain. -/
theorem walks_along (h : ForwardChain es (x :: chain)) (hw : Walks es (some x.1) path es') :
    ∃ further, path = x :: chain ++ further := by
  induction chain generalizing es x path with
  | nil =>
    obtain ⟨link, he⟩ := h
    cases hw with
    | stop he' hk => rw [he] at he'; cases he'; cases hk
    | on he' hw =>
      rw [he] at he'
      cases he'
      exact ⟨_, rfl⟩
  | cons y rest ih =>
    cases hw with
    | stop he' hk => rw [h.1] at he'; cases he'; cases hk
    | on he' hw =>
      rw [h.1] at he'
      cases he'
      have hkept : ∀ z ∈ y :: rest, ¬ (Dealt es 0 z.1 ∨ z.1 = x.1) := by
        rintro z hz (hdealt | heq)
        · exact not_dealt_zero hdealt
        · exact absurd heq (h.lt_of_mem z hz).ne'
      obtain ⟨further, rfl⟩ := ih (h.tail.of_struckOut ((StruckOut.nothing es).set x.1) hkept) hw
      exact ⟨further, rfl⟩

/-- In any run the nodes of a chain that is on no circle are entered from its last to its first. -/
theorem reverse_sublist_entered (h : ForwardChain events chain)
    (hcircle : ∀ x ∈ chain, ¬ Circles events x.1) (hi : Issues 0 events ls steps) :
    chain.reverse <+ steps.filterMap BuildStep.entered? := by
  have hs := StruckOut.nothing events
  have hperm := hi.entered_perm hs
  have hnodup : (steps.filterMap BuildStep.entered?).reverse.Nodup :=
    List.nodup_reverse.2 (hperm.nodup_iff.2 (nodup_placed kind? 0 events))
  rw [← List.reverse_sublist, List.reverse_reverse]
  induction chain with
  | nil => exact List.nil_sublist _
  | cons x rest ih =>
    have hx : x ∈ steps.filterMap BuildStep.entered? :=
      hperm.mem_iff.2 (h.mem_placed x List.mem_cons_self)
    cases rest with
    | nil => simpa using hx
    | cons y rest =>
      have hxy : Linked events x.1 y.1 := linked_iff.2 ⟨x.2, h.1⟩
      have hback : ¬ Reaches events y.1 x.1 := fun hyx =>
        hcircle x List.mem_cons_self (.head' hxy hyx)
      refine sublist_cons_of_pair hnodup ?_
        (ih h.tail fun z hz => hcircle z (List.mem_cons_of_mem _ hz))
      exact (hi.target_first hs hx (h.mem_placed y (by simp)) hxy hback not_dealt_zero).reverse

end ForwardChain

theorem Issues.exists_turn (hi : Issues i es ls steps) (h : StruckOut events (Dealt events i) es)
    (hip : i ≤ p) (hp : p < events.length) :
    ∃ es₁ ls₁ es₂ ls₂ issued, StruckOut events (Dealt events p) es₁ ∧
      Turn p es₁ ls₁ issued es₂ ls₂ ∧ issued <:+: steps := by
  induction hi with
  | done hlen =>
    rw [h.length] at hlen
    omega
  | @turn i es es' ls ls' steps rest ht _ ih =>
    rcases Nat.eq_or_lt_of_le hip with rfl | hlt
    · exact ⟨es, ls, es', ls', steps, h, ht, (List.prefix_append _ _).isInfix⟩
    · obtain ⟨es₁, ls₁, es₂, ls₂, issued, hs, hturn, hpart⟩ := ih (ht.struckOut h) hlt
      exact ⟨es₁, ls₁, es₂, ls₂, issued, hs, hturn, hpart.trans (List.suffix_append _ _).isInfix⟩

/-- A chain into which only its own links lead is entered in one go. -/
theorem ForwardChain.entered_together (h : ForwardChain events chain)
    (halone : ∀ p q, Linked events p q → q ∈ chain.map Prod.fst → p ∈ chain.map Prod.fst)
    (hi : Issues 0 events ls steps) : chain.reverse.map .ofBeginning <:+: steps := by
  cases chain with
  | nil => exact ⟨[], steps, rfl⟩
  | cons x rest =>
    obtain ⟨link, he⟩ := h.first
    obtain ⟨es₁, ls₁, es₂, ls₂, issued, hs, ht, hpart⟩ := hi.exists_turn (.nothing events)
      (Nat.zero_le x.1) (List.getElem?_eq_some_iff.1 he).1
    have hinto : ∀ p q, Reaches events p q → q ∈ (x :: rest).map Prod.fst →
        p ∈ (x :: rest).map Prod.fst := by
      intro p q hpq hq
      induction hpq using Relation.ReflTransGen.head_induction_on with
      | refl => exact hq
      | head hlink _ ih => exact halone _ _ hlink ih
    have hkept : ∀ y ∈ x :: rest, ¬ Dealt events x.1 y.1 := by
      rintro y hy ⟨p, hp, -, hpy⟩
      obtain ⟨z, hz, rfl⟩ := List.mem_map.1 (hinto p y.1 hpy (List.mem_map_of_mem hy))
      rcases List.mem_cons.1 hz with rfl | hz
      · exact absurd hp (Nat.lt_irrefl _)
      · exact absurd hp (h.lt_of_mem z hz).asymm
    have hchain := h.of_struckOut hs hkept
    obtain ⟨link', he'⟩ := hchain.first
    cases ht with
    | start hstart hw =>
      obtain ⟨further, hpath⟩ := hchain.walks_along (.on hstart hw)
      rw [hpath, List.reverse_append, List.map_append] at hpart
      exact (List.suffix_append _ _).isInfix.trans hpart
    | token htoken => rw [he'] at htoken; cases htoken
    | finish hfinish => rw [he'] at hfinish; cases hfinish
    | placeholder hgone => rw [he'] at hgone; cases hgone

end Chains

/-- The kind of the lexeme that is taken. -/
def tokenKind? : Event → Option Kind
  | token kind => some kind
  | _ => none

/-- The text of the lexeme with number `i`, empty past the end. -/
def lexemeText (lexemes : List Lexeme) (i : Nat) : Text :=
  (lexemes[i]?.map Lexeme.text).getD []

/-- `kept` are those of `xs`, in their order, whose events are not skipped. -/
structure Unskipped (events : List Event) (xs kept : List (Nat × Kind)) : Prop where
  sublist : kept <+ xs
  mem_iff : ∀ x ∈ xs, (x ∈ kept ↔ ¬ Skipped events x.1)

/-- The first of `xs` takes the text of the first lexeme, and so on. -/
def withTexts (lexemes : List Lexeme) (xs : List (Nat × Kind)) : List (Nat × Lexeme) :=
  xs.mapIdx fun i x => (x.1, ⟨x.2, lexemeText lexemes i⟩)

section Taking
variable {events es es' : List Event} {ls ls' : List Lexeme} {steps : List BuildStep} {i : Nat}
  {xs ys kept kept' : List (Nat × Kind)}

theorem nextText_eq (ls : List Lexeme) : nextText ls = (lexemeText ls 0, ls.drop 1) := by
  cases ls <;> rfl

theorem withTexts_append (ls : List Lexeme) (xs ys : List (Nat × Kind)) :
    withTexts ls (xs ++ ys) = withTexts ls xs ++ withTexts (ls.drop xs.length) ys := by
  simp [withTexts, lexemeText, List.mapIdx_append, Nat.add_comm]

theorem Unskipped.append (h : Unskipped events xs kept) (h' : Unskipped events ys kept') :
    Unskipped events (xs ++ ys) (kept ++ kept') where
  sublist := h.sublist.append h'.sublist
  mem_iff x hx := by
    have hkept : x ∈ kept → ¬ Skipped events x.1 := fun hx =>
      (h.mem_iff x (h.sublist.subset hx)).1 hx
    have hkept' : x ∈ kept' → ¬ Skipped events x.1 := fun hx =>
      (h'.mem_iff x (h'.sublist.subset hx)).1 hx
    refine List.mem_append.trans ⟨fun hmem => hmem.elim hkept hkept', fun hskip => ?_⟩
    rcases List.mem_append.1 hx with hx | hx
    · exact .inl ((h.mem_iff x hx).2 hskip)
    · exact .inr ((h'.mem_iff x hx).2 hskip)

theorem StruckOut.unskipped_nil (h : StruckOut events (Dealt events i) es) {e e' : Event}
    (he : es[i]? = some e) (hk : e.tokenKind? = none) (he' : events[i]? = some e') :
    Unskipped events (e'.tokenKind?.toList.map (Prod.mk i)) [] where
  sublist := List.nil_sublist _
  mem_iff x hx := by
    obtain ⟨kind, hkind, rfl⟩ := List.mem_map.1 hx
    have hskip : Skipped events i := skipped_iff_dealt.2 <| h.gone_of_ne fun heq => by
      rw [he, he'] at heq
      cases heq
      rw [hk] at hkind
      cases hkind
    simpa using hskip

theorem Turn.taken (ht : Turn i es ls steps es' ls') (h : StruckOut events (Dealt events i) es)
    {e : Event} (he : events[i]? = some e) :
    ∃ kept, Unskipped events (e.tokenKind?.toList.map (Prod.mk i)) kept ∧
      steps.filterMap BuildStep.taken? = withTexts ls kept ∧ ls' = ls.drop kept.length := by
  cases ht with
  | start hi => exact ⟨[], h.unskipped_nil hi rfl he, BuildStep.filterMap_taken?_ofBeginning _, rfl⟩
  | @token kind hi =>
    obtain ⟨hdealt, hevent⟩ := h.of_ne_placeholder hi nofun
    obtain rfl : e = Event.token kind := Option.some.inj (he.symm.trans hevent)
    refine ⟨[(i, kind)], ⟨.refl _, fun x hx => ?_⟩, ?_, ?_⟩
    · obtain rfl : x = (i, kind) := by simpa [tokenKind?] using hx
      simpa [skipped_iff_dealt] using hdealt
    · rw [nextText_eq]; rfl
    · rw [nextText_eq]; rfl
  | finish hi => exact ⟨[], h.unskipped_nil hi rfl he, rfl, rfl⟩
  | placeholder hi => exact ⟨[], h.unskipped_nil hi rfl he, rfl, rfl⟩

theorem Issues.taken (hi : Issues i es ls steps) (h : StruckOut events (Dealt events i) es) :
    ∃ kept, Unskipped events (placed tokenKind? i (events.drop i)) kept ∧
      steps.filterMap BuildStep.taken? = withTexts ls kept := by
  induction hi with
  | done hlen =>
    rw [h.length] at hlen
    rw [List.drop_of_length_le hlen]
    exact ⟨[], ⟨.refl _, nofun⟩, rfl⟩
  | @turn i es es' ls ls' steps rest ht _ ih =>
    have hlt : i < events.length := h.length ▸ ht.lt_length
    obtain ⟨kept, hkept, htaken, rfl⟩ := ht.taken h (List.getElem?_eq_getElem hlt)
    obtain ⟨kept', hkept', htaken'⟩ := ih (ht.struckOut h)
    refine ⟨kept ++ kept', ?_, ?_⟩
    · rw [List.drop_eq_getElem_cons hlt]
      exact hkept.append hkept'
    · rw [List.filterMap_append, htaken, htaken', withTexts_append]

end Taking

/-! ### Replaying any events -/

/-- Whatever their links, as long as these lead to events of the list, replaying events comes to an
end and takes the steps it issues. It enters every beginning once, with its kind; a chain of forward
links outermost first, and without a step in between where no other link leads into the chain. The
events that take lexemes and are not skipped take them in order, with no text where there is no
lexeme left. -/
theorem enters_each_beginning_once (events : List Event) (lexemes : List Lexeme)
    (hrange : LinksInRange events) :
    (∃ steps, Issues 0 events lexemes steps) ∧
    ∀ steps, Issues 0 events lexemes steps →
      (∀ b, replayFrom 0 events.length events lexemes b = steps.foldl BuildStep.build b) ∧
      (replay events lexemes).leaves = (steps.filterMap BuildStep.taken?).map Prod.snd ∧
      (steps.filterMap BuildStep.entered?).Perm (placed kind? 0 events) ∧
      (∀ chain, ForwardChain events chain →
        ((∀ x ∈ chain, ¬ Circles events x.1) →
          chain.reverse <+ steps.filterMap BuildStep.entered?) ∧
        ((∀ p q, Linked events p q → q ∈ chain.map Prod.fst → p ∈ chain.map Prod.fst) →
          chain.reverse.map BuildStep.ofBeginning <:+: steps)) ∧
      ∃ kept, Unskipped events (placed tokenKind? 0 events) kept ∧
        steps.filterMap BuildStep.taken? = withTexts lexemes kept := by
  refine ⟨hrange.exists_issues lexemes 0 events.length (by omega), fun steps hi => ?_⟩
  have hbuild := hi.replayFrom_eq events.length (Nat.zero_add _).symm
  refine ⟨hbuild, ?_, hi.entered_perm (.nothing events), fun chain hchain => ?_,
    hi.taken (.nothing events)⟩
  · rw [replay, hbuild, BuildStep.leaves_release_foldl]
    rfl
  · exact ⟨fun hcircle => hchain.reverse_sublist_entered hcircle hi,
      fun halone => hchain.entered_together halone hi⟩

/-- A beginning linked to itself, a chain of three with a last link to an event that takes a lexeme,
and two beginnings linked to each other. -/
def tangle : List Event :=
  [.start .root (some 0),
    .start .nameRef (some 4), .token .ident, .finish,
    .start .postfixExpr (some 7), .token .bang, .finish,
    .start .binExpr (some 9), .token .plus, .token .int,
    .start .literal (some 11), .start .error (some 10), .token .int, .finish, .finish,
    .token .eof, .finish, .finish]

/-- One lexeme less than `tangle` takes. -/
def tangleRow : List Lexeme :=
  [⟨.ident, ['x']⟩, ⟨.bang, ['!']⟩, ⟨.plus, ['+']⟩, ⟨.int, ['1']⟩]

def tangleChain : List (Nat × Kind) :=
  [(1, .nameRef), (4, .postfixExpr), (7, .binExpr)]

def tangleSteps : List BuildStep :=
  [.enter 0 .root, .enter 7 .binExpr, .enter 4 .postfixExpr, .enter 1 .nameRef,
    .take 2 ⟨.ident, ['x']⟩, .close 3, .take 5 ⟨.bang, ['!']⟩, .close 6, .take 8 ⟨.plus, ['+']⟩,
    .enter 11 .error, .enter 10 .literal, .take 12 ⟨.int, ['1']⟩, .close 13, .close 14,
    .take 15 ⟨.eof, []⟩, .close 16, .close 17]

theorem issues_tangle : Issues 0 tangle tangleRow tangleSteps :=
  have h : Issues 0 tangle tangleRow _ :=
    .turn (.start rfl (.stop rfl rfl)) <|
    .turn (.start rfl (.on rfl (.on rfl (.stop rfl rfl)))) <|
    .turn (.token rfl) <| .turn (.finish rfl) <| .turn (.placeholder rfl) <|
    .turn (.token rfl) <| .turn (.finish rfl) <| .turn (.placeholder rfl) <|
    .turn (.token rfl) <| .turn (.placeholder rfl) <|
    .turn (.start rfl (.on rfl (.stop rfl rfl))) <|
    .turn (.placeholder rfl) <| .turn (.token rfl) <| .turn (.finish rfl) <|
    .turn (.finish rfl) <| .turn (.token rfl) <| .turn (.finish rfl) <| .turn (.finish rfl) <|
    .done (Nat.le_refl 18)
  h

/-- The links from the events of the chain lead forward to its end. -/
theorem not_circles_tangle {p : Nat} (hp : p ∈ [1, 4, 7, 9]) : ¬ Circles tangle p := by
  have hstep : ∀ q ∈ [1, 4, 7, 9], ∀ r ∈ tangle[q]?.bind link?, q < r ∧ r ∈ [1, 4, 7, 9] := by
    decide
  have hforward : ∀ q, Relation.TransGen (Linked tangle) p q → p < q ∧ q ∈ [1, 4, 7, 9] := by
    intro q hq
    induction hq with
    | single hlink => exact hstep p hp _ hlink
    | tail _ hlink ih =>
      obtain ⟨hlt, hmem⟩ := hstep _ ih.2 _ hlink
      exact ⟨Nat.lt_trans ih.1 hlt, hmem⟩
  exact fun hcircle => Nat.lt_irrefl p (hforward p hcircle).1

theorem tangleChain_alone {p q : Nat} (h : Linked tangle p q)
    (hq : q ∈ tangleChain.map Prod.fst) : p ∈ tangleChain.map Prod.fst := by
  have hall : ∀ p < 18, ∀ q ∈ tangle[p]?.bind link?,
      q ∈ tangleChain.map Prod.fst → p ∈ tangleChain.map Prod.fst := by decide
  obtain ⟨kind, he⟩ := linked_iff.1 h
  exact hall p (List.getElem?_eq_some_iff.1 he).1 q h hq

theorem enters_each_beginning_once_tangle :
    LinksInRange tangle ∧ Issues 0 tangle tangleRow tangleSteps ∧
    replay tangle tangleRow =
      .node .root
        (.node .binExpr
          (.node .postfixExpr
            (.node .nameRef (.leaf ⟨.ident, ['x']⟩ .nil) (.leaf ⟨.bang, ['!']⟩ .nil))
            (.leaf ⟨.plus, ['+']⟩
              (.node .error (.node .literal (.leaf ⟨.int, ['1']⟩ .nil) .nil)
                (.leaf ⟨.eof, []⟩ .nil)))) .nil) .nil ∧
    (tangleSteps.filterMap BuildStep.entered?).Perm (placed kind? 0 tangle) ∧
    ForwardChain tangle tangleChain ∧
    tangleChain.reverse <+ tangleSteps.filterMap BuildStep.entered? ∧
    tangleChain.reverse.map BuildStep.ofBeginning <:+: tangleSteps ∧
    Skipped tangle 9 ∧
    ∃ kept, Unskipped tangle (placed tokenKind? 0 tangle) kept ∧
      tangleSteps.filterMap BuildStep.taken? = withTexts tangleRow kept := by
  have hrange : LinksInRange tangle := by decide
  obtain ⟨hbuild, -, hperm, hchains, hkept⟩ :=
    (enters_each_beginning_once tangle tangleRow hrange).2 tangleSteps issues_tangle
  have hchain : ForwardChain tangle tangleChain :=
    ⟨rfl, by decide, rfl, by decide, some 9, rfl⟩
  obtain ⟨horder, htogether⟩ := hchains tangleChain hchain
  refine ⟨hrange, issues_tangle, ?_, hperm, hchain, horder fun x hx => ?_,
    htogether fun p q => tangleChain_alone, ⟨7, by decide, .single rfl⟩, hkept⟩
  · rw [replay]
    exact congrArg Forest.Builder.release (hbuild .empty)
  · have hall : ∀ x ∈ tangleChain, x.1 ∈ [1, 4, 7, 9] := by decide
    exact not_circles_tangle (hall x hx)

/-- A beginning whose link leads to an event that takes a lexeme. -/
def stray : List Event :=
  [.start .root (some 2), .token .ident, .token .plus, .token .int, .finish]

def strayRow : List Lexeme :=
  [⟨.ident, ['a']⟩, ⟨.plus, ['+']⟩, ⟨.int, ['1']⟩]

theorem issues_stray :
    Issues 0 stray strayRow
      [.enter 0 .root, .take 1 ⟨.ident, ['a']⟩, .take 3 ⟨.int, ['+']⟩, .close 4] :=
  have h : Issues 0 stray strayRow _ :=
    .turn (.start rfl (.stop rfl rfl)) <| .turn (.token rfl) <| .turn (.placeholder rfl) <|
    .turn (.token rfl) <| .turn (.finish rfl) <| .done (Nat.le_refl 5)
  h

/-- Two beginnings linked to each other, which a third one enters at the second. -/
def ring : List Event :=
  [.start .root (some 2), .start .nameRef (some 2), .start .error (some 1), .finish, .finish,
    .finish]

theorem issues_ring :
    Issues 0 ring []
      [.enter 1 .nameRef, .enter 2 .error, .enter 0 .root, .close 3, .close 4, .close 5] :=
  have h : Issues 0 ring [] _ :=
    .turn (.start rfl (.on rfl (.on rfl (.stop rfl rfl)))) <| .turn (.placeholder rfl) <|
    .turn (.placeholder rfl) <| .turn (.finish rfl) <| .turn (.finish rfl) <|
    .turn (.finish rfl) <| .done (Nat.le_refl 6)
  h

/-- An event that takes a lexeme is lost to a link that leads to it, and the lexemes after it go to
other events than in a list without links. On a circle of links the inner one of two beginnings may
be entered first. -/
theorem stray_links_shift_lexemes :
    (LinksInRange stray ∧
      replay stray strayRow =
        .node .root (.leaf ⟨.ident, ['a']⟩ (.leaf ⟨.int, ['+']⟩ .nil)) .nil ∧
      ¬ ∀ events lexemes steps, LinksInRange events → Issues 0 events lexemes steps →
        steps.filterMap BuildStep.taken? = withTexts lexemes (placed tokenKind? 0 events)) ∧
    LinksInRange ring ∧
      ¬ ∀ events lexemes steps chain, LinksInRange events → Issues 0 events lexemes steps →
        ForwardChain events chain → chain.reverse <+ steps.filterMap BuildStep.entered? := by
  have hstray : LinksInRange stray := by decide
  have hring : LinksInRange ring := by decide
  have hbuild := issues_stray.replayFrom_eq 5 rfl
  refine ⟨⟨hstray, ?_, fun hall => ?_⟩, hring, fun hall => ?_⟩
  · rw [replay]
    exact congrArg Forest.Builder.release (hbuild .empty)
  · exact absurd (hall _ _ _ hstray issues_stray) (by decide)
  · have hchain : ForwardChain ring [(1, .nameRef), (2, .error)] := ⟨rfl, by decide, some 1, rfl⟩
    exact absurd (hall _ _ _ _ hring issues_ring hchain) (by decide)

end TokenEditor.Expr.Event
