import TokenEditor.Proofs.Inverse
import TokenEditor.Proofs.Runs

/-! # Row, value and print agree

`regions_stay_synced`: whatever operations are called on a region, in whatever order, its row, its
value and its print agree after every call, and a call fails only for an index outside the row. This
holds for every language that gives back what it read: `Faithful`, for a class of tokens. A call
either reads the row again or, inside a synchronisation or a restore, puts a print in the place of
the row; `Settled` is what both need, `Agrees` what both bring about. -/

namespace TokenEditor
variable {V : Type} [Payload V]

/-- A class of tokens that does not tell apart tokens that are the same. -/
structure TokenClass (V : Type) [Payload V] where
  Mem : Cells → Token V → Prop
  keeps : ∀ {before after : Cells} {t : Token V}, before.Keeps after → before.Has t.cellsOf →
    Mem before t → Mem after t
  same : ∀ {cells : Cells} {t u : Token V}, t.same cells u → Mem cells t → Mem cells u

/-- A row of tokens of the class over cells of the store. -/
structure TokenClass.Row (K : TokenClass V) (cells : Cells) (ts : List (Token V)) : Prop where
  has : cells.Has (rowCells ts)
  mem : ∀ t ∈ ts, K.Mem cells t

namespace Language

/-- What is read from tokens of the class prints as that many tokens of the class, which read as the
same. -/
def Faithful (l : Language V) (K : TokenClass V) : Prop :=
  ∀ {cells : Cells} {ts : List (Token V)} {v : V}, ts ≠ [] → K.Row cells ts →
    l.parse cells ts = some v →
      (l.printed cells v).tokens.length = ts.length ∧
      (∀ t ∈ (l.printed cells v).tokens, K.Mem cells t) ∧
      ∃ w, l.parse cells (l.printed cells v).tokens = some w ∧ Payload.same cells w v

/-- The value prints as some tokens of the class, which read as the same. -/
structure Reprints (l : Language V) (K : TokenClass V) (cells : Cells) (v : V) : Prop where
  has : cells.Has (Payload.cellsOf v)
  nonempty : (l.printed cells v).tokens ≠ []
  mem : ∀ t ∈ (l.printed cells v).tokens, K.Mem cells t
  reads : ∃ w, l.parse cells (l.printed cells v).tokens = some w ∧ Payload.same cells w v

end Language

section
variable {K : TokenClass V} {l : Language V} {before after cells : Cells} {ts us : List (Token V)} {v : V}

namespace TokenClass.Row

theorem nil : K.Row cells [] := ⟨Cells.has_nil, by simp⟩

theorem append_iff : K.Row cells (ts ++ us) ↔ K.Row cells ts ∧ K.Row cells us := by
  constructor
  · rintro ⟨hhas, hmem⟩
    rw [rowCells_append, Cells.has_append] at hhas
    exact ⟨⟨hhas.1, fun t ht => hmem t (List.mem_append_left _ ht)⟩,
      ⟨hhas.2, fun t ht => hmem t (List.mem_append_right _ ht)⟩⟩
  · rintro ⟨hts, hus⟩
    refine ⟨by rw [rowCells_append, Cells.has_append]; exact ⟨hts.has, hus.has⟩, fun t ht => ?_⟩
    rcases List.mem_append.1 ht with ht | ht
    · exact hts.mem t ht
    · exact hus.mem t ht

theorem append (hts : K.Row cells ts) (hus : K.Row cells us) : K.Row cells (ts ++ us) :=
  append_iff.2 ⟨hts, hus⟩

theorem take (h : K.Row cells ts) (n : Nat) : K.Row cells (ts.take n) := by
  rw [← List.take_append_drop n ts, append_iff] at h
  exact h.1

theorem drop (h : K.Row cells ts) (n : Nat) : K.Row cells (ts.drop n) := by
  rw [← List.take_append_drop n ts, append_iff] at h
  exact h.2

theorem keeps (h : K.Row before ts) (hk : before.Keeps after) : K.Row after ts :=
  ⟨hk.has h.has, fun t ht => K.keeps hk (has_rowCells.1 h.has t ht) (h.mem t ht)⟩

theorem of_mem {ws : List (Token V)} (hts : K.Row cells ts) (hus : K.Row cells us)
    (h : ∀ t ∈ ws, t ∈ ts ∨ t ∈ us) : K.Row cells ws := by
  refine ⟨has_rowCells.2 fun t ht => ?_, fun t ht => ?_⟩
  · rcases h t ht with ht | ht
    · exact has_rowCells.1 hts.has t ht
    · exact has_rowCells.1 hus.has t ht
  · rcases h t ht with ht | ht
    · exact hts.mem t ht
    · exact hus.mem t ht

theorem of_sameRow (h : K.Row cells ts) (hs : SameRow cells ts us)
    (hus : cells.Has (rowCells us)) : K.Row cells us := by
  refine ⟨hus, fun u hu => ?_⟩
  obtain ⟨i, hi, rfl⟩ := List.getElem_of_mem hu
  have hlen := hs.length_eq
  exact K.same (List.Forall₂.get hs (by omega) hi) (h.mem _ (List.getElem_mem (by omega)))

end TokenClass.Row

theorem Language.Structural.printed_keeps (hl : l.Structural) (hk : before.Keeps after)
    (hv : before.Has (Payload.cellsOf v)) : l.printed after v = l.printed before v := by
  rw [Language.printed, hl.print_keeps hk hv, Language.printed]

namespace Language.Reprints

theorem row (h : l.Reprints K cells v) (hl : l.Structural) :
    K.Row cells (l.printed cells v).tokens :=
  ⟨hl.print_has h.has, h.mem⟩

theorem keeps [LawfulPayload V] (h : l.Reprints K before v) (hl : l.Structural) (hk : before.Keeps after) :
    l.Reprints K after v := by
  have hprint := hl.printed_keeps hk h.has
  have hrow := h.row hl
  obtain ⟨w, hw, hs⟩ := h.reads
  refine ⟨hk.has h.has, ?_, ?_, w, ?_, ?_⟩
  · rw [hprint]; exact h.nonempty
  · rw [hprint]; exact (hrow.keeps hk).mem
  · rw [hprint, hl.parse_keeps hk hrow.has, hw]
  · exact LawfulPayload.same_local.mono hk (hl.parse_has hrow.has hw) h.has hs

/-- What a faithful language has read prints as it should. -/
theorem of_parse (hl : l.Structural) (hf : l.Faithful K) (hne : ts ≠ []) (hrow : K.Row cells ts)
    (h : l.parse cells ts = some v) : l.Reprints K cells v := by
  obtain ⟨hlen, hmem, hreads⟩ := hf hne hrow h
  refine ⟨hl.parse_has hrow.has h, fun hnil => hne ?_, hmem, hreads⟩
  rwa [hnil, List.length_nil, eq_comm, List.length_eq_zero_iff] at hlen

end Language.Reprints

end

/-! ### Settled and agreeing regions -/

namespace Region

/-- All that an operation needs to know of a region, whether or not its value belongs to its row:
it reads and prints by itself, no watched cell has changed, and both row and value are fit for the
language. -/
structure Settled (l : Language V) (K : TokenClass V) (r : Region V) : Prop where
  language : r.language = l
  autoReparse : r.autoReparse = true
  autoReprint : r.autoReprint = true
  fresh : r.stale = false
  views : r.views.length = r.tokens.length
  row : K.Row r.cells r.tokens
  value : ∀ v, r.value = some v → l.Reprints K r.cells v

/-- Row, value and print of a region belong together. -/
structure Agrees (r : Region V) : Prop where
  valid_iff : r.valid = true ↔ r.tokens = [] ∨ (r.language.parse r.cells r.tokens).isSome
  empty : r.tokens = [] → r.value = none ∧ r.tree = none ∧ r.printed = some []
  readable : ∀ v, r.tokens ≠ [] → r.language.parse r.cells r.tokens = some v →
    ∃ w, r.value = some w ∧ Payload.same r.cells w v ∧
      r.tree = some (r.language.printed r.cells w).tree ∧
      r.printed = some (r.language.printed r.cells w).tokens ∧
      (r.language.printed r.cells w).tokens.length = r.tokens.length
  unreadable : r.tokens ≠ [] → r.language.parse r.cells r.tokens = none →
    r.tree = none ∧ r.printed = none

variable {l : Language V} {K : TokenClass V} {r r' : Region V} {v w : V}

namespace Agrees

theorem of_empty (ht : r.tokens = []) (hv : r.valid = true) (hvalue : r.value = none)
    (htree : r.tree = none) (hp : r.printed = some []) : r.Agrees :=
  ⟨by simp [hv, ht], fun _ => ⟨hvalue, htree, hp⟩, fun _ h => absurd ht h, fun h => absurd ht h⟩

theorem of_readable (ht : r.tokens ≠ []) (hparse : r.language.parse r.cells r.tokens = some v)
    (hv : r.valid = true) (hvalue : r.value = some w) (hs : Payload.same r.cells w v)
    (htree : r.tree = some (r.language.printed r.cells w).tree)
    (hp : r.printed = some (r.language.printed r.cells w).tokens)
    (hlen : (r.language.printed r.cells w).tokens.length = r.tokens.length) : r.Agrees := by
  refine ⟨by simp [hv, hparse], fun h => absurd h ht, fun v' _ hv' => ?_, fun _ h => ?_⟩
  · rw [hparse] at hv'
    cases hv'
    exact ⟨w, hvalue, hs, htree, hp, hlen⟩
  · rw [hparse] at h
    cases h

theorem of_unreadable (ht : r.tokens ≠ []) (hparse : r.language.parse r.cells r.tokens = none)
    (hv : r.valid = false) (htree : r.tree = none) (hp : r.printed = none) : r.Agrees := by
  refine ⟨by simp [hv, ht, hparse], fun h => absurd h ht, fun v _ h => ?_, fun _ _ => ⟨htree, hp⟩⟩
  rw [hparse] at h
  cases h

theorem setMarks (h : r.Agrees) {syncing restoring : Bool} :
    Agrees { r with syncing := syncing, restoring := restoring } :=
  ⟨h.valid_iff, h.empty, h.readable, h.unreadable⟩

end Agrees

namespace Settled

theorem spliced (h : r.Settled l K) {start stop : Nat} {new : List (Token V)}
    (hnew : K.Row r.cells new) : (r.spliced start stop new).Settled l K := by
  refine ⟨h.language, h.autoReparse, h.autoReprint, h.fresh, ?_, ?_, h.value⟩
  · simp [Region.spliced, h.views]
  · exact ((h.row.take start).append hnew).append (h.row.drop stop)

theorem of_reread (h : r.Settled l K) (hr : r.Reread r') (hfresh : r'.stale = false)
    (hvalue : ∀ v, r'.value = some v → l.Reprints K r'.cells v) : r'.Settled l K :=
  ⟨hr.language.trans h.language, hr.autoReparse.trans h.autoReparse,
    hr.autoReprint.trans h.autoReprint, hfresh, by rw [hr.views, hr.tokens]; exact h.views,
    by rw [hr.tokens]; exact h.row.keeps hr.cells, hvalue⟩

theorem setValue (h : r.Settled l K) {value : Option V}
    (hvalue : ∀ v, value = some v → l.Reprints K r.cells v) : Settled l K { r with value := value } :=
  ⟨h.language, h.autoReparse, h.autoReprint, h.fresh, h.views, h.row, hvalue⟩

theorem setMarks (h : r.Settled l K) {syncing restoring valid : Bool} : Settled l K { r with
    syncing := syncing, restoring := restoring, valid := valid } :=
  ⟨h.language, h.autoReparse, h.autoReprint, h.fresh, h.views, h.row, h.value⟩

variable [LawfulPayload V] (hl : l.Structural) (hf : l.Faithful K)
include hl

theorem keeps (h : r.Settled l K) {cells : Cells} {ss : List Subscription} (hk : r.cells.Keeps cells) :
    Settled l K { r with cells := cells, subscriptions := ss } :=
  ⟨h.language, h.autoReparse, h.autoReprint, h.fresh, h.views, h.row.keeps hk,
    fun v hv => (h.value v hv).keeps hl hk⟩

include hf

theorem wp_reparse (h : r.Settled l K) (hr : r.restoring = false) :
    wp reparse (fun _ r' => r.Reread r' ∧ r'.Settled l K ∧ r'.Agrees) (fun _ _ => False) r := by
  rw [Region.wp_reparse, if_neg (by simp [hr])]
  by_cases ht : r.tokens = []
  · rw [if_pos (by simp [ht])]
    exact ⟨reread_emptied r, h.of_reread (reread_emptied r) h.fresh (by rintro v ⟨⟩),
      .of_empty ht rfl rfl rfl rfl⟩
  rw [if_neg (by simpa using ht)]
  obtain ⟨hcopy, hsame⟩ := copied_spec h.row.has
  -- the copy is a row of the same class, and reads as the row does
  have hrow := h.row.keeps hcopy.keeps
  have hcopied : K.Row r.copied.2 r.copied.1 := hrow.of_sameRow hsame.symm hcopy.has
  have hne : r.copied.1 ≠ [] := by
    intro hnil
    rw [hnil] at hsame
    exact ht (List.forall₂_nil_left_iff.1 hsame)
  rw [h.language]
  cases hparse : l.parse r.copied.2 r.copied.1 with
  | none =>
    have hreread := reread_refused h.row.has
    refine ⟨hreread, h.of_reread hreread h.fresh fun v hv => (h.value v hv).keeps hl hcopy.keeps,
      .of_unreadable ht ?_ rfl rfl rfl⟩
    show r.language.parse r.copied.2 r.tokens = none
    rw [h.language, Option.eq_none_iff_forall_ne_some]
    intro v hv
    obtain ⟨w, hw, -⟩ := hl.parse_same hsame.symm hv
    rw [hparse] at hw
    cases hw
  | some v =>
    obtain ⟨hlen, -⟩ := hf hne hcopied hparse
    have hreprints := Language.Reprints.of_parse hl hf hne hcopied hparse
    obtain ⟨w, hw, hs⟩ := hl.parse_same hsame hparse
    have hkeeps := keeps_took r v
    have hreread := reread_took h.row.has v
    have hprinted := hl.printed_keeps hkeeps hreprints.has
    have hlang : (r.took v).language = l := hreread.language.trans h.language
    simp only
    rw [if_pos (hlen.trans hsame.length_eq)]
    refine ⟨hreread, h.of_reread hreread rfl ?_, .of_readable (v := w) (w := v) ?_ ?_ rfl rfl ?_ ?_ ?_ ?_⟩
    · rintro u ⟨⟩
      exact hreprints.keeps hl hkeeps
    · rwa [hreread.tokens]
    · rw [hlang, hreread.tokens, hl.parse_keeps hkeeps hrow.has, hw]
    · exact LawfulPayload.same_local.mono hkeeps hreprints.has (hl.parse_has hrow.has hw) hs
    · rw [hlang, hprinted, ← h.language]
      rfl
    · rw [hlang, hprinted, ← h.language]
      rfl
    · rw [hlang, hprinted, hreread.tokens]
      exact hlen.trans hsame.length_eq

omit hf

theorem reprint (h : r.Settled l K) : r.reprint.Settled l K := by
  have hreread := reread_reprint r
  refine h.of_reread hreread ?_ fun v hv =>
    (h.value v (value_reprint r ▸ hv)).keeps hl hreread.cells
  cases hv : r.value with
  | none => exact (reprint_none hv).2.2.trans h.fresh
  | some v => exact (reprint_some hv).2.2

/-- What is printed reads, and is in the store after the print. -/
theorem printed_reprint (h : r.Settled l K) : (r.value = none ∧ r.reprint.tree = none ∧
      r.reprint.printed = some []) ∨
    ∃ v, r.value = some v ∧ l.Reprints K r.reprint.cells v ∧
      r.reprint.tree = some (l.printed r.reprint.cells v).tree ∧
      r.reprint.printed = some (l.printed r.reprint.cells v).tokens := by
  cases hv : r.value with
  | none => exact .inl ⟨rfl, (reprint_none hv).1, (reprint_none hv).2.1⟩
  | some v =>
    have hkeeps := (reread_reprint r).cells
    have hreprints := h.value v hv
    obtain ⟨htree, hprinted, -⟩ := reprint_some hv
    rw [h.language, ← hl.printed_keeps hkeeps hreprints.has] at htree hprinted
    exact .inr ⟨v, rfl, hreprints.keeps hl hkeeps, htree, hprinted⟩

/-- Putting the print of the value in the place of the row makes the region agree. -/
theorem reprinted (h : r.Settled l K) : r.reprinted.Settled l K ∧ r.reprinted.Agrees := by
  have hset := h.reprint hl
  have htokens : r.reprinted.tokens = r.reprint.printed.getD [] := by
    simp [Region.reprinted, Region.spliced]
  rcases h.printed_reprint hl with ⟨hv, htree, hprinted⟩ | ⟨v, hv, hreprints, htree, hprinted⟩
  · refine ⟨(hset.spliced ?_).setMarks, .of_empty ?_ rfl ?_ htree hprinted⟩
    · rw [hprinted]; exact .nil
    · rw [htokens, hprinted]; rfl
    · exact (value_reprint r).trans hv
  · obtain ⟨w, hw, hs⟩ := hreprints.reads
    have hlang : r.reprinted.language = l := hset.language
    rw [hprinted] at htokens
    refine ⟨(hset.spliced ?_).setMarks, .of_readable (v := w) (w := v) ?_ ?_ rfl ?_ ?_ ?_ ?_ ?_⟩
    · rw [hprinted]; exact hreprints.row hl
    · rw [htokens]; exact hreprints.nonempty
    · rw [htokens, hlang]; exact hw
    · exact (value_reprint r).trans hv
    · exact LawfulPayload.same_symm hs
    · rw [hlang]; exact htree
    · rw [hlang]; exact hprinted
    · rw [hlang, htokens]; rfl

end Settled

/-- A region at rest, with row, value and print in agreement. -/
structure InSync (l : Language V) (K : TokenClass V) (r : Region V) : Prop where
  settled : r.Settled l K
  agrees : r.Agrees
  syncing : r.syncing = false
  restoring : r.restoring = false

/-- The operation ends in a region in sync, and fails only for an index outside the row. -/
def Safe {α : Type} (l : Language V) (K : TokenClass V) (f : RegionM V α) (r : Region V) : Prop :=
  wp f (fun _ r' => r'.InSync l K)
    (fun e r' => (∃ i n, e = .outOfBounds i n) ∧ r'.InSync l K) r

namespace InSync

theorem processChanges (h : r.InSync l K) : r.Safe l K processChanges := by
  simp only [Safe, Region.processChanges, wp_bind, wp_get, wp_ite]
  rw [if_neg (by simp [h.settled.fresh])]
  exact h

variable [LawfulPayload V] (hl : l.Structural) (hf : l.Faithful K)
include hl hf

theorem of_settled (h : r.Settled l K) (hs : r.syncing = false) (hr : r.restoring = false) :
    wp (sync reparse) (fun _ r' => r'.InSync l K ∧ r.Reread r') (fun _ _ => False) r := by
  have hunder : r.underSync.Settled l K := h.setMarks
  rw [wp_sync, if_neg (by simp [hs])]
  refine wp_mono (hunder.wp_reparse hl hf hr) (fun _ r' h' => ?_) (fun _ _ h => h)
  obtain ⟨hreread, hset, hagree⟩ := h'
  exact ⟨⟨hset.setMarks, hagree.setMarks, rfl, hreread.restoring.trans hr⟩, hreread.endSync hs⟩

theorem splice (h : r.InSync l K) {start stop : Nat} {new : List (Token V)}
    (hnew : K.Row r.cells new) : r.Safe l K (splice start stop new) := by
  rw [Safe, wp_splice, if_pos h.settled.autoReparse]
  split_ifs
  · exact ⟨⟨_, _, rfl⟩, h⟩
  · exact wp_mono (of_settled hl hf (h.settled.spliced hnew) h.syncing h.restoring)
      (fun _ _ h => h.1) (fun _ _ h => h.elim)

theorem remove (h : r.InSync l K) (index : Nat) : r.Safe l K (remove index) := by
  simp only [Safe, Region.remove, wp_bind, wp_pure, wp_tokenAt]
  split
  · exact h.splice hl hf .nil
  · exact ⟨⟨_, _, rfl⟩, h⟩

theorem replace (h : r.InSync l K) (index : Nat) {t : Token V} (ht : K.Row r.cells [t]) :
    r.Safe l K (replace index t) := by
  rw [Safe, wp_replace]
  split
  · exact h.splice hl hf ht
  · exact ⟨⟨_, _, rfl⟩, h⟩

theorem reprintToTokens (h : r.InSync l K) : r.Safe l K reprintToTokens := by
  have hset := h.settled.reprint hl
  have hreread := reread_reprint r
  have hrow : K.Row r.reprint.cells (r.reprint.printed.getD []) := by
    rcases h.settled.printed_reprint hl with ⟨-, -, hprinted⟩ | ⟨v, -, hreprints, -, hprinted⟩
    · rw [hprinted]; exact .nil
    · rw [hprinted]; exact hreprints.row hl
  simp only [Safe, Region.reprintToTokens, wp_bind, wp_modify, wp_get]
  rw [wp_splice, if_neg (by simp), if_pos hset.autoReparse]
  refine wp_mono (of_settled hl hf (hset.spliced hrow) (hreread.syncing.trans h.syncing)
    (hreread.restoring.trans h.restoring)) (fun _ r₂ hr₂ => ?_) (fun _ _ h => h.elim)
  obtain ⟨h₂, hreread₂⟩ := hr₂
  have hvalid : r₂.valid = true := by
    have hps : r₂.tokens = r.reprint.printed.getD [] := by
      rw [hreread₂.tokens]
      simp [spliced]
    rw [h₂.agrees.valid_iff, hps, h₂.settled.language]
    rcases h.settled.printed_reprint hl with ⟨-, -, hprinted⟩ | ⟨v, -, hreprints, -, hprinted⟩
    · exact .inl (by rw [hprinted]; rfl)
    · obtain ⟨w, hw, -⟩ := hreprints.reads
      refine .inr ?_
      rw [hl.parse_keeps hreread₂.cells hrow.has, hprinted]
      exact Option.isSome_iff_exists.2 ⟨w, hw⟩
  rw [← hvalid]
  exact h₂

omit hf in
/-- Under a synchronisation the print takes the place of the row and is not read. -/
theorem of_reprinted (h : r.Settled l K) (hs : r.syncing = false) (hr : r.restoring = false) :
    wp (sync Region.reprintToTokens) (fun _ r' => r'.InSync l K) (fun _ _ => False) r := by
  have hunder : r.underSync.Settled l K := h.setMarks
  rw [wp_sync, if_neg (by simp [hs]), wp_reprintToTokens_guarded (.inl rfl)]
  obtain ⟨hset, hagree⟩ := hunder.reprinted hl
  exact ⟨hset.setMarks, hagree.setMarks, rfl, (reread_reprint r.underSync).restoring.trans hr⟩

omit hf in
theorem setValue (h : r.InSync l K) {v : Option V}
    (hv : ∀ w, v = some w → l.Reprints K r.cells w) : r.Safe l K (setValue v) := by
  have hset : Settled l K { r with value := v } := h.settled.setValue hv
  simp only [Safe, Region.setValue, wp_bind, wp_modify, wp_get, wp_ite]
  rw [if_pos h.settled.autoReprint]
  exact wp_mono (of_reprinted hl hset h.syncing h.restoring) (fun _ _ h => h)
    (fun _ _ h => h.elim)

theorem restore (h : r.InSync l K) {saved : Option (List (Token V))}
    (hsaved : ∀ ts, saved = some ts → K.Row r.cells ts) : r.Safe l K (restore saved) := by
  have hon : (r.setRestoring true).Settled l K := h.settled.setMarks
  rw [Safe, wp_restore, if_neg (by simp [h.restoring])]
  cases saved with
  | some ts =>
    simp only [putBack, setTokens, wp_bind, wp_get, Option.isSome_some, if_true]
    rw [wp_splice_guarded (.inr rfl) (by simp [setRestoring])]
    exact wp_mono (of_settled hl hf (hon.spliced (hsaved ts rfl)).setMarks h.syncing rfl)
      (fun _ _ h => h.1) (fun _ _ h => h.elim)
  | none =>
    simp only [putBack, wp_bind, wp_get, Option.isSome_none, Bool.false_eq_true, if_false]
    cases hv : r.valid with
    | true =>
      have hvalid : (r.setRestoring true).valid = true := hv
      simp only [hvalid, if_true, wp_pure]
      exact ⟨hon.setMarks, h.agrees.setMarks, h.syncing, rfl⟩
    | false =>
      have hvalid : (r.setRestoring true).valid = false := hv
      simp only [hvalid, Bool.false_eq_true, if_false]
      rw [wp_reprintToTokens_guarded (.inr rfl)]
      obtain ⟨hset', hagree⟩ := hon.reprinted hl
      exact ⟨hset'.setMarks, hagree.setMarks,
        (reread_reprint (r.setRestoring true)).syncing.trans h.syncing, rfl⟩

omit hf in
theorem keeps {cells : Cells} {ss : List Subscription} (h : r.InSync l K)
    (hk : r.cells.Keeps cells) : InSync l K { r with cells := cells, subscriptions := ss } := by
  have hset := h.settled
  have hparse : r.language.parse cells r.tokens = r.language.parse r.cells r.tokens := by
    rw [hset.language]
    exact hl.parse_keeps hk hset.row.has
  refine ⟨hset.keeps hl hk, ⟨?_, h.agrees.empty, ?_, ?_⟩, h.syncing, h.restoring⟩
  · show r.valid = true ↔ r.tokens = [] ∨ (r.language.parse cells r.tokens).isSome
    rw [hparse]
    exact h.agrees.valid_iff
  · intro v hne hv
    obtain ⟨w, hw, hs, htree, hprinted, hlen⟩ := h.agrees.readable v hne (hparse ▸ hv)
    have hhas := (hset.value w hw).has
    have hsame := LawfulPayload.same_local.mono hk hhas
      (hl.parse_has hset.row.has (hset.language ▸ hparse ▸ hv)) hs
    have hprint : r.language.printed cells w = r.language.printed r.cells w := by
      rw [hset.language]
      exact hl.printed_keeps hk hhas
    rw [← hprint] at htree hprinted hlen
    exact ⟨w, hw, hsame, htree, hprinted, hlen⟩
  · intro hne hv
    exact h.agrees.unreadable hne (hparse ▸ hv)

omit hl hf in
omit [LawfulPayload V] in
/-- In a region in sync the print has as many tokens as the row, if there is one. -/
theorem length_printed (h : r.InSync l K) {ps : List (Token V)} (hp : r.printed = some ps) :
    (r.tokens = [] ∧ ps = []) ∨ ∃ v w, r.tokens ≠ [] ∧ r.valid = true ∧ r.value = some w ∧
      l.parse r.cells r.tokens = some v ∧ r.tree = some (l.printed r.cells w).tree ∧
      ps = (l.printed r.cells w).tokens ∧ ps.length = r.tokens.length := by
  by_cases ht : r.tokens = []
  · have := (h.agrees.empty ht).2.2
    rw [hp] at this
    exact .inl ⟨ht, by simpa using this⟩
  cases hv : r.language.parse r.cells r.tokens with
  | none =>
    rw [(h.agrees.unreadable ht hv).2] at hp
    cases hp
  | some v =>
    obtain ⟨w, hw, -, htree, hprinted, hlen⟩ := h.agrees.readable v ht hv
    have hvalid := h.agrees.valid_iff.2 (.inr (Option.isSome_iff_exists.2 ⟨v, hv⟩))
    rw [hp] at hprinted
    cases hprinted
    rw [h.settled.language] at hv htree hlen ⊢
    exact .inr ⟨v, w, ht, hvalid, hw, hv, htree, rfl, hlen⟩

omit hf in
theorem updateToPrinted (h : r.InSync l K) : r.Safe l K updateToPrinted := by
  simp only [Safe, Region.updateToPrinted, wp_bind, wp_get]
  cases hp : r.printed with
  | none => exact h
  | some ps =>
    have hset := h.settled
    have hlen : ps.length = r.tokens.length := by
      rcases h.length_printed hp with ⟨ht, rfl⟩ | ⟨v, w, -, -, -, -, -, -, hlen⟩
      · rw [ht]
      · exact hlen
    have hrow : K.Row r.cells ps := by
      rcases h.length_printed hp with ⟨-, rfl⟩ | ⟨v, w, -, -, hw, -, -, rfl, -⟩
      · exact .nil
      · exact (hset.value w hw).row hl
    simp only [hlen, if_true, wp_sync, h.syncing, Bool.false_eq_true, if_false]
    refine wp_mono (wp_alignFrom r.underSync [] r.tokens ps rfl rfl hlen.symm hset.views)
      (fun _ r' h' => ?_) (fun _ _ h => h)
    obtain ⟨hrel, hviews, todo, htodo, hsame, hmem⟩ := h'
    rw [List.nil_append] at htodo
    have hkeep : K.Row r.cells todo := .of_mem hset.row hrow hmem
    refine ⟨⟨hrel.language.trans hset.language, hrel.autoReparse.trans hset.autoReparse,
      hrel.autoReprint.trans hset.autoReprint, hrel.stale.trans hset.fresh, hviews, ?_, ?_⟩, ?_, rfl,
      hrel.restoring.trans h.restoring⟩
    · show K.Row r'.cells r'.tokens
      rw [hrel.cells, htodo]
      exact hkeep
    · intro v hv
      show l.Reprints K r'.cells v
      rw [hrel.cells]
      exact hset.value v (hrel.value ▸ hv)
    -- the row and its print are the same, so they read as the same
    rcases h.length_printed hp with ⟨ht, rfl⟩ | ⟨v, w, ht, hvalid, hw, hv, htree, hps, -⟩
    · obtain ⟨hvalue, htree, hprinted⟩ := h.agrees.empty ht
      exact .of_empty (htodo.trans (List.forall₂_nil_right_iff.1 hsame))
        (hrel.valid.trans (h.agrees.valid_iff.2 (.inl ht))) (hrel.value.trans hvalue)
        (hrel.tree.trans htree) (hrel.printed.trans hprinted)
    · obtain ⟨u, hu, hus⟩ := (hset.value w hw).reads
      obtain ⟨u', hu', huu'⟩ := hl.parse_same (hps ▸ hsame.symm) hu
      have hlang : r'.endSync.language = l := hrel.language.trans hset.language
      have hcells : r'.endSync.cells = r.cells := hrel.cells
      have htokens : r'.endSync.tokens = todo := htodo
      refine .of_readable (v := u') (w := w) ?_ ?_ (hrel.valid.trans hvalid)
        (hrel.value.trans hw) ?_ ?_ ?_ ?_
      · rw [htokens]
        rintro rfl
        rw [hps] at hsame
        exact (hset.value w hw).nonempty (List.forall₂_nil_left_iff.1 hsame)
      · rw [hlang, hcells, htokens, hu']
      · rw [hcells]
        exact LawfulPayload.same_trans (LawfulPayload.same_symm hus) huu'
      · rw [hlang, hcells]
        exact hrel.tree.trans htree
      · rw [hlang, hcells, ← hps]
        exact hrel.printed.trans hp
      · rw [hlang, hcells, htokens, ← hps]
        exact hsame.length_eq.symm

end InSync

/-! ### Calls from outside -/

/-- The operations that a host may call. -/
inductive Op (V : Type) where
  | setTokens (ts : List (Token V))
  | insert (index : Nat) (t : Token V)
  | remove (index : Nat)
  | replace (index : Nat) (t : Token V)
  | splice (start stop : Nat) (ts : List (Token V))
  | clear
  | updateToPrinted
  | reprintToTokens
  | restore (saved : Option (List (Token V)))
  | processChanges
  | dispose
  | setValue (v : Option V)

namespace Op

def run : Op V → RegionM V Unit
  | setTokens ts => Region.setTokens ts
  | insert index t => Region.insert index t
  | remove index => discard (Region.remove index)
  | replace index t => discard (Region.replace index t)
  | splice start stop ts => Region.splice start stop ts
  | clear => Region.clear
  | updateToPrinted => Region.updateToPrinted
  | reprintToTokens => Region.reprintToTokens
  | restore saved => Region.restore saved
  | processChanges => discard Region.processChanges
  | dispose => modify Region.dispose
  | setValue v => Region.setValue v

/-- The tokens that a call brings in. -/
def tokens : Op V → List (Token V)
  | setTokens ts | splice _ _ ts | restore (some ts) => ts
  | insert _ t | replace _ t => [t]
  | _ => []

/-- The value that a call brings in. -/
def value? : Op V → Option V
  | setValue v => v
  | _ => none

/-- Tokens brought in are of the class, and a value brought in prints as some that read as it. -/
structure Legal (l : Language V) (K : TokenClass V) (cells : Cells) (op : Op V) : Prop where
  row : K.Row cells op.tokens
  value : ∀ v, op.value? = some v → l.Reprints K cells v

end Op

/-- The regions that a host can bring about: it makes a region that reads and prints by itself,
calls operations on it, whether they fail or not, and makes cells of its own in between, but leaves
the texts of those in the store alone. -/
inductive Reached (l : Language V) (K : TokenClass V) : Region V → Prop
  | new (cells : Cells) {settings : Settings} : settings.autoReparse = true →
      settings.autoReprint = true → Reached l K (Region.new l cells settings)
  | host {r : Region V} {cells : Cells} : Reached l K r → r.cells.Keeps cells →
      Reached l K { r with cells := cells }
  | call {r r' : Region V} {op : Op V} : Reached l K r → op.Legal l K r.cells →
      op.run r = .ok () r' → Reached l K r'
  | fail {r r' : Region V} {op : Op V} {e : EditError} : Reached l K r → op.Legal l K r.cells →
      op.run r = .error e r' → Reached l K r'

section
variable [LawfulPayload V] (hl : l.Structural) (hf : l.Faithful K)
include hl hf

theorem InSync.run (h : r.InSync l K) {op : Op V} (hop : op.Legal l K r.cells) :
    r.Safe l K op.run := by
  have hrow := hop.row
  have safe_discard : ∀ {α : Type} {f : RegionM V α}, r.Safe l K f → r.Safe l K (discard f) :=
    fun hs => (wp_discard _).2 hs
  cases op with
  | setTokens ts => exact (wp_bind _ _).2 (h.splice hl hf hrow)
  | insert index t => exact h.splice hl hf hrow
  | remove index => exact safe_discard (h.remove hl hf index)
  | replace index t => exact safe_discard (h.replace hl hf index hrow)
  | splice start stop ts => exact h.splice hl hf hrow
  | clear => exact (wp_bind _ _).2 (h.splice hl hf .nil)
  | updateToPrinted => exact h.updateToPrinted hl
  | reprintToTokens => exact h.reprintToTokens hl hf
  | restore saved =>
    refine h.restore hl hf ?_
    rintro ts rfl
    exact hrow
  | processChanges => exact safe_discard h.processChanges
  | dispose => exact h.keeps hl (keeps_dispose r)
  | setValue v => exact h.setValue hl hop.value

theorem Reached.inSync (h : Reached l K r) : r.InSync l K := by
  induction h with
  | new cells hparse hprint =>
    exact ⟨⟨rfl, hparse, hprint, rfl, rfl, .nil, by rintro v ⟨⟩⟩,
      .of_empty rfl rfl rfl rfl rfl, rfl, rfl⟩
  | host _ hk ih => exact ih.keeps hl hk
  | @call r r' op _ hop hrun ih =>
    have hsafe := ih.run hl hf hop
    rw [Safe, wp, hrun] at hsafe
    exact hsafe
  | @fail r r' op e _ hop hrun ih =>
    have hsafe := ih.run hl hf hop
    rw [Safe, wp, hrun] at hsafe
    exact hsafe.2

end

end Region

namespace Expr

/-- The tokens in which at most a text is embedded. -/
def textTokens : TokenClass Expr where
  Mem _ t := embedsText t
  keeps _ _ h := h
  same {_ t u} hs h := by
    cases t <;> cases u
    case value.value v w =>
      cases v with
      | text c =>
        cases w with
        | text d => rfl
        | _ => exact absurd hs Bool.false_ne_true
      | _ => exact absurd h Bool.false_ne_true
    all_goals first | rfl | exact absurd hs Bool.false_ne_true

theorem language_faithful (p : Precedence) : (language p).Faithful textTokens := by
  intro cells ts e _ hrow h
  rw [language_parse] at h ⊢
  rw [printed_tokens]
  obtain ⟨hcanon, hspells⟩ := spells_of_parse hrow.mem h
  exact ⟨hspells.length_eq, textOnly_row e,
    parse_of_spells (textOnly_row e) hcanon (spells_row cells e)⟩

end Expr

/-- Every call on a region leaves its row, its value and its print in agreement, and fails only for
an index outside the row, if the language gives back what it has read; the expression language does
so for all tokens but values other than texts. -/
theorem regions_stay_synced :
    (∀ {V : Type} [Payload V] [LawfulPayload V] {l : Language V} {K : TokenClass V},
      l.Structural → l.Faithful K → ∀ {r : Region V}, Region.Reached l K r →
        r.InSync l K ∧ ∀ op : Region.Op V, op.Legal l K r.cells → r.Safe l K op.run) ∧
    ∀ p, (Expr.language p).Structural ∧ (Expr.language p).Faithful Expr.textTokens := by
  refine ⟨fun hl hf r h => ?_, fun p => ⟨Expr.language_structural p, Expr.language_faithful p⟩⟩
  have hsync := h.inSync hl hf
  exact ⟨hsync, fun op hop => hsync.run hl hf hop⟩

/-- A sum of a name and an embedded text, on a new region. -/
theorem regions_stay_synced_sum :
    (Region.new (Expr.language {}) ⟨[{ text := ['x'] }]⟩ {}).Safe (Expr.language {}) Expr.textTokens
      (Region.Op.setTokens [.identifier ['a'], Expr.plusToken, .value (.text 0)]).run := by
  obtain ⟨hsync, hexpr⟩ := regions_stay_synced
  refine (hsync (hexpr {}).1 (hexpr {}).2 (.new ⟨[{ text := ['x'] }]⟩ rfl rfl)).2 _
    ⟨⟨?_, ?_⟩, by rintro v ⟨⟩⟩
  · intro c hc
    have hc : c ∈ [0] := hc
    obtain rfl := List.mem_singleton.1 hc
    decide
  · show Expr.TextOnly [.identifier ['a'], Expr.plusToken, .value (.text 0)]
    decide

end TokenEditor
