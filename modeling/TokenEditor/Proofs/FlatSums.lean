import TokenEditor.Proofs.Sums

/-! # Sums that read back

Brackets do not parse in the sum language, so a row tells flat sums only: terms with a plus between
neighbours. Those are the `Canonical` sums. A sum's print reads as that sum exactly if it is
canonical (`prints_read_back_iff`), for what is read from any row in which at most notes are embedded, and
every print is such a row, is canonical (`canonical_of_parse`). -/

namespace TokenEditor

namespace Decimal

theorem valueOf_zeros_append (k : Nat) (ds : Text) :
    valueOf (List.replicate k '0' ++ ds) = valueOf ds := by
  induction k with
  | zero => rfl
  | succ k ih => rw [← ih]; rfl

theorem isDigits_zeros_append (k : Nat) {ds : Text} (h : isDigits ds = true) :
    isDigits (List.replicate k '0' ++ ds) = true := by
  simp only [isDigits, Bool.and_eq_true, Bool.not_eq_true', List.isEmpty_eq_false_iff] at h ⊢
  refine ⟨by simp [h.1], ?_⟩
  rw [List.all_append, h.2, Bool.and_true, List.all_eq_true]
  intro c hc
  rw [List.eq_of_mem_replicate hc]
  rfl

/-- A number that is not negative is written in digits, filled up or not. -/
theorem isDigits_writePadded (width : Nat) {n : Int64} (h : 0 ≤ n.toInt) :
    isDigits (writePadded width n) = true ∧ read? (writePadded width n) = some n := by
  have hvalue : ((valueOf (Nat.toDigits 10 n.toInt.natAbs) : Nat) : Int) = n.toInt := by
    rw [valueOf_toDigits]
    omega
  have hdigits := isDigits_zeros_append (width - (Nat.toDigits 10 n.toInt.natAbs).length)
    (isDigits_toDigits n.toInt.natAbs)
  rw [writePadded, if_neg (by omega)]
  exact ⟨hdigits, by rw [read?_of_isDigits hdigits, valueOf_zeros_append, hvalue, fit?_toInt]⟩

theorem writePadded_zero (n : Int64) : writePadded 0 n = write n := by
  simp [writePadded, write]

end Decimal

namespace Sum
variable {cells : Cells} {style : Style} {t : Token Sum} {ts : List (Token Sum)} {e e' : Sum}
  {es : List Sum}

/-- What a row tells as one term: no number below zero and no sum. -/
def IsTerm : Sum → Prop
  | num n => 0 ≤ n.toInt
  | var _ | note _ => True
  | inc e => e.IsTerm
  | add _ => False

/-- A term, or a sum of at least two terms. -/
def Canonical : Sum → Prop
  | add es => 2 ≤ es.length ∧ ∀ e ∈ es, e.IsTerm
  | e => e.IsTerm

instance IsTerm.decidable : (e : Sum) → Decidable e.IsTerm
  | num n => inferInstanceAs (Decidable (0 ≤ n.toInt))
  | var _ | note _ => isTrue trivial
  | inc e => IsTerm.decidable e
  | add _ => isFalse id

instance : (e : Sum) → Decidable e.Canonical
  | add es => inferInstanceAs (Decidable (2 ≤ es.length ∧ ∀ e ∈ es, e.IsTerm))
  | num n => inferInstanceAs (Decidable (num n).IsTerm)
  | var name => inferInstanceAs (Decidable (var name).IsTerm)
  | note c => inferInstanceAs (Decidable (note c).IsTerm)
  | inc e => inferInstanceAs (Decidable (inc e).IsTerm)

theorem isTerm_of_atom? (ht : embedsNote t) (h : atom? t = some e) : e.IsTerm := by
  cases t with
  | value v =>
    cases h
    cases e with
    | note c => trivial
    | _ => exact absurd ht Bool.false_ne_true
  | identifier name => cases h; trivial
  | simple text glue =>
    simp only [atom?] at h
    split at h
    · rename_i hdigits
      obtain ⟨n, hn, rfl⟩ := Option.map_eq_some_iff.1 h
      rw [Decimal.read?_of_isDigits hdigits] at hn
      show 0 ≤ n.toInt
      rw [Decimal.toInt_of_fit? hn]
      exact Int.natCast_nonneg _
    · cases h
  | _ => cases h

theorem isTerm_increments (he : e.IsTerm) (ts : List (Token Sum)) : (increments e ts).1.IsTerm := by
  fun_induction increments e ts with
  | case1 => exact he
  | case2 e t ts _ ih => exact ih he
  | case3 => exact he

theorem isTerm_of_terms? (hts : ∀ t ∈ ts, embedsNote t) (h : terms? ts = some es) :
    ∀ e ∈ es, e.IsTerm := by
  fun_induction terms? ts generalizing es with
  | case1 => cases h
  | case2 => cases h
  | case3 t ts e he e' hinc =>
    cases h
    have hterm := isTerm_increments (isTerm_of_atom? (hts t (by simp)) he) ts
    rw [hinc] at hterm
    simpa using hterm
  | case4 t ts e he e' plus rest hinc hplus ih =>
    obtain ⟨es', hterms, rfl⟩ := Option.map_eq_some_iff.1 h
    have hterm := isTerm_increments (isTerm_of_atom? (hts t (by simp)) he) ts
    rw [hinc] at hterm
    have hrest : ∀ u ∈ rest, embedsNote u := fun u hu =>
      hts u (List.mem_cons_of_mem t (mem_of_mem_increments (e := e) (by simp [hinc, hu])))
    exact List.forall_mem_cons.2 ⟨hterm, ih hrest hterms⟩
  | case5 => cases h

theorem canonical_of_isTerm (h : e.IsTerm) : e.Canonical := by
  cases e with
  | add es => exact h.elim
  | _ => exact h

theorem canonical_total (hne : es ≠ []) (h : ∀ e ∈ es, e.IsTerm) : (total es).Canonical := by
  match es with
  | [] => exact absurd rfl hne
  | [e] => exact canonical_of_isTerm (h e (by simp))
  | _ :: _ :: _ => exact ⟨by simp, h⟩

theorem canonical_of_parse (hs : style.dropLast = false) (hts : ∀ t ∈ ts, embedsNote t)
    (h : parse ts = some e) : e.Canonical := by
  rw [parse_eq] at h
  obtain ⟨es, hes, rfl⟩ := Option.map_eq_some_iff.1 h
  exact canonical_total (length_rowAll_of_terms? hs hts hes).1 (isTerm_of_terms? hts hes)

/-! ### What is canonical reads back -/

/-- A term is printed as an atom and its increments, and is read off them. -/
theorem row_of_isTerm (style : Style) : ∀ e : Sum, e.IsTerm → ∃ t us a, e.row style = t :: us ∧
    atom? t = some a ∧ ∀ rest, increments a (us ++ rest) = increments e rest
  | num n, h => by
    have hread : ∀ width, atom? (.plain (Decimal.writePadded width n)) = some (num n) := by
      intro width
      obtain ⟨hdigits, hvalue⟩ := Decimal.isDigits_writePadded width h
      simp [Token.plain, atom?, hdigits, hvalue]
    refine ⟨_, [], num n, rfl, ?_, fun _ => rfl⟩
    split
    · exact hread 3
    · rw [← Decimal.writePadded_zero]
      exact hread 0
  | var name, _ => ⟨.identifier name, [], var name, rfl, rfl, fun _ => rfl⟩
  | note c, _ => ⟨.value (note c), [], note c, rfl, rfl, fun _ => rfl⟩
  | inc e, h => by
    obtain ⟨t, us, a, hrow, ha, hinc⟩ := row_of_isTerm style e h
    refine ⟨t, us ++ [incToken], a, by rw [row_inc, hrow]; rfl, ha, fun rest => ?_⟩
    rw [List.append_assoc, hinc]
    rfl
  | add _, h => h.elim

theorem terms?_rowAll (hs : style.dropLast = false) (hne : es ≠ []) (h : ∀ e ∈ es, e.IsTerm) :
    terms? (rowAll style es) = some es := by
  induction es with
  | nil => exact absurd rfl hne
  | cons e es ih =>
    obtain ⟨he, hes⟩ := List.forall_mem_cons.1 h
    obtain ⟨t, us, a, hrow, ha, hinc⟩ := row_of_isTerm style e he
    cases es with
    | nil =>
      rw [rowAll_singleton hs, hrow]
      exact terms?_of_last ha (by simpa [increments] using hinc [])
    | cons e' es =>
      rw [rowAll_cons_cons, hrow, List.cons_append, terms?_of_plus ha (hinc _) rfl,
        ih (List.cons_ne_nil _ _) hes]
      rfl

theorem parse_row (hs : style.dropLast = false) (h : e.Canonical) :
    parse (e.row style) = some e := by
  have hterm : e.IsTerm → parse (e.row style) = some e := by
    intro he
    rw [← rowAll_singleton hs, parse_eq,
      terms?_rowAll hs (List.cons_ne_nil _ _) (by simpa using he)]
    rfl
  cases e with
  | add es =>
    obtain ⟨hlen, hes⟩ := h
    match es with
    | e :: e' :: es =>
      have hterms := terms?_rowAll hs (List.cons_ne_nil _ _) hes
      show parse (rowAll style (e :: e' :: es)) = _
      rw [parse_eq, hterms]
      rfl
  | _ => exact hterm h

theorem isTerm_of_same : ∀ a b : Sum, a.same cells b → a.IsTerm → b.IsTerm
  | num _, b, h, ha => by
    cases b <;> simp_all [same, IsTerm]
  | var _, b, h, _ | note _, b, h, _ => by
    cases b <;> simp_all [same, IsTerm]
  | inc a, b, h, ha => by
    cases b with
    | inc b => exact isTerm_of_same a b h ha
    | _ => simp [same] at h
  | add _, _, _, ha => ha.elim

theorem terms_of_sameAll : ∀ as bs : List Sum, sameAll cells as bs → (∀ e ∈ as, e.IsTerm) →
    as.length = bs.length ∧ ∀ e ∈ bs, e.IsTerm
  | [], [], _, _ => by simp
  | [], _ :: _, h, _ | _ :: _, [], h, _ => by simp [sameAll] at h
  | a :: as, b :: bs, h, has => by
    obtain ⟨hab, habs⟩ := Bool.and_eq_true_iff.1 h
    obtain ⟨ha, has⟩ := List.forall_mem_cons.1 has
    obtain ⟨hlen, hbs⟩ := terms_of_sameAll as bs habs has
    exact ⟨congrArg (· + 1) hlen, List.forall_mem_cons.2 ⟨isTerm_of_same a b hab ha, hbs⟩⟩

theorem canonical_of_same (h : e.same cells e') (he : e.Canonical) : e'.Canonical := by
  cases e with
  | add as =>
    cases e' with
    | add bs =>
      obtain ⟨hlen, has⟩ := he
      obtain ⟨heq, hbs⟩ := terms_of_sameAll as bs h has
      exact ⟨heq ▸ hlen, hbs⟩
    | _ => simp [same] at h
  | _ => exact canonical_of_isTerm (isTerm_of_same _ e' h he)

/-- The print of a sum reads as the sum exactly if it is canonical. What is read from a row in which
at most notes are embedded is canonical and prints with as many tokens. -/
theorem prints_read_back_iff (style : Style) (hs : style.dropLast = false) (cells : Cells) :
    (∀ e : Sum,
      ((language style).parse cells ((language style).printed cells e).tokens = some e ↔
        e.Canonical) ∧
      ((∃ e', (language style).parse cells ((language style).printed cells e).tokens = some e' ∧
        e'.same cells e) ↔ e.Canonical)) ∧
    ∀ ts : List (Token Sum), (∀ t ∈ ts, embedsNote t) → ∀ e,
      (language style).parse cells ts = some e →
        ((language style).printed cells e).tokens.length = ts.length ∧ e.Canonical := by
  refine ⟨fun e => ?_, fun ts hts e h =>
    ⟨length_row_of_parse hs hts h, canonical_of_parse hs hts h⟩⟩
  have hread : ∀ e', parse (e.row style) = some e' → e'.Canonical := fun e' h =>
    canonical_of_parse hs (embedsNote_row style e) h
  rw [printed_tokens]
  refine ⟨⟨hread e, parse_row hs⟩, ?_, fun he => ⟨e, parse_row hs he, same_refl cells e⟩⟩
  rintro ⟨e', h, hsame⟩
  exact canonical_of_same hsame (hread e' h)

/-- `007 ++ + x` reads back, though its number is filled up; the increment of `a + b` prints as
`a + b ++`, and that is a sum whose last term is an increment. -/
theorem prints_read_back_iff_padded :
    (parse ((language { pad := true }).printed {} (add [inc (num 7), var ['x']])).tokens =
      some (add [inc (num 7), var ['x']])) ∧
    ((language { pad := true }).printed {} (add [inc (num 7), var ['x']])).tokens =
      [.plain ['0', '0', '7'], incToken, plusToken, .identifier ['x']] ∧
    ¬ ∃ e', parse
        ((language { pad := true }).printed {} (inc (add [var ['a'], var ['b']]))).tokens =
      some e' ∧ e'.same {} (inc (add [var ['a'], var ['b']])) := by
  obtain ⟨hiff, -⟩ := prints_read_back_iff { pad := true } rfl {}
  exact ⟨(hiff _).1.2 (by decide), rfl, fun h => absurd ((hiff _).2.1 h) (by decide)⟩

end Sum

end TokenEditor
