import Mathlib.Data.List.Forall2
import TokenEditor.Expr.Basic
import TokenEditor.Sum.Basic

/-! # Payloads and the cells they use

What an editor relies on when it copies payloads and compares them. `LawfulPayload` asks that
`same` is an equivalence which looks at nothing but the texts of the cells in question, and that
`detach` gives a copy on new cells, one per occurrence and in order, which shows the same. Both
kinds of values obey these laws, and so do rows of tokens over a lawful payload. -/

namespace TokenEditor

namespace Cells

/-- Every cell of `before` is in `after`, with its text. -/
structure Keeps (before after : Cells) : Prop where
  length_le : before.entries.length ≤ after.entries.length
  text_eq : ∀ c : Nat, c < before.entries.length → after.text c = before.text c

/-- The listed cells are in the store. -/
def Has (cells : Cells) (cs : List CellId) : Prop :=
  ∀ c : Nat, c ∈ cs → c < cells.entries.length

/-- `after` is `before` with a fresh copy of each of the cells `cs`; the copies are `ds`. -/
structure Copies (before : Cells) (cs ds : List CellId) (after : Cells) : Prop where
  entries : after.entries = before.entries ++ cs.map fun c => { text := before.text c }
  fresh : ds = List.range' before.entries.length cs.length

variable {a b c : Cells} {cs cs' ds ds' : List CellId}

namespace Keeps

theorem refl (a : Cells) : a.Keeps a := ⟨Nat.le_refl _, fun _ _ => rfl⟩

theorem trans (h : a.Keeps b) (h' : b.Keeps c) : a.Keeps c :=
  ⟨Nat.le_trans h.length_le h'.length_le, fun x hx =>
    (h'.text_eq x (Nat.lt_of_lt_of_le hx h.length_le)).trans (h.text_eq x hx)⟩

theorem has (h : a.Keeps b) (hcs : a.Has cs) : b.Has cs :=
  fun x hx => Nat.lt_of_lt_of_le (hcs x hx) h.length_le

theorem of_append {new : List Cell} (h : b.entries = a.entries ++ new) : a.Keeps b := by
  refine ⟨by simp [h], fun x hx => ?_⟩
  rw [text, text, h, List.getElem?_append_left hx]

end Keeps

theorem has_nil : a.Has [] := by simp [Has]

@[simp] theorem has_append : a.Has (cs ++ cs') ↔ a.Has cs ∧ a.Has cs' := by
  simp [Has, or_imp, forall_and]

namespace Copies

theorem nil (a : Cells) : a.Copies [] [] a := ⟨by simp, rfl⟩

theorem keeps (h : a.Copies cs ds b) : a.Keeps b := .of_append h.entries

theorem has (h : a.Copies cs ds b) : b.Has ds := by
  intro x hx
  rw [h.fresh, List.mem_range'_1] at hx
  rw [h.entries, List.length_append, List.length_map]
  omega

theorem length_eq (h : a.Copies cs ds b) : ds.length = cs.length := by
  rw [h.fresh, List.length_range']

theorem append (h : a.Copies cs ds b) (h' : b.Copies cs' ds' c) (hcs' : a.Has cs') :
    a.Copies (cs ++ cs') (ds ++ ds') c := by
  have htext : ∀ x ∈ cs', b.text x = a.text x := fun x hx => h.keeps.text_eq x (hcs' x hx)
  have hlen : b.entries.length = a.entries.length + cs.length := by simp [h.entries]
  constructor
  · rw [h'.entries, h.entries, List.map_append, List.append_assoc]
    congr 2
    exact List.map_congr_left fun x hx => by rw [htext x hx]
  · rw [h.fresh, h'.fresh, hlen, List.length_append, List.range'_append_1]

theorem text_eq (h : a.Copies cs ds b) (i : Nat) (hi : i < cs.length) (hi' : i < ds.length) :
    b.text ds[i] = a.text cs[i] := by
  have hd : ds[i] = a.entries.length + i := by simp [h.fresh]
  rw [hd, text, h.entries, List.getElem?_append_right (by omega)]
  simp [hi]

end Copies

theorem copies_new (a : Cells) (x : CellId) :
    a.Copies [x] [((new (a.text x)).run a).1] ((new (a.text x)).run a).2 :=
  ⟨rfl, rfl⟩

theorem text_new {x : CellId} (h : a.Has [x]) :
    ((new (a.text x)).run a).2.text ((new (a.text x)).run a).1 = ((new (a.text x)).run a).2.text x :=
  ((a.copies_new x).text_eq 0 (by simp) (by simp)).trans
    ((a.copies_new x).keeps.text_eq x (h x (by simp))).symm

end Cells

/-! ### Laws of payloads -/

section
variable {α β : Type} {cellsOf : α → List CellId} {same : Cells → α → α → Prop} {d : StateM Cells α}
  {a : α} {cellsOf' : β → List CellId} {same' : Cells → β → β → Prop} {d' : StateM Cells β} {b : β}
  {cells : Cells}

/-- The texts of the cells in two things decide whether they show the same. -/
def LocalTo (cellsOf : α → List CellId) (same : Cells → α → α → Prop) : Prop :=
  ∀ (before after : Cells) (x y : α),
    (∀ c ∈ cellsOf x ++ cellsOf y, after.text c = before.text c) → same before x y → same after x y

/-- `d` makes a copy of `a` on new cells, which shows the same. -/
def Detaches (cellsOf : α → List CellId) (same : Cells → α → α → Prop) (d : StateM Cells α) (a : α) :
    Prop :=
  ∀ cells : Cells, cells.Has (cellsOf a) →
    cells.Copies (cellsOf a) (cellsOf (d.run cells).1) (d.run cells).2 ∧
      same (d.run cells).2 (d.run cells).1 a

/-- What showed the same still does when the store has grown. -/
theorem LocalTo.mono (h : LocalTo cellsOf same) {x y : α} {after : Cells} (hk : cells.Keeps after)
    (hx : cells.Has (cellsOf x)) (hy : cells.Has (cellsOf y)) (hs : same cells x y) :
    same after x y :=
  h _ _ _ _ (fun c hc => hk.text_eq c (Cells.has_append.2 ⟨hx, hy⟩ c hc)) hs

theorem Detaches.pair (h : Detaches cellsOf same d a) (hlocal : LocalTo cellsOf same)
    (h' : Detaches cellsOf' same' d' b) (hcells : cells.Has (cellsOf a ++ cellsOf' b)) :
    cells.Copies (cellsOf a ++ cellsOf' b)
        (cellsOf (d.run cells).1 ++ cellsOf' (d'.run (d.run cells).2).1)
        (d'.run (d.run cells).2).2 ∧
      same (d'.run (d.run cells).2).2 (d.run cells).1 a ∧
      same' (d'.run (d.run cells).2).2 (d'.run (d.run cells).2).1 b := by
  obtain ⟨ha, hb⟩ := Cells.has_append.1 hcells
  obtain ⟨hcopy, hsame⟩ := h _ ha
  obtain ⟨hcopy', hsame'⟩ := h' _ (hcopy.keeps.has hb)
  exact ⟨hcopy.append hcopy' hb,
    hlocal.mono hcopy'.keeps hcopy.has (hcopy.keeps.has ha) hsame, hsame'⟩

end

open Payload in
/-- The laws of payloads. -/
class LawfulPayload (V : Type) [Payload V] : Prop where
  same_refl : ∀ cells (v : V), same cells v v
  same_symm : ∀ {cells} {v w : V}, same cells v w → same cells w v
  same_trans : ∀ {cells} {u v w : V}, same cells u v → same cells v w → same cells u w
  same_local : LocalTo (α := V) cellsOf fun cells v w => same cells v w
  detaches : ∀ v : V, Detaches cellsOf (fun cells v w => same cells v w) (detach v) v

theorem forall₂_trans {α : Type} {R : α → α → Prop} (hR : ∀ a b c, R a b → R b c → R a c)
    {k l m : List α} (h : List.Forall₂ R k l) (h' : List.Forall₂ R l m) : List.Forall₂ R k m := by
  induction h generalizing m with
  | nil => exact h'
  | cons hab _ ih =>
    cases h' with
    | cons hbc hrest => exact .cons (hR _ _ _ hab hbc) (ih hrest)

/-- The cells of a row, once per occurrence. -/
def rowCells {V : Type} [Payload V] (ts : List (Token V)) : List CellId :=
  ts.flatMap Token.cellsOf

/-- The rows are the same, token by token. -/
def SameRow {V : Type} [Payload V] (cells : Cells) (ts us : List (Token V)) : Prop :=
  List.Forall₂ (fun t u => t.same cells u = true) ts us

section
variable {V : Type} [Payload V]

@[simp] theorem rowCells_nil : rowCells ([] : List (Token V)) = [] := rfl

@[simp] theorem rowCells_cons (t : Token V) (ts : List (Token V)) :
    rowCells (t :: ts) = t.cellsOf ++ rowCells ts := rfl

@[simp] theorem rowCells_append (ts us : List (Token V)) :
    rowCells (ts ++ us) = rowCells ts ++ rowCells us := by
  simp [rowCells]

theorem has_rowCells {cells : Cells} {ts : List (Token V)} :
    cells.Has (rowCells ts) ↔ ∀ t ∈ ts, cells.Has t.cellsOf := by
  constructor
  · intro h t ht c hc
    exact h c (List.mem_flatMap.2 ⟨t, ht, hc⟩)
  · intro h c hc
    obtain ⟨t, ht, hc⟩ := List.mem_flatMap.1 hc
    exact h t ht c hc

variable [LawfulPayload V] {cells : Cells} {t u : Token V} {ts us : List (Token V)}

namespace Token

theorem same_refl (cells : Cells) (t : Token V) : t.same cells t := by
  cases t <;> simp [same, LawfulPayload.same_refl]

theorem same_symm (h : t.same cells u) : u.same cells t := by
  fun_cases same cells t u <;> simp_all [same, LawfulPayload.same_symm]

theorem same_trans {w : Token V} (h : t.same cells u) (h' : u.same cells w) : t.same cells w := by
  fun_cases same cells t u <;> cases w <;> simp_all [same]
  exact LawfulPayload.same_trans h h'

theorem same_local : LocalTo (α := Token V) cellsOf fun cells t u => t.same cells u := by
  intro before after t u hc h
  fun_cases same before t u <;> simp_all [same]
  exact LawfulPayload.same_local _ _ _ _ (by simpa [cellsOf] using hc) h

theorem detaches (t : Token V) :
    Detaches cellsOf (fun cells t u => t.same cells u) t.detach t := by
  cases t with
  | value v => exact LawfulPayload.detaches v
  | _ => exact fun _ _ => ⟨.nil _, same_refl _ _⟩

end Token

namespace SameRow

theorem refl (cells : Cells) (ts : List (Token V)) : SameRow cells ts ts :=
  List.forall₂_same.2 fun t _ => t.same_refl cells

theorem symm (h : SameRow cells ts us) : SameRow cells us ts := by
  refine List.Forall₂.flip (h.imp fun t u htu => ?_)
  exact Token.same_symm htu

theorem trans {ws : List (Token V)} (h : SameRow cells ts us) (h' : SameRow cells us ws) :
    SameRow cells ts ws :=
  forall₂_trans (R := fun t u : Token V => t.same cells u = true) (fun _ _ _ => Token.same_trans)
    h h'

theorem keeps {after : Cells} (hk : cells.Keeps after) (hts : cells.Has (rowCells ts))
    (hus : cells.Has (rowCells us)) (h : SameRow cells ts us) : SameRow after ts us := by
  induction h with
  | nil => exact .nil
  | cons htu _ ih =>
    obtain ⟨ht, hts⟩ := Cells.has_append.1 hts
    obtain ⟨hu, hus⟩ := Cells.has_append.1 hus
    exact .cons (Token.same_local.mono hk ht hu htu) (ih hts hus)

omit [LawfulPayload V] in
theorem append {ts' us' : List (Token V)} (h : SameRow cells ts us) (h' : SameRow cells ts' us') :
    SameRow cells (ts ++ ts') (us ++ us') :=
  List.rel_append h h'

end SameRow

theorem detachAll_detaches (ts : List (Token V)) :
    Detaches rowCells SameRow (Token.detachAll ts) ts := by
  induction ts with
  | nil => exact fun _ _ => ⟨.nil _, .nil⟩
  | cons t ts ih =>
    intro cells h
    obtain ⟨hcopy, ht, hts⟩ := (Token.detaches t).pair Token.same_local ih h
    exact ⟨hcopy, .cons ht hts⟩

end

namespace Expr
variable {cells : Cells} {a b c : Expr}

theorem same_refl (cells : Cells) (e : Expr) : e.same cells e := by
  induction e <;> simp_all [same]

theorem same_symm (h : a.same cells b) : b.same cells a := by
  fun_induction same cells a b <;> simp_all [same]

theorem same_trans (h : a.same cells b) (h' : b.same cells c) : a.same cells c := by
  fun_induction same cells a b generalizing c
  case case12 => exact absurd h Bool.false_ne_true
  -- what differs from `b` at the top is refused by computation
  all_goals
    cases c
    all_goals try exact absurd h' Bool.false_ne_true
  all_goals simp_all [same]

theorem same_local : LocalTo cellsOf fun cells a b => a.same cells b := by
  intro before after a b hc h
  fun_induction same before a b <;> simp_all [same, cellsOf, or_imp, forall_and]

theorem detaches (e : Expr) : Detaches cellsOf (fun cells a b => a.same cells b) e.detach e := by
  induction e with
  | plus l r ihl ihr =>
    intro cells h
    obtain ⟨hcopy, hl, hr⟩ := ihl.pair same_local ihr h
    exact ⟨hcopy, Bool.and_eq_true_iff.2 ⟨hl, hr⟩⟩
  | mul l r ihl ihr =>
    intro cells h
    obtain ⟨hcopy, hl, hr⟩ := ihl.pair same_local ihr h
    exact ⟨hcopy, Bool.and_eq_true_iff.2 ⟨hl, hr⟩⟩
  | inc e ih => exact ih
  | factorial e ih => exact ih
  | parens e ih => exact ih
  | callWith name e ih =>
    exact fun _ h => ⟨(ih _ h).1, Bool.and_eq_true_iff.2 ⟨beq_self_eq_true name, (ih _ h).2⟩⟩
  | field e name ih =>
    exact fun _ h => ⟨(ih _ h).1, Bool.and_eq_true_iff.2 ⟨(ih _ h).2, beq_self_eq_true name⟩⟩
  | text c => exact fun _ h => ⟨Cells.copies_new _ c, beq_iff_eq.2 (Cells.text_new h)⟩
  | var name => exact fun _ _ => ⟨.nil _, same_refl _ _⟩
  | int n => exact fun _ _ => ⟨.nil _, same_refl _ _⟩
  | call name => exact fun _ _ => ⟨.nil _, same_refl _ _⟩

instance : LawfulPayload Expr where
  same_refl := same_refl
  same_symm := same_symm
  same_trans := same_trans
  same_local := same_local
  detaches := detaches

end Expr

namespace Sum

mutual

theorem same_refl (cells : Cells) : ∀ e : Sum, e.same cells e
  | num _ | var _ | note _ => by simp [same]
  | add es => sameAll_refl cells es
  | inc e => same_refl cells e

theorem sameAll_refl (cells : Cells) : ∀ es : List Sum, sameAll cells es es
  | [] => rfl
  | e :: es => Bool.and_eq_true_iff.2 ⟨same_refl cells e, sameAll_refl cells es⟩

end

mutual

theorem same_symm (cells : Cells) : ∀ a b : Sum, a.same cells b → b.same cells a
  | num _, b, h | var _, b, h | note _, b, h => by cases b <;> simp_all [same]
  | add as, b, h => by
    cases b with
    | add bs => exact sameAll_symm cells as bs h
    | _ => simp [same] at h
  | inc a, b, h => by
    cases b with
    | inc b => exact same_symm cells a b h
    | _ => simp [same] at h

theorem sameAll_symm (cells : Cells) :
    ∀ as bs : List Sum, sameAll cells as bs → sameAll cells bs as
  | [], [], _ => rfl
  | [], _ :: _, h | _ :: _, [], h => by simp [sameAll] at h
  | a :: as, b :: bs, h => by
    obtain ⟨ha, has⟩ := Bool.and_eq_true_iff.1 h
    exact Bool.and_eq_true_iff.2 ⟨same_symm cells a b ha, sameAll_symm cells as bs has⟩

end

mutual

theorem same_trans (cells : Cells) :
    ∀ a b c : Sum, a.same cells b → b.same cells c → a.same cells c
  | num _, b, c, h, h' | var _, b, c, h, h' | note _, b, c, h, h' => by
    cases b
    all_goals try exact absurd h Bool.false_ne_true
    cases c
    all_goals try exact absurd h' Bool.false_ne_true
    simp_all [same]
  | add as, b, c, h, h' => by
    cases b with
    | add bs =>
      cases c with
      | add cs => exact sameAll_trans cells as bs cs h h'
      | _ => simp [same] at h'
    | _ => simp [same] at h
  | inc a, b, c, h, h' => by
    cases b with
    | inc b =>
      cases c with
      | inc c => exact same_trans cells a b c h h'
      | _ => simp [same] at h'
    | _ => simp [same] at h

theorem sameAll_trans (cells : Cells) :
    ∀ as bs cs : List Sum, sameAll cells as bs → sameAll cells bs cs → sameAll cells as cs
  | [], [], _, _, h' => h'
  | [], _ :: _, _, h, _ | _ :: _, [], _, h, _ => by simp [sameAll] at h
  | _ :: _, _ :: _, [], _, h' => by simp [sameAll] at h'
  | a :: as, b :: bs, c :: cs, h, h' => by
    obtain ⟨ha, has⟩ := Bool.and_eq_true_iff.1 h
    obtain ⟨hb, hbs⟩ := Bool.and_eq_true_iff.1 h'
    exact Bool.and_eq_true_iff.2 ⟨same_trans cells a b c ha hb, sameAll_trans cells as bs cs has hbs⟩

end

mutual

theorem same_local : LocalTo cellsOf fun cells a b => a.same cells b
  | before, after, num _, b, _, h | before, after, var _, b, _, h => by
    cases b <;> simp_all [same]
  | before, after, note c, b, hc, h => by
    cases b <;> simp_all [same, cellsOf]
  | before, after, add as, b, hc, h => by
    cases b with
    | add bs => exact sameAll_local before after as bs hc h
    | _ => simp [same] at h
  | before, after, inc a, b, hc, h => by
    cases b with
    | inc b => exact same_local before after a b hc h
    | _ => simp [same] at h

theorem sameAll_local : LocalTo cellsOfAll fun cells as bs => sameAll cells as bs
  | _, _, [], [], _, _ => rfl
  | _, _, [], _ :: _, _, h | _, _, _ :: _, [], _, h => by simp [sameAll] at h
  | before, after, a :: as, b :: bs, hc, h => by
    simp only [cellsOfAll, List.mem_append] at hc
    obtain ⟨ha, has⟩ := Bool.and_eq_true_iff.1 h
    refine Bool.and_eq_true_iff.2 ⟨same_local before after a b (fun c h => hc c ?_) ha,
      sameAll_local before after as bs (fun c h => hc c ?_) has⟩
    · rcases List.mem_append.1 h with h | h <;> simp [h]
    · rcases List.mem_append.1 h with h | h <;> simp [h]

end

mutual

theorem detaches : ∀ e : Sum, Detaches cellsOf (fun cells a b => a.same cells b) e.detach e
  | num _ | var _ => fun _ _ => ⟨.nil _, same_refl _ _⟩
  | note c => fun _ h => ⟨Cells.copies_new _ c, beq_iff_eq.2 (Cells.text_new h)⟩
  | add es => detachAll_detaches es
  | inc e => detaches e

theorem detachAll_detaches :
    ∀ es : List Sum, Detaches cellsOfAll (fun cells as bs => sameAll cells as bs) (detachAll es) es
  | [] => fun _ _ => ⟨.nil _, rfl⟩
  | e :: es => fun cells h => by
    obtain ⟨hcopy, he, hes⟩ := (detaches e).pair same_local (detachAll_detaches es) h
    exact ⟨hcopy, Bool.and_eq_true_iff.2 ⟨he, hes⟩⟩

end

instance : LawfulPayload Sum where
  same_refl := same_refl
  same_symm h := same_symm _ _ _ h
  same_trans h h' := same_trans _ _ _ _ h h'
  same_local := same_local
  detaches := detaches

end Sum

end TokenEditor
