import TokenEditor.Expr.Language
import TokenEditor.Proofs.Descent

/-! # Reading tokens

The grammar a third time, by rules that read the expression off the tokens and give up at the first
error. `parse_eq_read`: reading a row through its syntax tree and lowering the tree comes to the
same. A node found by descent either `Means` the expression read, over the payloads of the value
tokens it took, or it holds an error node, and then the reader has failed. -/

namespace TokenEditor.Expr

/-- The lexemes under which the grammar sees a row. -/
def lexemes (cells : Cells) (ts : List (Token Expr)) : List Lexeme :=
  ts.map (Lexeme.ofToken cells)

/-- The payloads of the value tokens of a row. -/
def payloads (ts : List (Token Expr)) : List Expr :=
  ts.filterMap Token.value?

/-- Two operands joined by a binary operator. -/
def joined? : Kind → Expr → Expr → Option Expr
  | .plus, l, r => some (plus l r)
  | .star, l, r => some (mul l r)
  | _, _, _ => none

/-- What follows a closing bracket. -/
def afterClose? : List (Token Expr) → Option (List (Token Expr))
  | [] => none
  | t :: ts => if tokenKind t = .rparen then some ts else none

/-- Postfix operators after the operand `e`. -/
def readPostfix (cells : Cells) (e : Expr) :
    List (Token Expr) → Option (Expr × List (Token Expr))
  | [] => some (e, [])
  | t :: ts =>
    match tokenKind t with
    | .plusPlus => readPostfix cells (inc e) ts
    | .bang => readPostfix cells (factorial e) ts
    | .dot =>
      match ts with
      | n :: ts' =>
        if tokenKind n = .ident then readPostfix cells (field e (n.text cells)) ts' else none
      | [] => none
    | _ => some (e, t :: ts)

mutual

/-- An expression whose operators all bind at least as tightly as `least`. -/
def readExpr (p : Precedence) (cells : Cells) :
    Nat → Nat → List (Token Expr) → Option (Expr × List (Token Expr))
  | 0, _, _ => none
  | fuel + 1, least, ts =>
    match readAtom p cells fuel ts with
    | none => none
    | some (e, ts) =>
      match readPostfix cells e ts with
      | none => none
      | some (e, ts) => readClimb p cells fuel least e ts

/-- Operators that bind at least as tightly as `least` after the operand `e`. -/
def readClimb (p : Precedence) (cells : Cells) :
    Nat → Nat → Expr → List (Token Expr) → Option (Expr × List (Token Expr))
  | 0, _, e, ts => some (e, ts)
  | _ + 1, _, e, [] => some (e, [])
  | fuel + 1, least, e, t :: ts =>
    match p.bindingPower? (tokenKind t) with
    | none => some (e, t :: ts)
    | some (left, right) =>
      if left < least then some (e, t :: ts)
      else
        match readExpr p cells fuel right ts with
        | none => none
        | some (e', ts) =>
          match joined? (tokenKind t) e e' with
          | none => none
          | some e => readClimb p cells fuel least e ts

/-- An operand without operators. -/
def readAtom (p : Precedence) (cells : Cells) :
    Nat → List (Token Expr) → Option (Expr × List (Token Expr))
  | 0, _ => none
  | _ + 1, [] => none
  | fuel + 1, t :: ts =>
    match tokenKind t with
    | .ident =>
      match ts with
      | n :: ts' =>
        if tokenKind n = .lparen then
          match afterClose? ts' with
          | some ts => some (call (t.text cells), ts)
          | none =>
            match readOperand p cells fuel ts' with
            | none => none
            | some (e, ts) => (afterClose? ts).map fun ts => (callWith (t.text cells) e, ts)
        else some (var (t.text cells), n :: ts')
      | [] => some (var (t.text cells), [])
    | .int => (Decimal.read? (t.text cells)).map fun n => (int n, ts)
    | .value => t.value?.map fun v => (v, ts)
    | .lparen =>
      match readOperand p cells fuel ts with
      | none => none
      | some (e, ts) => (afterClose? ts).map fun ts => (parens e, ts)
    | _ => none

/-- Any expression. -/
def readOperand (p : Precedence) (cells : Cells) (fuel : Nat) (ts : List (Token Expr)) :
    Option (Expr × List (Token Expr)) :=
  match fuel with
  | 0 => none
  | fuel + 1 => readExpr p cells fuel 0 ts

end

/-- The expression of a whole row. -/
def read (p : Precedence) (cells : Cells) (ts : List (Token Expr)) : Option Expr :=
  match readOperand p cells (fuelFor (lexemes cells ts)) ts with
  | some (e, []) => some e
  | _ => none

theorem firstLexeme_ne_value (c : Char) (cs : Text) : (firstLexeme c cs).1 ≠ .value := by
  have hsymbol : symbolKind c ≠ .value := by
    unfold symbolKind
    split <;> decide
  unfold firstLexeme
  repeat' split
  all_goals first | exact hsymbol | simp

theorem lex_kind_ne_value (t : Text) : ∀ l ∈ lex t, l.kind ≠ .value := by
  fun_induction lex t with
  | case1 => simp
  | case2 c cs kind n h ih =>
    intro l hl
    rcases List.mem_cons.1 hl with rfl | hl
    · have hk := firstLexeme_ne_value c cs
      rwa [h] at hk
    · exact ih l hl

theorem singleKind?_ne_value (t : Text) : singleKind? t ≠ some .value := by
  have h := lex_kind_ne_value t
  unfold singleKind?
  split <;> simp_all

theorem exists_of_tokenKind_value {t : Token Expr} (h : tokenKind t = .value) :
    ∃ v, t = .value v := by
  cases t with
  | value v => exact ⟨v, rfl⟩
  | simple text glue =>
    have := singleKind?_ne_value text
    cases hs : singleKind? text <;> simp_all [tokenKind]
  | _ => simp [tokenKind] at h

theorem isSome_read?_of_tokenKind_int (cells : Cells) {t : Token Expr} (h : tokenKind t = .int) :
    (Decimal.read? (t.text cells)).isSome := by
  cases t with
  | simple text glue =>
    have hs : singleKind? text = some .int := by
      cases hs : singleKind? text <;> simp_all [tokenKind]
    simp only [Token.text]
    unfold singleKind? at hs
    split at hs <;> simp_all [Option.isSome_iff_ne_none]
  | _ => simp [tokenKind] at h

/-! ### Nodes and their meaning -/

theorem lowerNodes_nil (k : Nat) (vals : List Expr) : lowerNodes k .nil vals = some ([], vals) := by
  cases k <;> simp [lowerNodes]

theorem lowerNodes_leaf (k : Nat) (l : Lexeme) (rest : Tree) (vals : List Expr) :
    lowerNodes k (.leaf l rest) vals = lowerNodes k rest vals := by
  cases k <;> simp [lowerNodes]

theorem assemble_binary {n m : Node} {l : Lexeme} {e e' j : Expr}
    (hj : joined? l.kind e e' = some j) :
    assemble .binExpr (n.tree ++ .leaf l m.tree) [e, e'] = some j := by
  rw [joined?.eq_def] at hj
  split at hj
  case h_3 => simp at hj
  all_goals
    obtain rfl := Option.some.inj hj
    simp [assemble, ownOperator?, Node.tree, Forest.ownLeaves, *]

theorem ownName?_leaf {l : Lexeme} (hl : l.kind = .ident) (rest : Tree) :
    ownName? (.leaf l rest) = some l.text := by
  simp [ownName?, Forest.ownLeaves, hl]

/-- Something in the tree is an error node. -/
def Tree.HasError (t : Tree) : Prop := Kind.error ∈ Forest.labels t

/-- The node has no error in it and lowers to `e`, taking the payloads `vs`. -/
structure Node.Means (n : Node) (e : Expr) (vs : List Expr) : Prop where
  clean : ¬ Tree.HasError n.tree
  lowers : ∀ k (rest : Tree) vals, lowerNodes (k + 1) (.node n.kind n.children rest) (vs ++ vals) =
    (lowerNodes k rest vals).map fun r => (e :: r.1, r.2)

namespace Tree.HasError
variable {t u : Tree} {n : Node}

theorem append_iff : HasError (t ++ u) ↔ HasError t ∨ HasError u := by
  simp [HasError, Forest.labels_append]

theorem tree_iff : HasError n.tree ↔ n.kind = .error ∨ HasError n.children := by
  simp [HasError, Node.tree, Forest.labels, eq_comm]

theorem leaf_iff {l : Lexeme} : HasError (.leaf l t) ↔ HasError t := Iff.rfl

theorem nil_iff : HasError .nil ↔ False := by simp [HasError, Forest.labels]

theorem absent : HasError absent := by simp [HasError, Expr.absent, Forest.labels]

theorem wrap_iff {kind : Kind} :
    HasError (n.wrap kind t).tree ↔ kind = .error ∨ HasError n.tree ∨ HasError t := by
  rw [tree_iff, Node.wrap, append_iff]

end Tree.HasError

namespace Node.Means
variable {n m : Node} {e e' : Expr} {vs vs' : List Expr} {l m' r : Lexeme}

/-- A node of another kind than that of embedded values lowers by way of its operands. -/
theorem of_operands {kind : Kind} {children : Tree} (operands : List Expr)
    (hv : kind ≠ .valueExpr) (hk : kind ≠ .error) (hc : ¬ Tree.HasError children)
    (ho : ∀ vals, lowerNodes (arity kind) children (vs ++ vals) = some (operands, vals))
    (ha : assemble kind children operands = some e) : Means ⟨kind, children⟩ e vs := by
  refine ⟨by rw [Tree.HasError.tree_iff]; simp [hk, hc], fun k rest vals => ?_⟩
  have hstep : lowerNodes (k + 1) (.node kind children rest) (vs ++ vals) =
      (lowerNodes k rest vals).bind fun r => some (e :: r.1, r.2) := by
    rw [lowerNodes.eq_def]
    cases kind <;> first | contradiction | simp_all
  rw [hstep]
  cases lowerNodes k rest vals <;> rfl

theorem nameRef (hk : l.kind = .ident) : Means ⟨.nameRef, .leaf l .nil⟩ (var l.text) [] :=
  of_operands [] (by decide) (by decide) (by simp [Tree.HasError, Forest.labels])
    (fun vals => by simp [arity, lowerNodes_leaf, lowerNodes_nil])
    (by simp [assemble, ownName?_leaf hk])

theorem literal {n : Int64} (hn : Decimal.read? l.text = some n) :
    Means ⟨.literal, .leaf l .nil⟩ (int n) [] :=
  of_operands [] (by decide) (by decide) (by simp [Tree.HasError, Forest.labels])
    (fun vals => by simp [arity, lowerNodes_leaf, lowerNodes_nil])
    (by simp [assemble, Tree.text, Forest.leaves, hn])

theorem valueExpr (v : Expr) : Means ⟨.valueExpr, .leaf l .nil⟩ v [v] := by
  refine ⟨by simp [Tree.HasError, Node.tree, Forest.labels], fun k rest vals => ?_⟩
  rw [List.singleton_append, lowerNodes]
  cases lowerNodes k rest vals <;> rfl

theorem call (hl : l.kind = .ident) :
    Means ⟨.callExpr, .leaf l (.leaf m' (.leaf r .nil))⟩ (Expr.call l.text) [] :=
  of_operands [] (by decide) (by decide) (by simp [Tree.HasError, Forest.labels])
    (fun vals => by simp [arity, lowerNodes_leaf, lowerNodes_nil])
    (by simp [assemble, ownName?_leaf hl])

theorem lowers_one (h : n.Means e vs) (rest : Tree) (vals : List Expr) :
    lowerNodes 1 (n.tree ++ rest) (vs ++ vals) = some ([e], vals) := by
  rw [Node.tree, Forest.node_append, Forest.nil_append, h.lowers 0 rest vals]
  simp [lowerNodes]

theorem callWith (h : n.Means e vs) (hl : l.kind = .ident) :
    Means ⟨.callExpr, .leaf l (.leaf m' (n.tree ++ .leaf r .nil))⟩ (Expr.callWith l.text e) vs :=
  of_operands [e] (by decide) (by decide)
    (by simpa [Tree.HasError.leaf_iff, Tree.HasError.append_iff, Tree.HasError.nil_iff]
      using h.clean)
    (fun vals => by simpa [arity, lowerNodes_leaf] using h.lowers_one (.leaf r .nil) vals)
    (by simp [assemble, ownName?_leaf hl])

theorem parens (h : n.Means e vs) :
    Means ⟨.parenExpr, .leaf l (n.tree ++ .leaf r .nil)⟩ (Expr.parens e) vs :=
  of_operands [e] (by decide) (by decide)
    (by simpa [Tree.HasError.leaf_iff, Tree.HasError.append_iff, Tree.HasError.nil_iff]
      using h.clean)
    (fun vals => by simpa [arity, lowerNodes_leaf] using h.lowers_one (.leaf r .nil) vals)
    (by simp [assemble])

theorem inc (h : n.Means e vs) (hl : l.kind = .plusPlus) :
    (n.wrap .postfixExpr (.leaf l .nil)).Means (Expr.inc e) vs :=
  of_operands [e] (by decide) (by decide)
    (by simpa [Tree.HasError.leaf_iff, Tree.HasError.append_iff, Tree.HasError.nil_iff]
      using h.clean)
    (fun vals => h.lowers_one (.leaf l .nil) vals)
    (by simp [assemble, ownOperator?, Node.tree, Forest.ownLeaves, hl])

theorem factorial (h : n.Means e vs) (hl : l.kind = .bang) :
    (n.wrap .postfixExpr (.leaf l .nil)).Means (Expr.factorial e) vs :=
  of_operands [e] (by decide) (by decide)
    (by simpa [Tree.HasError.leaf_iff, Tree.HasError.append_iff, Tree.HasError.nil_iff]
      using h.clean)
    (fun vals => h.lowers_one (.leaf l .nil) vals)
    (by simp [assemble, ownOperator?, Node.tree, Forest.ownLeaves, hl])

theorem field (h : n.Means e vs) (hl : l.kind = .dot) (hr : r.kind = .ident) :
    (n.wrap .fieldExpr (.leaf l (.leaf r .nil))).Means (Expr.field e r.text) vs :=
  of_operands [e] (by decide) (by decide)
    (by simpa [Tree.HasError.leaf_iff, Tree.HasError.append_iff, Tree.HasError.nil_iff]
      using h.clean)
    (fun vals => h.lowers_one (.leaf l (.leaf r .nil)) vals)
    (by simp [assemble, ownName?, Node.tree, Forest.ownLeaves, hl, hr])

theorem binary (h : n.Means e vs) (h' : m.Means e' vs') {j : Expr}
    (hj : joined? l.kind e e' = some j) :
    (n.wrap .binExpr (.leaf l m.tree)).Means j (vs ++ vs') := by
  refine of_operands [e, e'] (by decide) (by decide)
    (by simpa [Tree.HasError.leaf_iff, Tree.HasError.append_iff] using ⟨h.clean, h'.clean⟩)
    (fun vals => ?_) (assemble_binary hj)
  have h₂ := h'.lowers_one .nil vals
  rw [Forest.append_nil] at h₂
  rw [List.append_assoc, Node.tree, Forest.node_append, Forest.nil_append, arity,
    h.lowers 1 (.leaf l m.tree) (vs' ++ vals), lowerNodes_leaf, h₂]
  rfl

end Node.Means

/-! ### Descent and reader -/

/-- What the reader made of `ts`, after an operand over the payloads `vs`, against the node found by
descent: it failed and there is an error, or both have the same left over. -/
def AgreesWith (cells : Cells) (vs : List Expr) (ts : List (Token Expr)) (n : Node × List Lexeme) :
    Option (Expr × List (Token Expr)) → Prop
  | none => Tree.HasError n.1.tree
  | some (e, rest) =>
    n.2 = lexemes cells rest ∧ ∃ taken, ts = taken ++ rest ∧ n.1.Means e (vs ++ payloads taken)

/-- As `AgreesWith`, where descent may have found nothing at all. -/
def FoundWith (cells : Cells) (ts : List (Token Expr)) :
    Option (Node × List Lexeme) → Option (Expr × List (Token Expr)) → Prop
  | none, r => r = none
  | some n, r => AgreesWith cells [] ts n r

section
variable {cells : Cells} {vs : List Expr} {ts ts₂ : List (Token Expr)} {n : Node} {e : Expr}
  {p : Precedence} {fuel least : Nat}

@[simp] theorem lexemes_cons (t : Token Expr) (ts : List (Token Expr)) :
    lexemes cells (t :: ts) = Lexeme.ofToken cells t :: lexemes cells ts := rfl

@[simp] theorem payloads_append (ts us : List (Token Expr)) :
    payloads (ts ++ us) = payloads ts ++ payloads us := by
  simp [payloads]

@[simp] theorem payloads_nil : payloads [] = [] := rfl

theorem payloads_cons {t : Token Expr} (h : tokenKind t ≠ .value) (ts : List (Token Expr)) :
    payloads (t :: ts) = payloads ts := by
  cases t with
  | value v => exact absurd rfl h
  | _ => rfl

theorem AgreesWith.refl (h : n.Means e vs) :
    AgreesWith cells vs ts (n, lexemes cells ts) (some (e, ts)) :=
  ⟨rfl, [], rfl, by simpa using h⟩

theorem AgreesWith.extend (ts₁ : List (Token Expr)) {n : Node × List Lexeme}
    {r : Option (Expr × List (Token Expr))}
    (h : AgreesWith cells (vs ++ payloads ts₁) ts₂ n r) : AgreesWith cells vs (ts₁ ++ ts₂) n r := by
  cases r with
  | none => exact h
  | some r =>
    obtain ⟨hrest, taken, hts, hm⟩ := h
    exact ⟨hrest, ts₁ ++ taken, by rw [hts, List.append_assoc], by simpa using hm⟩

/-- Errors stay in the tree, whatever the node becomes part of. -/
theorem hasError_postfixNode (h : Tree.HasError n.tree) (ls : List Lexeme) :
    Tree.HasError (postfixNode n ls).1.tree := by
  fun_induction postfixNode n ls <;> simp_all [Tree.HasError.wrap_iff]

theorem hasError_climbNode (h : Tree.HasError n.tree) (ls : List Lexeme) :
    Tree.HasError (climbNode p fuel least n ls).1.tree := by
  induction fuel generalizing n ls with
  | zero => simpa only [climbNode] using h
  | succ fuel ih =>
    cases ls with
    | nil => simpa only [climbNode] using h
    | cons l ls =>
      rw [climbNode]
      cases p.bindingPower? l.kind with
      | none => exact h
      | some bp =>
        dsimp only
        split
        · exact h
        · exact ih (Tree.HasError.wrap_iff.2 (.inr (.inl h))) _

theorem agrees_postfix (cells : Cells) (h : n.Means e vs) (ts : List (Token Expr)) :
    AgreesWith cells vs ts (postfixNode n (lexemes cells ts)) (readPostfix cells e ts) := by
  fun_induction readPostfix cells e ts generalizing n vs with
  | case1 => exact .refl h
  | case2 e t ts hk ih =>
    rw [lexemes_cons, postfixNode.eq_def]; simp only [Lexeme.ofToken, hk]
    exact .extend [t] (ih (by simpa [payloads_cons, hk] using h.inc rfl))
  | case3 e t ts hk ih =>
    rw [lexemes_cons, postfixNode.eq_def]; simp only [Lexeme.ofToken, hk]
    exact .extend [t] (ih (by simpa [payloads_cons, hk] using h.factorial rfl))
  | case4 e t hk n' ts hn ih =>
    rw [lexemes_cons, lexemes_cons, postfixNode.eq_def]; simp only [Lexeme.ofToken, hk, hn, if_true]
    exact .extend [t, n'] (ih (by simpa [payloads_cons, hk, hn] using h.field rfl rfl))
  | case5 e t hk n' ts hn =>
    rw [lexemes_cons, lexemes_cons, postfixNode.eq_def]; simp only [Lexeme.ofToken, hk, hn, if_false]
    have herr : Tree.HasError (.leaf ⟨.dot, t.text cells⟩ absent) := Tree.HasError.absent
    exact hasError_postfixNode (Tree.HasError.wrap_iff.2 (.inr (.inr herr))) _
  | case6 e t hk =>
    rw [lexemes_cons, postfixNode.eq_def]; simp only [Lexeme.ofToken, hk]
    exact Tree.HasError.wrap_iff.2 (.inr (.inr .absent))
  | case7 e t ts h₁ h₂ h₃ =>
    rw [lexemes_cons, postfixNode.eq_def]; dsimp only [Lexeme.ofToken]
    split
    · exact absurd ‹_› h₁
    · exact absurd ‹_› h₂
    · exact absurd ‹_› h₃
    · exact .refl h

/-- All rules of the descent agree with the reader while there is `fuel`. -/
structure ReaderAgrees (p : Precedence) (cells : Cells) (fuel : Nat) : Prop where
  expr : ∀ least ts, FoundWith cells ts (exprNode p fuel least (lexemes cells ts))
    (readExpr p cells fuel least ts)
  climb : ∀ least vs n e ts, n.Means e vs → AgreesWith cells vs ts
    (climbNode p fuel least n (lexemes cells ts)) (readClimb p cells fuel least e ts)
  atom : ∀ ts, FoundWith cells ts (atomNode p fuel (lexemes cells ts)) (readAtom p cells fuel ts)
  operand : ∀ ts, (readOperand p cells fuel ts = none ∧
      Tree.HasError (operandTree p fuel (lexemes cells ts)).1) ∨
    ∃ n rest, operandTree p fuel (lexemes cells ts) = (Node.tree n, rest) ∧
      AgreesWith cells [] ts (n, rest) (readOperand p cells fuel ts)

namespace ReaderAgrees

theorem expr_succ (h : ReaderAgrees p cells fuel) (least : Nat) (ts : List (Token Expr)) :
    FoundWith cells ts (exprNode p (fuel + 1) least (lexemes cells ts))
      (readExpr p cells (fuel + 1) least ts) := by
  have ha := h.atom ts
  rw [exprNode, readExpr]
  cases hn : atomNode p fuel (lexemes cells ts) with
  | none =>
    rw [hn] at ha
    have hr : readAtom p cells fuel ts = none := ha
    simp [hr, FoundWith]
  | some n =>
    rw [hn] at ha
    obtain ⟨n, rest⟩ := n
    cases hr : readAtom p cells fuel ts with
    | none =>
      rw [hr] at ha
      exact hasError_climbNode (hasError_postfixNode ha _) _
    | some r =>
      obtain ⟨e, ts'⟩ := r
      rw [hr] at ha
      obtain ⟨hrest, taken, rfl, hm⟩ := ha
      obtain rfl : rest = lexemes cells ts' := hrest
      have hpost := agrees_postfix cells hm ts'
      dsimp only
      cases hq : readPostfix cells e ts' with
      | none =>
        rw [hq] at hpost
        exact hasError_climbNode hpost _
      | some r =>
        obtain ⟨e', ts''⟩ := r
        rw [hq] at hpost
        obtain ⟨hrest, taken', rfl, hm'⟩ := hpost
        dsimp only
        rw [hrest]
        exact ((h.climb least _ _ _ _ hm').extend _).extend _

theorem climb_succ (h : ReaderAgrees p cells fuel) (least : Nat) (vs : List Expr) (n : Node)
    (e : Expr) (ts : List (Token Expr)) (hm : n.Means e vs) :
    AgreesWith cells vs ts (climbNode p (fuel + 1) least n (lexemes cells ts))
      (readClimb p cells (fuel + 1) least e ts) := by
  cases ts with
  | nil => simpa [climbNode, readClimb, lexemes] using .refl hm
  | cons t ts =>
    rw [lexemes_cons, climbNode, readClimb]
    dsimp only [Lexeme.ofToken]
    cases hbp : p.bindingPower? (tokenKind t) with
    | none => exact .refl hm
    | some bp =>
      obtain ⟨left, right⟩ := bp
      dsimp only
      split
      · exact .refl hm
      · have he := h.expr right ts
        have herr : ∀ {u : Tree}, Tree.HasError u → Tree.HasError (n.wrap .binExpr
            (.leaf ⟨tokenKind t, t.text cells⟩ u)).tree := fun hu =>
          Tree.HasError.wrap_iff.2 (.inr (.inr (Tree.HasError.leaf_iff.2 hu)))
        cases hx : exprNode p fuel right (lexemes cells ts) with
        | none =>
          rw [hx] at he
          have hr : readExpr p cells fuel right ts = none := he
          simp only [hr]
          exact hasError_climbNode (herr .absent) _
        | some m =>
          rw [hx] at he
          cases hr : readExpr p cells fuel right ts with
          | none =>
            rw [hr] at he
            exact hasError_climbNode (herr he) _
          | some r =>
            obtain ⟨e', ts'⟩ := r
            rw [hr] at he
            obtain ⟨hrest, taken, rfl, hm'⟩ := he
            dsimp only
            cases hj : joined? (tokenKind t) e e' with
            | none =>
              cases hk : tokenKind t <;>
                simp_all [joined?, Precedence.bindingPower?, Precedence.level?]
            | some j =>
              dsimp only
              have hk : tokenKind t ≠ .value := fun hk => by
                rw [hk] at hj; simp [joined?] at hj
              rw [hrest]
              refine .extend (t :: taken) (h.climb least _ _ _ _ ?_)
              rw [payloads_cons hk]
              exact hm.binary (l := ⟨tokenKind t, t.text cells⟩) hm' hj

theorem operand_succ (h : ReaderAgrees p cells fuel) (ts : List (Token Expr)) :
    (readOperand p cells (fuel + 1) ts = none ∧
      Tree.HasError (operandTree p (fuel + 1) (lexemes cells ts)).1) ∨
    ∃ n rest, operandTree p (fuel + 1) (lexemes cells ts) = (Node.tree n, rest) ∧
      AgreesWith cells [] ts (n, rest) (readOperand p cells (fuel + 1) ts) := by
  have he := h.expr 0 ts
  rw [operandTree, readOperand]
  cases hn : exprNode p fuel 0 (lexemes cells ts) with
  | none =>
    rw [hn] at he
    exact .inl ⟨he, .absent⟩
  | some n =>
    rw [hn] at he
    exact .inr ⟨n.1, n.2, rfl, he⟩

/-- The closing bracket of an operand: it is there on both sides, or there is an error. -/
theorem expectLeaf_lexemes (cells : Cells) (ts : List (Token Expr)) :
    (afterClose? ts = none ∧ Tree.HasError (expectLeaf .rparen (lexemes cells ts)).1) ∨
    ∃ t rest, ts = t :: rest ∧ tokenKind t = .rparen ∧ afterClose? ts = some rest ∧
      expectLeaf .rparen (lexemes cells ts) =
        (.leaf (Lexeme.ofToken cells t) .nil, lexemes cells rest) := by
  cases ts with
  | nil => exact .inl ⟨rfl, .absent⟩
  | cons t ts =>
    by_cases hk : tokenKind t = .rparen
    · exact .inr ⟨t, ts, rfl, hk, by simp [afterClose?, hk], by
        simp [expectLeaf, Lexeme.ofToken, hk]⟩
    · refine .inl ⟨by simp [afterClose?, hk], ?_⟩
      simpa [expectLeaf, Lexeme.ofToken, hk] using Tree.HasError.absent

/-- An operand and its closing bracket: both are there, or the reader fails and there is an
error. -/
theorem bracketed (h : ReaderAgrees p cells fuel) (ts : List (Token Expr)) :
    let o := operandTree p fuel (lexemes cells ts)
    let c := expectLeaf .rparen o.2
    (Tree.HasError (o.1 ++ c.1) ∧
      ∀ e rest, readOperand p cells fuel ts = some (e, rest) → afterClose? rest = none) ∨
    ∃ n e taken t rest, ts = taken ++ t :: rest ∧ tokenKind t = .rparen ∧ o.1 = Node.tree n ∧
      c = (.leaf (Lexeme.ofToken cells t) .nil, lexemes cells rest) ∧
      readOperand p cells fuel ts = some (e, t :: rest) ∧ n.Means e (payloads taken) := by
  intro o c
  rcases h.operand ts with ⟨hr, herr⟩ | ⟨n, rest, ho, hn⟩
  · exact .inl ⟨Tree.HasError.append_iff.2 (.inl herr), by simp [hr]⟩
  · cases hr : readOperand p cells fuel ts with
    | none =>
      rw [hr] at hn
      refine .inl ⟨Tree.HasError.append_iff.2 (.inl ?_), by simp⟩
      rw [show o = _ from ho]
      exact hn
    | some r =>
      obtain ⟨e, ts'⟩ := r
      rw [hr] at hn
      obtain ⟨hrest, taken, rfl, hm⟩ := hn
      obtain rfl : rest = lexemes cells ts' := hrest
      have ho₂ : o.2 = lexemes cells ts' := by rw [show o = _ from ho]
      rcases expectLeaf_lexemes cells ts' with ⟨hc, herr⟩ | ⟨t, rest, rfl, hk, hc, hx⟩
      · refine .inl ⟨Tree.HasError.append_iff.2 (.inr ?_), ?_⟩
        · show Tree.HasError (expectLeaf .rparen o.2).1
          rwa [ho₂]
        · rintro e' rest' ⟨⟩
          exact hc
      · exact .inr ⟨n, e, taken, t, rest, rfl, hk, by rw [show o = _ from ho],
          by rw [← hx, ← ho₂], rfl, by simpa using hm⟩

theorem atom_succ (h : ReaderAgrees p cells fuel) (ts : List (Token Expr)) :
    FoundWith cells ts (atomNode p (fuel + 1) (lexemes cells ts))
      (readAtom p cells (fuel + 1) ts) := by
  cases ts with
  | nil => simp [atomNode, readAtom, lexemes, FoundWith]
  | cons t ts =>
    rw [lexemes_cons, atomNode.eq_def, readAtom.eq_def]
    dsimp only [Lexeme.ofToken]
    -- a node over the one token `t`
    have single : ∀ {n : Node} {e : Expr}, n.Means e (payloads [t]) →
        FoundWith cells (t :: ts) (some (n, lexemes cells ts)) (some (e, ts)) :=
      fun hm => ⟨rfl, [t], rfl, by simpa using hm⟩
    have hnone : tokenKind t ≠ .value → payloads [t] = [] := fun hk => payloads_cons hk []
    cases hk : tokenKind t
    case ident =>
      have hname := Node.Means.nameRef (l := ⟨.ident, t.text cells⟩) rfl
      rw [← hnone (by simp [hk])] at hname
      cases ts with
      | nil => exact single hname
      | cons m ts =>
        rw [lexemes_cons]
        dsimp only [Lexeme.ofToken]
        by_cases hm : tokenKind m = .lparen
        case neg => simp only [hm, if_false]; exact single hname
        simp only [hm, if_true]
        rcases expectLeaf_lexemes cells ts with ⟨hc, -⟩ | ⟨r, rest, rfl, hr, hc, hx⟩
        · have hpeek : peek (lexemes cells ts) ≠ .rparen := by
            cases ts with
            | nil => simp [peek, lexemes]
            | cons r ts =>
              intro h
              simp [afterClose?, show tokenKind r = .rparen from h] at hc
          simp only [hpeek, if_false, hc]
          rcases h.bracketed ts with ⟨herr, hr⟩ | ⟨n, e, taken, r, rest, rfl, hr, ho, hx, hro, hm'⟩
          · cases hro : readOperand p cells fuel ts with
            | none => exact Tree.HasError.tree_iff.2 (.inr herr)
            | some r =>
              simp only [hr r.1 r.2 hro, Option.map_none]
              exact Tree.HasError.tree_iff.2 (.inr herr)
          · simp only [hro, hx, ho, afterClose?, hr, if_true, Option.map_some]
            refine ⟨rfl, t :: m :: (taken ++ [r]), by simp, ?_⟩
            simpa [payloads_cons, hk, hm, hr] using hm'.callWith rfl
        · have hpeek : peek (lexemes cells (r :: rest)) = .rparen := hr
          simp only [hpeek, if_true, hc, hx]
          refine ⟨rfl, [t, m, r], by simp, ?_⟩
          simpa [payloads_cons, hk, hm, hr] using Node.Means.call rfl
    case int =>
      obtain ⟨n, hn⟩ := Option.isSome_iff_exists.1 (isSome_read?_of_tokenKind_int cells hk)
      have hlit := Node.Means.literal (l := ⟨.int, t.text cells⟩) hn
      rw [← hnone (by simp [hk])] at hlit
      simp only [hn, Option.map_some]
      exact single hlit
    case value =>
      obtain ⟨v, rfl⟩ := exists_of_tokenKind_value hk
      exact single (Node.Means.valueExpr v)
    case lparen =>
      rcases h.bracketed ts with ⟨herr, hr⟩ | ⟨n, e, taken, r, rest, rfl, hr, ho, hx, hro, hm'⟩
      · cases hro : readOperand p cells fuel ts with
        | none => exact Tree.HasError.tree_iff.2 (.inr herr)
        | some r =>
          simp only [hr r.1 r.2 hro, Option.map_none]
          exact Tree.HasError.tree_iff.2 (.inr herr)
      · simp only [hro, hx, ho, afterClose?, hr, if_true, Option.map_some]
        refine ⟨rfl, t :: (taken ++ [r]), by simp, ?_⟩
        simpa [payloads_cons, hk, hr] using hm'.parens
    case eof => exact rfl
    case rparen => exact rfl
    all_goals exact Tree.HasError.tree_iff.2 (.inl rfl)

theorem all (p : Precedence) (cells : Cells) (fuel : Nat) : ReaderAgrees p cells fuel := by
  induction fuel with
  | zero =>
    exact ⟨fun _ _ => by simp [exprNode, readExpr, FoundWith],
      fun _ _ _ _ _ h => by simpa only [climbNode, readClimb] using .refl h,
      fun _ => by simp [atomNode, readAtom, FoundWith],
      fun _ => .inl ⟨by simp only [readOperand], by simpa only [operandTree] using .absent⟩⟩
  | succ fuel ih => exact ⟨ih.expr_succ, ih.climb_succ, ih.atom_succ, ih.operand_succ⟩

end ReaderAgrees

theorem readOperand_nil (fuel : Nat) : readOperand p cells fuel [] = none := by
  rcases fuel with _ | _ | _ | fuel <;> simp [readOperand, readExpr, readAtom]

theorem lower_eq_none {t : Tree} (h : Tree.HasError t) (vals : List Expr) : lower t vals = none := by
  rw [lower, if_pos (by simpa [Tree.HasError] using h)]

theorem lower_root {n : Node} {e : Expr} {vs : List Expr} (h : n.Means e vs) :
    lower (.node .root n.tree .nil) vs = some e := by
  have hclean : ¬ Tree.HasError (.node .root n.tree .nil) := by
    simpa [Tree.HasError, Forest.labels] using h.clean
  have hlow := h.lowers_one .nil []
  rw [Forest.append_nil, List.append_nil] at hlow
  rw [lower, if_neg (by simpa [Tree.HasError] using hclean)]
  simp [Forest.firstNode?, hlow]

/-- Lowering the syntax tree of a row comes to reading the row. -/
theorem parse_eq_read (p : Precedence) (cells : Cells) (ts : List (Token Expr)) :
    parse p cells ts = read p cells ts := by
  rw [parse, parseLexemes_eq_descend, read]
  change lower (descend p (lexemes cells ts)) (payloads ts) = _
  cases ts with
  | nil => rw [readOperand_nil]; rfl
  | cons t ts =>
    have hroot : ∀ {u v : Tree}, Tree.HasError u ∨ Tree.HasError v →
        Tree.HasError (.node .root (u ++ v) .nil) := fun h =>
      Tree.HasError.tree_iff (n := ⟨.root, _⟩).2 (.inr (Tree.HasError.append_iff.2 h))
    rw [descend, if_neg (by simp)]
    rcases (ReaderAgrees.all p cells (fuelFor (lexemes cells (t :: ts)))).operand (t :: ts) with
      ⟨hr, herr⟩ | ⟨n, rest, ho, hn⟩
    · rw [hr, lower_eq_none (hroot (.inl herr))]
    · simp only [ho]
      cases hr : readOperand p cells (fuelFor (lexemes cells (t :: ts))) (t :: ts) with
      | none =>
        rw [hr] at hn
        rw [lower_eq_none (hroot (.inl hn))]
      | some r =>
        obtain ⟨e, rest'⟩ := r
        rw [hr] at hn
        obtain ⟨hrest, taken, hts, hm⟩ := hn
        obtain rfl : rest = lexemes cells rest' := hrest
        cases rest' with
        | nil =>
          rw [List.append_nil] at hts
          rw [hts]
          simpa [lexemes] using lower_root hm
        | cons u us =>
          refine lower_eq_none (hroot (.inr ?_)) _
          simp [lexemes, Tree.HasError, Forest.labels]

/-- The expression read from a row is the meaning of a node over its payloads. -/
theorem exists_means_of_parse {ts : List (Token Expr)} {e : Expr} (h : parse p cells ts = some e) :
    ∃ n : Node, n.Means e (payloads ts) := by
  rw [parse_eq_read, read] at h
  split at h
  · rename_i e' hread
    cases h
    rcases (ReaderAgrees.all p cells (fuelFor (lexemes cells ts))).operand ts with
      ⟨hnone, -⟩ | ⟨n, rest, -, hn⟩
    · rw [hnone] at hread
      cases hread
    · rw [hread] at hn
      obtain ⟨-, taken, hts, hm⟩ := hn
      rw [List.append_nil] at hts
      exact ⟨n, hts ▸ hm⟩
  · cases h

end

end TokenEditor.Expr
