import TokenEditor.Proofs.Replay

/-! # Recursive descent

The grammar once more, by rules that return the nodes they find: to make a node part of a larger
one is to put it first among the children of a new node. `parseLexemes_eq_descend`: the events of
the grammar replay to the tree found by descent, for every list of lexemes. -/

namespace TokenEditor.Expr

/-- A node with its children. -/
structure Node where
  kind : Kind
  children : Tree

namespace Node

def tree (n : Node) : Tree := .node n.kind n.children .nil

/-- Make the node the first child of a new one that goes on with `rest`. -/
def wrap (n : Node) (kind : Kind) (rest : Tree) : Node := ⟨kind, n.tree ++ rest⟩

end Node

/-- An empty error node where something is missing. -/
def absent : Tree := .node .error .nil .nil

/-- A lexeme of the kind, or an error node in its place. -/
def expectLeaf (kind : Kind) : List Lexeme → Tree × List Lexeme
  | [] => (absent, [])
  | l :: ls => if l.kind = kind then (.leaf l .nil, ls) else (absent, l :: ls)

/-- Postfix operators after the operand `n`. -/
def postfixNode (n : Node) : List Lexeme → Node × List Lexeme
  | [] => (n, [])
  | l :: ls =>
    match l.kind with
    | .plusPlus | .bang => postfixNode (n.wrap .postfixExpr (.leaf l .nil)) ls
    | .dot =>
      match ls with
      | m :: ls' =>
        if m.kind = .ident then postfixNode (n.wrap .fieldExpr (.leaf l (.leaf m .nil))) ls'
        else postfixNode (n.wrap .fieldExpr (.leaf l absent)) (m :: ls')
      | [] => (n.wrap .fieldExpr (.leaf l absent), [])
    | _ => (n, l :: ls)

mutual

/-- An expression whose operators all bind at least as tightly as `least`. -/
def exprNode (p : Precedence) : Nat → Nat → List Lexeme → Option (Node × List Lexeme)
  | 0, _, _ => none
  | fuel + 1, least, ls =>
    match atomNode p fuel ls with
    | none => none
    | some (n, ls) =>
      let (n, ls) := postfixNode n ls
      some (climbNode p fuel least n ls)

/-- Operators that bind at least as tightly as `least` after the operand `n`. -/
def climbNode (p : Precedence) : Nat → Nat → Node → List Lexeme → Node × List Lexeme
  | 0, _, n, ls => (n, ls)
  | _ + 1, _, n, [] => (n, [])
  | fuel + 1, least, n, l :: ls =>
    match p.bindingPower? l.kind with
    | none => (n, l :: ls)
    | some (left, right) =>
      if left < least then (n, l :: ls)
      else
        let (operand, ls) :=
          match exprNode p fuel right ls with
          | some (m, ls) => (m.tree, ls)
          | none => (absent, ls)
        climbNode p fuel least (n.wrap .binExpr (.leaf l operand)) ls

/-- An operand without operators. -/
def atomNode (p : Precedence) : Nat → List Lexeme → Option (Node × List Lexeme)
  | 0, _ => none
  | _ + 1, [] => none
  | fuel + 1, l :: ls =>
    match l.kind with
    | .ident =>
      match ls with
      | m :: ls' =>
        if m.kind = .lparen then
          let (argument, ls) :=
            if peek ls' = .rparen then (.nil, ls') else operandTree p fuel ls'
          let (close, ls) := expectLeaf .rparen ls
          some (⟨.callExpr, .leaf l (.leaf m (argument ++ close))⟩, ls)
        else some (⟨.nameRef, .leaf l .nil⟩, m :: ls')
      | [] => some (⟨.nameRef, .leaf l .nil⟩, [])
    | .int => some (⟨.literal, .leaf l .nil⟩, ls)
    | .value => some (⟨.valueExpr, .leaf l .nil⟩, ls)
    | .lparen =>
      let (inner, ls) := operandTree p fuel ls
      let (close, ls) := expectLeaf .rparen ls
      some (⟨.parenExpr, .leaf l (inner ++ close)⟩, ls)
    | .eof | .rparen => none
    | _ => some (⟨.error, .leaf l .nil⟩, ls)

/-- An expression, or an error node where there is none. -/
def operandTree (p : Precedence) (fuel : Nat) (ls : List Lexeme) : Tree × List Lexeme :=
  match fuel with
  | 0 => (absent, ls)
  | fuel + 1 =>
    match exprNode p fuel 0 ls with
    | some (n, ls) => (n.tree, ls)
    | none => (absent, ls)

end

/-- The lexemes as a row of leaves. -/
def leavesOf : List Lexeme → Tree
  | [] => .nil
  | l :: ls => .leaf l (leavesOf ls)

/-- The syntax tree of a list of lexemes, found by descent. -/
def descend (p : Precedence) (ls : List Lexeme) : Tree :=
  let (body, rest) := if ls.isEmpty then (.nil, []) else operandTree p (fuelFor ls) ls
  let trailing := if rest.isEmpty then .nil else .node .error (leavesOf rest) .nil
  .node .root (body ++ trailing) .nil

namespace Layer

theorem render_concat (base : Nat) {ls : List Layer} (hls : ls ≠ []) (l : Layer) :
    render base (ls ++ [l]) =
      (render base ls).modify (lastStart ls) (Event.relink (base + (render base ls).length)) ++
        .start l.kind none :: (l.body ++ [.finish]) := by
  induction ls generalizing base with
  | nil => exact absurd rfl hls
  | cons m ls ih =>
    cases ls with
    | nil => simp [render, linkTo, lastStart, Event.relink, Nat.add_assoc]
    | cons m' ls =>
      have hpre : render base (m :: m' :: ls) =
          (.start m.kind (some (base + m.body.length + 2)) :: (m.body ++ [.finish])) ++
            render (base + m.body.length + 2) (m' :: ls) := by
        simp [render, linkTo]
      have hstart : lastStart (m :: m' :: ls) =
          (Event.start m.kind (some (base + m.body.length + 2)) :: (m.body ++ [.finish])).length +
            lastStart (m' :: ls) := by
        simp [lastStart]
      have hlen : base + (render base (m :: m' :: ls)).length =
          base + m.body.length + 2 + (render (base + m.body.length + 2) (m' :: ls)).length := by
        simp [hpre]; omega
      have ih := ih (base + m.body.length + 2) (by simp)
      rw [hlen, hpre, hstart, List.modify, List.modifyTailIdx_add, List.append_assoc, ← List.modify,
        ← ih]
      simp [render, linkTo]

theorem lastStart_concat (base : Nat) {ls : List Layer} (hls : ls ≠ []) (l : Layer) :
    lastStart (ls ++ [l]) = (render base ls).length := by
  induction ls generalizing base with
  | nil => exact absurd rfl hls
  | cons m ls ih =>
    cases ls with
    | nil => simp [lastStart, render]
    | cons m' ls =>
      have ih := ih (base + m.body.length + 2) (by simp)
      simp only [List.cons_append, lastStart, render, List.length_cons, List.length_append] at ih ⊢
      omega

end Layer

/-- The fragment, placed from `base` on, takes `ls` and stands for the node `n`: it accounts for
it, and is a chain that grows into it. -/
structure Fragment.Stands (base : Nat) (f : Fragment) (ls : List Lexeme) (n : Node) : Prop where
  accounts : Event.Accounts f.events ls n.tree
  chain : ∃ layers, layers ≠ [] ∧ f.events = Layer.render base layers ∧
    f.head = Layer.lastStart layers ∧ Layer.Playing base layers ∧
    layers.flatMap Layer.taken = ls ∧ Layer.grow .nil layers = n.tree

namespace Fragment
variable {base : Nat} {f : Fragment} {ls ls' : List Lexeme} {n : Node} {body : List Event} {t : Tree}

theorem stands_node (kind : Kind) (h : Event.Describes (base + 1) body ls t)
    (hk : kind ≠ .root := by decide) : (node kind body).Stands base ls ⟨kind, t⟩ :=
  ⟨h.node hk, [⟨kind, body, ls, t⟩], by simp, rfl, rfl, ⟨h.plays, trivial⟩, by simp, rfl⟩

theorem wrap_events (base : Nat) (f : Fragment) (kind : Kind) (body : List Event) :
    (f.wrap base kind body).events =
      f.events.modify f.head (Event.relink (base + f.events.length)) ++
        .start kind none :: (body ++ [.finish]) := by
  simp only [Fragment.wrap, List.append_assoc, List.cons_append]
  congr 2

theorem Stands.wrap (h : f.Stands base ls n) (kind : Kind)
    (hb : Event.Describes (base + f.events.length + 1) body ls' t)
    (hk : kind ≠ .root := by decide) :
    (f.wrap base kind body).Stands base (ls ++ ls') (n.wrap kind t) := by
  obtain ⟨hacc, layers, hne, hev, hhead, hplay, rfl, hgrow⟩ := h
  have hbody := hb.plays
  rw [hev] at hbody
  refine ⟨?_, layers ++ [⟨kind, body, ls', t⟩], by simp, ?_, ?_, Layer.playing_concat hplay hbody,
    by simp, ?_⟩
  · rw [wrap_events]
    exact (hacc.modify_relink _ _).wrap hb.toAccounts hk
  · rw [Layer.render_concat base hne, wrap_events, hev, hhead]
  · rw [Layer.lastStart_concat base hne, ← hev]
    rfl
  · rw [Layer.grow_concat, hgrow]
    rfl

theorem Stands.describes (h : f.Stands base ls n) :
    Event.Describes base f.events ls n.tree := by
  obtain ⟨hacc, layers, -, hev, -, hplay, rfl, hgrow⟩ := h
  refine ⟨hacc, ?_⟩
  rw [hev, ← hgrow]
  exact Layer.plays_render hplay

end Fragment

/-! ### Rules and their descent -/

/-- Events and the tree they stand for, found in `ls` with the same lexemes left over. -/
def ReadsAs (base : Nat) (ls : List Lexeme) (es : List Event × List Lexeme)
    (t : Tree × List Lexeme) : Prop :=
  es.2 = t.2 ∧ ∃ taken, ls = taken ++ t.2 ∧ Event.Describes base es.1 taken t.1

/-- An operand grown from one over `before` by lexemes of `ls`. -/
def GrowsAs (base : Nat) (before ls : List Lexeme) (f : Fragment × List Lexeme)
    (n : Node × List Lexeme) : Prop :=
  f.2 = n.2 ∧ ∃ taken, ls = taken ++ n.2 ∧ f.1.Stands base (before ++ taken) n.1

/-- An operand found in `ls`, where it takes at least one lexeme, or none on both sides. -/
def FindsAs (base : Nat) (ls : List Lexeme) :
    Option (Fragment × List Lexeme) → Option (Node × List Lexeme) → Prop
  | none, none => True
  | some f, some n => f.2.length < ls.length ∧ GrowsAs base [] ls f n
  | _, _ => False

section
variable {base : Nat} {before ls ls₁ ls₂ : List Lexeme} {f : Fragment} {n : Node}

theorem FindsAs.of_none {n? : Option (Node × List Lexeme)} (h : FindsAs base ls none n?) :
    n? = none := by
  cases n? with
  | none => rfl
  | some n => exact h.elim

theorem FindsAs.of_some {rest : List Lexeme} {n? : Option (Node × List Lexeme)}
    (h : FindsAs base ls (some (f, rest)) n?) :
    rest.length < ls.length ∧
      ∃ n taken, n? = some (n, rest) ∧ ls = taken ++ rest ∧ f.Stands base taken n := by
  cases n? with
  | none => exact h.elim
  | some found =>
    obtain ⟨hlt, rfl, taken, hls, hst⟩ := h
    exact ⟨hlt, found.1, taken, rfl, hls, hst⟩

theorem describes_missing : Event.Describes base missing [] absent :=
  (Fragment.stands_node .error .nil).describes

theorem GrowsAs.refl (h : f.Stands base before n) : GrowsAs base before ls (f, ls) (n, ls) :=
  ⟨rfl, [], rfl, by simpa using h⟩

theorem GrowsAs.length_le {f' : Fragment × List Lexeme} {n' : Node × List Lexeme}
    (h : GrowsAs base before ls f' n') : f'.2.length ≤ ls.length := by
  obtain ⟨hrest, taken, rfl, -⟩ := h
  rw [hrest, List.length_append]
  exact Nat.le_add_left _ _

/-- What an operand grown over `ls₁` grows into over `ls₂`, it grows into over both. -/
theorem GrowsAs.extend {f' : Fragment × List Lexeme} {n' : Node × List Lexeme}
    (h : GrowsAs base (before ++ ls₁) ls₂ f' n') : GrowsAs base before (ls₁ ++ ls₂) f' n' := by
  obtain ⟨hrest, taken, hls, hst⟩ := h
  exact ⟨hrest, ls₁ ++ taken, by rw [hls, List.append_assoc], by rwa [← List.append_assoc]⟩

theorem readsAs_expect (base : Nat) (kind : Kind) (ls : List Lexeme) :
    ReadsAs base ls (expect kind ls) (expectLeaf kind ls) := by
  cases ls with
  | nil => exact ⟨rfl, [], rfl, describes_missing⟩
  | cons l ls =>
    rw [expect, expectLeaf]
    split
    case isTrue h => exact ⟨rfl, [l], rfl, h ▸ Event.Describes.token l⟩
    case isFalse => exact ⟨rfl, [], rfl, describes_missing⟩

theorem growsAs_postfixes (h : f.Stands base before n) (ls : List Lexeme) :
    GrowsAs base before ls (postfixes base f ls) (postfixNode n ls) := by
  fun_induction postfixNode n ls generalizing f before with
  | case1 => exact .refl h
  | case2 n l ls hk ih =>
    rw [postfixes.eq_def]; simp only [hk]
    exact (ih (h.wrap .postfixExpr (hk ▸ Event.Describes.token l))).extend
  | case3 n l ls hk ih =>
    rw [postfixes.eq_def]; simp only [hk]
    exact (ih (h.wrap .postfixExpr (hk ▸ Event.Describes.token l))).extend
  | case4 n l hk m ls hm ih =>
    rw [postfixes.eq_def]; simp only [hk, hm, if_true]
    have hb : Event.Describes (base + f.events.length + 1) _ _ _ := (Event.Describes.token m).cons l
    rw [hk, hm] at hb
    exact (ih (h.wrap .fieldExpr hb)).extend
  | case5 n l hk m ls hm ih =>
    rw [postfixes.eq_def]; simp only [hk, hm, if_false]
    have hb : Event.Describes (base + f.events.length + 1) _ _ _ := describes_missing.cons l
    rw [hk] at hb
    exact (ih (h.wrap .fieldExpr hb)).extend
  | case6 n l hk =>
    rw [postfixes.eq_def]; simp only [hk]
    have hb : Event.Describes (base + f.events.length + 1) _ _ _ := describes_missing.cons l
    rw [hk] at hb
    exact GrowsAs.extend (.refl (h.wrap .fieldExpr hb))
  | case7 n l ls h₁ h₂ h₃ =>
    rw [postfixes.eq_def]; dsimp only
    split
    · exact absurd ‹_› h₁
    · exact absurd ‹_› h₂
    · exact absurd ‹_› h₃
    · exact .refl h

/-- All rules agree with their descent while there is `fuel`. -/
structure RulesAgree (p : Precedence) (fuel : Nat) : Prop where
  expr : ∀ base least ls, FindsAs base ls (exprFrom p fuel base least ls) (exprNode p fuel least ls)
  climb : ∀ base least before f n ls, f.Stands base before n →
    GrowsAs base before ls (climb p fuel base least f ls) (climbNode p fuel least n ls)
  atom : ∀ base ls, FindsAs base ls (atom p fuel base ls) (atomNode p fuel ls)
  operand : ∀ base ls, ReadsAs base ls (operand p fuel base ls) (operandTree p fuel ls)

namespace RulesAgree
variable {p : Precedence} {fuel : Nat}

theorem expr_succ (h : RulesAgree p fuel) (base least : Nat) (ls : List Lexeme) :
    FindsAs base ls (exprFrom p (fuel + 1) base least ls) (exprNode p (fuel + 1) least ls) := by
  have ha := h.atom base ls
  rw [exprFrom, exprNode]
  cases hf : Expr.atom p fuel base ls with
  | none =>
    rw [hf] at ha
    rw [ha.of_none]
    trivial
  | some found =>
    obtain ⟨f, rest⟩ := found
    rw [hf] at ha
    obtain ⟨hlt, n, taken, hn, rfl, hst⟩ := ha.of_some
    have hpost := growsAs_postfixes hst rest
    rw [hn]
    dsimp only
    generalize postfixes base f rest = f', postfixNode n rest = n' at hpost ⊢
    obtain ⟨hrest, taken', rfl, hst'⟩ := hpost
    rw [hrest]
    have hclimb := (h.climb base least _ f'.1 n'.1 n'.2 hst').extend
    exact ⟨Nat.lt_of_le_of_lt hclimb.length_le hlt, hclimb.extend⟩

theorem climb_succ (h : RulesAgree p fuel) (base least : Nat) (before : List Lexeme) (f : Fragment)
    (n : Node) (ls : List Lexeme) (hst : f.Stands base before n) :
    GrowsAs base before ls (Expr.climb p (fuel + 1) base least f ls)
      (climbNode p (fuel + 1) least n ls) := by
  cases ls with
  | nil => simpa only [Expr.climb, climbNode] using .refl hst
  | cons l ls =>
    rw [Expr.climb, climbNode]
    cases p.bindingPower? l.kind with
    | none => exact .refl hst
    | some bp =>
      obtain ⟨left, right⟩ := bp
      dsimp only
      split
      · exact .refl hst
      · have he := h.expr (base + f.events.length + 2) right ls
        cases hf : exprFrom p fuel (base + f.events.length + 2) right ls with
        | none =>
          rw [hf] at he
          rw [he.of_none]
          have hb : Event.Describes (base + f.events.length + 1) _ _ _ := describes_missing.cons l
          exact (h.climb _ _ _ _ _ _ (hst.wrap .binExpr hb)).extend
        | some found =>
          obtain ⟨g, rest⟩ := found
          rw [hf] at he
          obtain ⟨-, m, taken, hm, rfl, hg⟩ := he.of_some
          rw [hm]
          have hb : Event.Describes (base + f.events.length + 1) _ _ _ := hg.describes.cons l
          exact (h.climb _ _ _ _ _ _ (hst.wrap .binExpr hb)).extend

theorem operand_succ (h : RulesAgree p fuel) (base : Nat) (ls : List Lexeme) :
    ReadsAs base ls (Expr.operand p (fuel + 1) base ls) (operandTree p (fuel + 1) ls) := by
  have he := h.expr base 0 ls
  rw [Expr.operand, operandTree]
  cases hf : exprFrom p fuel base 0 ls with
  | none =>
    rw [hf] at he
    rw [he.of_none]
    exact ⟨rfl, [], rfl, describes_missing⟩
  | some found =>
    obtain ⟨f, rest⟩ := found
    rw [hf] at he
    obtain ⟨-, n, taken, hn, hls, hst⟩ := he.of_some
    rw [hn]
    exact ⟨rfl, taken, hls, hst.describes⟩

theorem reads_bracketed {base : Nat} {ls : List Lexeme} {es : List Event × List Lexeme}
    {t : Tree × List Lexeme} (h : ReadsAs base ls es t) :
    ReadsAs base ls (es.1 ++ (expect .rparen es.2).1, (expect .rparen es.2).2)
      (t.1 ++ (expectLeaf .rparen t.2).1, (expectLeaf .rparen t.2).2) := by
  obtain ⟨hrest, taken, rfl, hdesc⟩ := h
  rw [hrest]
  obtain ⟨hrest', taken', hls, hdesc'⟩ :=
    readsAs_expect (base + es.1.length) .rparen t.2
  refine ⟨hrest', taken ++ taken', ?_, hdesc.append hdesc'⟩
  rw [List.append_assoc, ← hls]

theorem length_lt_of_rest {ls rest rest' taken : List Lexeme} (hrest : rest = rest')
    (hls : ls = taken ++ rest') (front : List Lexeme) (hf : front ≠ []) :
    rest.length < (front ++ ls).length := by
  have := List.length_pos_iff.2 hf
  simp only [hrest, hls, List.length_append]
  omega

theorem atom_succ (h : RulesAgree p fuel) (base : Nat) (ls : List Lexeme) :
    FindsAs base ls (Expr.atom p (fuel + 1) base ls) (atomNode p (fuel + 1) ls) := by
  cases ls with
  | nil => simp [Expr.atom, atomNode, FindsAs]
  | cons l ls =>
    -- a node over the one lexeme `l`
    have single : ∀ kind k, l.kind = k → kind ≠ .root →
        FindsAs base (l :: ls) (some (.node kind [.token k], ls))
          (some (⟨kind, .leaf l .nil⟩, ls)) :=
      fun kind k hk hroot => ⟨Nat.lt_succ_self _, rfl, [l], rfl,
        Fragment.stands_node kind (hk ▸ Event.Describes.token l) hroot⟩
    rw [Expr.atom.eq_def, atomNode.eq_def]
    dsimp only
    cases hk : l.kind
    case ident =>
      cases ls with
      | nil => exact single _ _ hk (by decide)
      | cons m ls =>
        dsimp only
        by_cases hm : m.kind = .lparen
        · simp only [hm, if_true]
          have harg : ReadsAs (base + 3) ls
              (if peek ls = .rparen then ([], ls) else Expr.operand p fuel (base + 3) ls)
              (if peek ls = .rparen then (.nil, ls) else operandTree p fuel ls) := by
            split
            · exact ⟨rfl, [], rfl, .nil⟩
            · exact h.operand _ _
          obtain ⟨hrest, taken, hls, hdesc⟩ := reads_bracketed harg
          have hbody := (hdesc.cons m).cons l
          rw [hk, hm] at hbody
          refine ⟨length_lt_of_rest hrest hls [l, m] (by simp), hrest, l :: m :: taken,
            by simpa using hls, ?_⟩
          simpa using Fragment.stands_node .callExpr hbody
        · simp only [hm, if_false]
          exact single _ _ hk (by decide)
    case int => exact single _ _ hk (by decide)
    case value => exact single _ _ hk (by decide)
    case lparen =>
      obtain ⟨hrest, taken, hls, hdesc⟩ := reads_bracketed (h.operand (base + 2) ls)
      have hbody := hdesc.cons l
      rw [hk] at hbody
      refine ⟨length_lt_of_rest hrest hls [l] (by simp), hrest, l :: taken, by simpa using hls, ?_⟩
      simpa using Fragment.stands_node .parenExpr hbody
    case eof => trivial
    case rparen => trivial
    all_goals exact single _ _ hk (by decide)

theorem all (p : Precedence) (fuel : Nat) : RulesAgree p fuel := by
  induction fuel with
  | zero =>
    exact ⟨fun _ _ _ => by simp [exprFrom, exprNode, FindsAs],
      fun _ _ _ _ _ _ h => by simpa only [Expr.climb, climbNode] using .refl h,
      fun _ _ => by simp [Expr.atom, atomNode, FindsAs],
      fun _ _ => by simpa only [Expr.operand, operandTree] using ⟨rfl, [], rfl, describes_missing⟩⟩
  | succ fuel ih => exact ⟨ih.expr_succ, ih.climb_succ, ih.atom_succ, ih.operand_succ⟩

end RulesAgree

theorem describes_leavesOf (base : Nat) (ls : List Lexeme) :
    Event.Describes base (ls.map fun l => .token l.kind) ls (leavesOf ls) := by
  induction ls generalizing base with
  | nil => exact .nil
  | cons l ls ih => exact (ih _).cons l

theorem describes_trailing (base : Nat) (rest : List Lexeme) :
    Event.Describes base
      (if rest.isEmpty then []
        else .start .error none :: rest.map (fun l => .token l.kind) ++ [.finish]) rest
      (if rest.isEmpty then .nil else .node .error (leavesOf rest) .nil) := by
  cases rest with
  | nil => exact .nil
  | cons l ls =>
    exact (Fragment.stands_node .error (describes_leavesOf (base + 1) (l :: ls))).describes

/-- The events of a region are those of its root around others that describe the children of the
root. -/
theorem rootEvents_describes (p : Precedence) (ls : List Lexeme) :
    ∃ body children, rootEvents p ls = .start .root none :: (body ++ [.finish]) ∧
      descend p ls = .node .root children .nil ∧ Event.Describes 1 body ls children := by
  have hbody : ReadsAs 1 ls (if ls.isEmpty then ([], []) else operand p (fuelFor ls) 1 ls)
      (if ls.isEmpty then (.nil, []) else operandTree p (fuelFor ls) ls) := by
    split
    case isTrue h =>
      obtain rfl := List.isEmpty_iff.1 h
      exact ⟨rfl, [], rfl, .nil⟩
    case isFalse => exact (RulesAgree.all p _).operand 1 ls
  simp only [rootEvents, descend]
  generalize (if ls.isEmpty then ([], []) else operand p (fuelFor ls) 1 ls) = es,
    (if ls.isEmpty then (.nil, []) else operandTree p (fuelFor ls) ls : Tree × _) = t at hbody ⊢
  obtain ⟨hrest, taken, rfl, hdesc⟩ := hbody
  rw [hrest]
  exact ⟨_, _, by simp, rfl, hdesc.append (describes_trailing _ t.2)⟩

/-- The events of the grammar describe the tree found by descent. -/
theorem parseLexemes_eq_descend (p : Precedence) (ls : List Lexeme) :
    parseLexemes p ls = descend p ls := by
  obtain ⟨body, children, hevents, htree, hdesc⟩ := rootEvents_describes p ls
  have hroot := @Layer.plays_render 0 [⟨.root, body, ls, children⟩] ⟨hdesc.plays, trivial⟩
  simp only [Layer.render, Layer.linkTo, Layer.grow, List.flatMap_cons, List.flatMap_nil,
    List.append_nil, Forest.nil_append] at hroot
  rw [parseLexemes, hevents, htree]
  exact hroot.replay_eq

end

end TokenEditor.Expr
