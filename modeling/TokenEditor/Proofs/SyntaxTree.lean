import TokenEditor.Expr.Range
import TokenEditor.Proofs.Descent
import Mathlib.Data.List.Forall2

/-! # Syntax trees

What the events of a region and the tree they replay to say about its lexemes: no lexeme is lost,
moved or changed, whatever the row is, and the events are those of the tree. That the rules count
down `fuel` plays no part in it: a rule calls another with less of it, but on fewer lexemes or one
level below, so that `fuelFor` is never used up. -/

namespace TokenEditor.Expr

theorem length_postfixes_le (base : Nat) (f : Fragment) (ls : List Lexeme) :
    (postfixes base f ls).2.length ≤ ls.length := by
  fun_induction postfixes base f ls <;> simp_all <;> omega

/-- An operand that the rules report stands for the node found by descent. -/
theorem stands_of_exprFrom {p : Precedence} {fuel base least : Nat} {ls rest : List Lexeme}
    {f : Fragment} (h : exprFrom p fuel base least ls = some (f, rest)) :
    rest.length < ls.length ∧ ∃ n taken, exprNode p fuel least ls = some (n, rest) ∧
      ls = taken ++ rest ∧ f.Stands base taken n := by
  have hfinds := (RulesAgree.all p fuel).expr base least ls
  rw [h] at hfinds
  exact hfinds.of_some

/-- One more unit of fuel changes no rule that has enough for its lexemes. -/
structure FuelSettles (p : Precedence) (fuel : Nat) : Prop where
  expr : ∀ base least ls, 3 * ls.length + 2 ≤ fuel →
    exprFrom p (fuel + 1) base least ls = exprFrom p fuel base least ls
  climb : ∀ base least f ls, 3 * ls.length + 1 ≤ fuel →
    climb p (fuel + 1) base least f ls = climb p fuel base least f ls
  atom : ∀ base ls, 3 * ls.length + 1 ≤ fuel → atom p (fuel + 1) base ls = atom p fuel base ls
  operand : ∀ base ls, 3 * ls.length + 3 ≤ fuel →
    operand p (fuel + 1) base ls = operand p fuel base ls

namespace FuelSettles
variable {p : Precedence} {fuel : Nat}

theorem expr_succ (h : FuelSettles p fuel) (base least : Nat) (ls : List Lexeme)
    (hls : 3 * ls.length + 2 ≤ fuel + 1) :
    exprFrom p (fuel + 2) base least ls = exprFrom p (fuel + 1) base least ls := by
  rw [exprFrom, exprFrom, h.atom base ls (by omega)]
  cases ha : Expr.atom p fuel base ls with
  | none => rfl
  | some found =>
    obtain ⟨f, rest⟩ := found
    have hfinds := (RulesAgree.all p fuel).atom base ls
    rw [ha] at hfinds
    have hlt := hfinds.of_some.1
    have hle := length_postfixes_le base f rest
    dsimp only
    rw [h.climb _ _ _ _ (by omega)]

theorem climb_succ (h : FuelSettles p fuel) (base least : Nat) (f : Fragment) (ls : List Lexeme)
    (hls : 3 * ls.length + 1 ≤ fuel + 1) :
    Expr.climb p (fuel + 2) base least f ls = Expr.climb p (fuel + 1) base least f ls := by
  cases ls with
  | nil => rw [Expr.climb, Expr.climb]
  | cons l ls =>
    rw [List.length_cons] at hls
    rw [Expr.climb, Expr.climb]
    cases p.bindingPower? l.kind with
    | none => rfl
    | some bp =>
      obtain ⟨left, right⟩ := bp
      dsimp only
      rw [h.expr _ _ _ (by omega)]
      cases he : exprFrom p fuel (base + f.events.length + 2) right ls with
      | none =>
        dsimp only
        rw [h.climb _ _ _ _ (by omega)]
      | some found =>
        obtain ⟨g, rest⟩ := found
        have hlt := (stands_of_exprFrom he).1
        dsimp only
        rw [h.climb _ _ _ _ (by omega)]

theorem atom_succ (h : FuelSettles p fuel) (base : Nat) (ls : List Lexeme)
    (hls : 3 * ls.length + 1 ≤ fuel + 1) :
    Expr.atom p (fuel + 2) base ls = Expr.atom p (fuel + 1) base ls := by
  cases ls with
  | nil => rw [Expr.atom, Expr.atom]
  | cons l ls =>
    rw [List.length_cons] at hls
    rw [Expr.atom.eq_def, Expr.atom.eq_def]
    dsimp only
    rw [h.operand _ ls (by omega)]
    cases ls with
    | nil => rfl
    | cons m ls =>
      rw [List.length_cons] at hls
      dsimp only
      rw [h.operand _ ls (by omega)]

theorem operand_succ (h : FuelSettles p fuel) (base : Nat) (ls : List Lexeme)
    (hls : 3 * ls.length + 3 ≤ fuel + 1) :
    Expr.operand p (fuel + 2) base ls = Expr.operand p (fuel + 1) base ls := by
  rw [Expr.operand, Expr.operand, h.expr _ _ _ (by omega)]

theorem all (p : Precedence) (fuel : Nat) : FuelSettles p fuel := by
  induction fuel with
  | zero =>
    -- no rule has enough
    constructor <;> intros <;> omega
  | succ fuel ih => exact ⟨ih.expr_succ, ih.climb_succ, ih.atom_succ, ih.operand_succ⟩

end FuelSettles

theorem operand_eq_of_fuelFor_le (p : Precedence) {fuel : Nat} (base : Nat) {ls : List Lexeme}
    (h : fuelFor ls ≤ fuel) : operand p fuel base ls = operand p (fuelFor ls) base ls := by
  induction h with
  | refl => rfl
  | step h ih => rw [← ih, (FuelSettles.all p _).operand base ls h]

/-- The descent does not depend on fuel either: the same events describe it. -/
theorem operandTree_eq_of_fuelFor_le (p : Precedence) {fuel : Nat} {ls : List Lexeme}
    (h : fuelFor ls ≤ fuel) : operandTree p fuel ls = operandTree p (fuelFor ls) ls := by
  have hmore := (RulesAgree.all p fuel).operand 0 ls
  have hless := (RulesAgree.all p (fuelFor ls)).operand 0 ls
  rw [operand_eq_of_fuelFor_le p 0 h] at hmore
  obtain ⟨hrest, taken, hls, hdesc⟩ := hmore
  obtain ⟨hrest', taken', hls', hdesc'⟩ := hless
  have hrests := hrest.symm.trans hrest'
  have htaken : taken = taken' := by
    rw [hrests] at hls
    exact List.append_cancel_right (hls.symm.trans hls')
  subst htaken
  exact Prod.ext (hdesc.plays.unique hdesc'.plays) hrests

/-- The lexemes of a tree with their ranges, when its text begins at `start`. -/
def Tree.located (start : Nat) (tree : Tree) : List Located :=
  (Tree.locate 0 start tree).filter fun r => r.text.isSome

/-- The entry is that of the lexeme: its kind, its text and as many bytes as the text has. -/
structure Located.Holds (r : Located) (l : Lexeme) : Prop where
  kind : r.kind = l.kind
  text : r.text = some l.text
  stop : r.stop = r.start + l.text.utf8Size

/-- The ranges follow each other from `start` to `stop` without gap or overlap. -/
def Tiles : Nat → List Located → Nat → Prop
  | start, [], stop => start = stop
  | start, r :: rs, stop => r.start = start ∧ r.start ≤ r.stop ∧ Tiles r.stop rs stop

theorem Tiles.append {start middle stop : Nat} {rs rs' : List Located} (h : Tiles start rs middle)
    (h' : Tiles middle rs' stop) : Tiles start (rs ++ rs') stop := by
  induction rs generalizing start with
  | nil => exact (show start = middle from h) ▸ h'
  | cons r rs ih => exact ⟨h.1, h.2.1, ih h.2.2⟩

theorem filter_locate (depth start : Nat) (tree : Tree) :
    List.Forall₂ Located.Holds ((Tree.locate depth start tree).filter fun r => r.text.isSome)
        tree.leaves ∧
      Tiles start ((Tree.locate depth start tree).filter fun r => r.text.isSome)
        (start + Tree.utf8Size tree) := by
  induction tree generalizing depth start with
  | nil => exact ⟨.nil, rfl⟩
  | leaf l rest ih =>
    obtain ⟨hholds, htiles⟩ := ih depth (start + l.text.utf8Size)
    rw [Nat.add_assoc] at htiles
    exact ⟨.cons ⟨rfl, rfl, rfl⟩ hholds, rfl, Nat.le_add_right _ _, htiles⟩
  | node kind children rest ihc ih =>
    obtain ⟨hholds, htiles⟩ := ihc (depth + 1) start
    obtain ⟨hholds', htiles'⟩ := ih depth (start + Tree.utf8Size children)
    rw [Nat.add_assoc] at htiles'
    have hsplit : (Tree.locate depth start (.node kind children rest)).filter
          (fun r => r.text.isSome) =
        (Tree.locate (depth + 1) start children).filter (fun r => r.text.isSome) ++
          (Tree.locate depth (start + Tree.utf8Size children) rest).filter
            (fun r => r.text.isSome) := by
      simp [Tree.locate]
    rw [hsplit]
    exact ⟨List.rel_append hholds hholds', htiles.append htiles'⟩

/-! ### The tree of a row -/

/-- Whatever the lexemes are, the rules come to an end on them, with events that begin and end
nodes in pairs; and the tree is a root, with no other root in it, over exactly these lexemes, whose
ranges follow each other from the first byte to the last. -/
theorem parseLexemes_lossless (p : Precedence) (ls : List Lexeme) :
    (∀ fuel base, fuelFor ls ≤ fuel → operand p fuel base ls = operand p (fuelFor ls) base ls) ∧
    Event.depthAfter 0 (rootEvents p ls) = some 0 ∧
    (∃ children, parseLexemes p ls = .node .root children .nil ∧ .root ∉ children.labels) ∧
    (parseLexemes p ls).leaves = ls ∧
    List.Forall₂ Located.Holds (Tree.located 0 (parseLexemes p ls)) ls ∧
    Tiles 0 (Tree.located 0 (parseLexemes p ls)) (Text.utf8Size (ls.map Lexeme.text).flatten) := by
  obtain ⟨body, children, hevents, htree, hdesc⟩ := rootEvents_describes p ls
  rw [← parseLexemes_eq_descend] at htree
  have hleaves : (parseLexemes p ls).leaves = ls := by simp [htree, Forest.leaves, hdesc.leaves]
  obtain ⟨hholds, htiles⟩ := filter_locate 0 0 (parseLexemes p ls)
  rw [hleaves] at hholds
  rw [Tree.utf8Size_eq, Tree.text, hleaves, Nat.zero_add] at htiles
  refine ⟨fun fuel base h => operand_eq_of_fuelFor_le p base h, ?_,
    ⟨children, htree, hdesc.rootless⟩, hleaves, hholds, htiles⟩
  rw [hevents]
  exact hdesc.depth_node .root 0

/-- A row in which little is in its place. -/
def clutter : List Lexeme :=
  [⟨.lparen, ['(']⟩, ⟨.plus, ['+']⟩, ⟨.eof, []⟩, ⟨.ident, ['é']⟩, ⟨.whitespace, [' ']⟩,
    ⟨.errorToken, ['#']⟩, ⟨.rparen, [')']⟩]

theorem parseLexemes_lossless_clutter :
    fuelFor clutter ≤ 30 ∧
    operand {} 30 1 clutter = operand {} (fuelFor clutter) 1 clutter ∧
    (parseLexemes {} clutter).leaves = clutter ∧
    parseLexemes {} clutter =
      .node .root
        (.node .parenExpr
          (.leaf ⟨.lparen, ['(']⟩ (.node .error (.leaf ⟨.plus, ['+']⟩ .nil)
            (.node .error .nil .nil)))
          (.node .error
            (.leaf ⟨.eof, []⟩ (.leaf ⟨.ident, ['é']⟩ (.leaf ⟨.whitespace, [' ']⟩
              (.leaf ⟨.errorToken, ['#']⟩ (.leaf ⟨.rparen, [')']⟩ .nil))))) .nil)) .nil ∧
    (Tree.located 0 (parseLexemes {} clutter)).map (fun r => (r.start, r.stop)) =
      [(0, 1), (1, 2), (2, 2), (2, 4), (4, 5), (5, 6), (6, 7)] := by
  obtain ⟨hfuel, -, -, hleaves, -⟩ := parseLexemes_lossless {} clutter
  refine ⟨by decide, hfuel 30 1 (by decide), hleaves, ?_⟩
  rw [parseLexemes_eq_descend]
  decide

/-- Replaying the events of a region finds the tree of its descent, which has each node once that
the events begin. Every operand that a rule reports, at whatever place, is a chain of linked
beginnings that stands for the node of the descent; and a chain of any length replays with its
first node innermost. -/
theorem replay_refines_descent (p : Precedence) (ls : List Lexeme) :
    Event.replay (rootEvents p ls) ls = descend p ls ∧
    (∀ fuel, fuelFor ls ≤ fuel → operandTree p fuel ls = operandTree p (fuelFor ls) ls) ∧
    (descend p ls).labels.Perm ((rootEvents p ls).filterMap Event.kind?) ∧
    (∀ fuel base least f rest, exprFrom p fuel base least ls = some (f, rest) →
      ∃ n taken, exprNode p fuel least ls = some (n, rest) ∧ ls = taken ++ rest ∧
        f.Stands base taken n) ∧
    (∀ base layers, Layer.Playing base layers →
      Event.Plays base (Layer.render base layers) (layers.flatMap Layer.taken)
        (Layer.grow .nil layers)) := by
  obtain ⟨body, children, hevents, htree, hdesc⟩ := rootEvents_describes p ls
  refine ⟨parseLexemes_eq_descend p ls, fun fuel h => operandTree_eq_of_fuelFor_le p h, ?_,
    fun fuel base least f rest h => (stands_of_exprFrom h).2, fun base layers h =>
      Layer.plays_render h⟩
  rw [hevents, htree]
  exact hdesc.labels_node .root

/-- The row `a++ + b!`. -/
def mixedRow : List Lexeme :=
  [⟨.ident, ['a']⟩, ⟨.plusPlus, ['+', '+']⟩, ⟨.plus, ['+']⟩, ⟨.ident, ['b']⟩, ⟨.bang, ['!']⟩]

/-- Its left operand: a name, the increment around it and the sum around both. -/
def mixedChain : List Layer :=
  [⟨.nameRef, [.token .ident], [⟨.ident, ['a']⟩], .leaf ⟨.ident, ['a']⟩ .nil⟩,
    ⟨.postfixExpr, [.token .plusPlus], [⟨.plusPlus, ['+', '+']⟩],
      .leaf ⟨.plusPlus, ['+', '+']⟩ .nil⟩,
    ⟨.binExpr, [.token .plus], [⟨.plus, ['+']⟩], .leaf ⟨.plus, ['+']⟩ .nil⟩]

theorem playing_mixedChain : Layer.Playing 4 mixedChain :=
  ⟨.token ⟨.ident, ['a']⟩, .token ⟨.plusPlus, ['+', '+']⟩, .token ⟨.plus, ['+']⟩, trivial⟩

theorem replay_refines_descent_mixed :
    fuelFor mixedRow ≤ 20 ∧ operandTree {} 20 mixedRow = operandTree {} (fuelFor mixedRow) mixedRow ∧
    Event.replay (rootEvents {} mixedRow) mixedRow =
      .node .root
        (.node .binExpr
          (.node .postfixExpr
            (.node .nameRef (.leaf ⟨.ident, ['a']⟩ .nil) (.leaf ⟨.plusPlus, ['+', '+']⟩ .nil))
            (.leaf ⟨.plus, ['+']⟩
              (.node .postfixExpr
                (.node .nameRef (.leaf ⟨.ident, ['b']⟩ .nil) (.leaf ⟨.bang, ['!']⟩ .nil)) .nil)))
          .nil) .nil ∧
    ((descend {} mixedRow).labels).Perm ((rootEvents {} mixedRow).filterMap Event.kind?) ∧
    (∃ f, exprFrom {} 20 7 0 mixedRow = some (f, []) ∧
      ∃ n, exprNode {} 20 0 mixedRow = some (n, []) ∧ f.Stands 7 mixedRow n) ∧
    Layer.Playing 4 mixedChain ∧
    Event.Plays 4
      [.start .nameRef (some 7), .token .ident, .finish,
        .start .postfixExpr (some 10), .token .plusPlus, .finish,
        .start .binExpr none, .token .plus, .finish]
      [⟨.ident, ['a']⟩, ⟨.plusPlus, ['+', '+']⟩, ⟨.plus, ['+']⟩]
      (.node .binExpr
        (.node .postfixExpr
          (.node .nameRef (.leaf ⟨.ident, ['a']⟩ .nil) (.leaf ⟨.plusPlus, ['+', '+']⟩ .nil))
          (.leaf ⟨.plus, ['+']⟩ .nil)) .nil) := by
  obtain ⟨hreplay, hfuel, hlabels, hstands, hchain⟩ := replay_refines_descent {} mixedRow
  refine ⟨by decide, hfuel 20 (by decide), ?_, hlabels, ?_, playing_mixedChain,
    hchain 4 mixedChain playing_mixedChain⟩
  · rw [hreplay]
    decide
  · have hrest : (exprFrom {} 20 7 0 mixedRow).map Prod.snd = some [] := by decide +kernel
    obtain ⟨⟨f, _⟩, hf, rfl⟩ := Option.map_eq_some_iff.1 hrest
    obtain ⟨n, taken, hn, htaken, hst⟩ := hstands 20 7 0 f [] hf
    rw [List.append_nil] at htaken
    exact ⟨f, hf, n, hn, htaken ▸ hst⟩

end TokenEditor.Expr
