import Riscv32.Sdb.Sentences

/-!
# Relational operators

The four tables do not agree.  The rules store `<` as `TK_GT` and `>` as
`TK_LT`, the recording `switch` has no case for `TK_LE` and `TK_GE`, and the
`switch` of `eval` has none but `TK_LT`, for which it computes `≤`.  So `a>b`
comes out as `a ≤ b`, always the opposite, and with one of the other signs
nothing comes out.

What a sentence says is `denote` at `compute`, what the debugger computes is
`denote` at the `switch`; the two readings differ in `>` alone, and whether that
shows depends on the values around it (`Unaffected`).

`relations_mean_iff` is the exact condition, for every sentence and machine.
-/

namespace Riscv32.Sdb

open Riscv32.Rtl Piece

namespace Operator

/-- What the signs say. -/
def compute (op : Operator) (x y : Word) : Except Fault Word := .ok (op.apply x y)

/-- The same with `>` read as `≤`. -/
def flipped : Operator → Word → Word → Except Fault Word
  | rel .gt, x, y => .ok (if x ≤ y then 1 else 0)
  | op, x, y => op.compute x y

/-- `+`, `-`, `*` and `/`. -/
def Arithmetic (op : Operator) : Prop := ∃ o ∈ [BinOp.add, .sub, .mul, .div], op = .arith o

/-- No relation but `>`. -/
def NoneButGt (op : Operator) : Prop := op ≠ .rel .lt ∧ op ≠ .rel .le ∧ op ≠ .rel .ge

theorem noneButGt_of_switch {op : Operator} {x y v : Word} (h : op.switch x y = .ok v) :
    op.NoneButGt := by
  cases op with
  | arith o => simp [NoneButGt]
  | rel r => cases r <;> simp_all [NoneButGt, switch]

theorem switch_eq_flipped {op : Operator} (h : op.NoneButGt) : op.switch = op.flipped := by
  cases op with
  | arith o => rfl
  | rel r =>
    cases r with
    | gt => rfl
    | lt => exact absurd rfl h.1
    | le => exact absurd rfl h.2.1
    | ge => exact absurd rfl h.2.2

theorem compute_eq_flipped {op : Operator} (h : op.Arithmetic) : op.compute = op.flipped := by
  obtain ⟨o, -, rfl⟩ := h
  rfl

end Operator

section Denote

variable {σ : Type} {t : Target σ} {e : Tree}

theorem Tree.Over.mono {P Q : Operator → Prop} (hPQ : ∀ op, P op → Q op) (h : e.Over P) :
    e.Over Q := by
  induction e with
  | num | pc | reg => trivial
  | paren e ih | deref e ih => exact ih h
  | bin op l r ihl ihr => exact ⟨hPQ op h.1, ihl h.2.1, ihr h.2.2⟩

/-- Two readings that agree on the operators of a tree give it one meaning. -/
theorem denote_congr {f g : Operator → Word → Word → Except Fault Word}
    (h : e.Over fun op => f op = g op) (s : σ) : e.denote t f s = e.denote t g s := by
  induction e generalizing s with
  | num | pc | reg => rfl
  | paren e ih => exact ih h s
  | deref e ih => simp only [Tree.denote, ih h]
  | bin op l r ihl ihr => simp only [Tree.denote, ihl h.2.1, ihr h.2.2, h.1]

/-- Without a prefix `*` a tree has a value and leaves the machine alone. -/
theorem exists_denote {f : Operator → Word → Word → Word} (h : e.DerefFree) (s : σ) :
    ∃ v, e.denote t (fun op x y => .ok (f op x y)) s = .ok (v, s) := by
  induction e with
  | num | pc | reg => exact ⟨_, rfl⟩
  | paren e ih => exact ih h
  | deref => exact absurd h id
  | bin op l r ihl ihr =>
    obtain ⟨x, hx⟩ := ihl h.1
    obtain ⟨y, hy⟩ := ihr h.2
    exact ⟨f op x y, by simp [Tree.denote, hx, hy, bind, Except.bind]⟩

end Denote

section Relations

variable {σ : Type} (t : Target σ) (s : σ)

/-- The debugger answers a text of `e` with what its signs say. -/
def RelationsMean (e : Sentence) (text : List Char) : Prop :=
  ∀ success, expr t text success s =
    (e.tree.denote t Operator.compute s).map fun r => ((r.1, success), r.2)

/-- No sign but `>`, and reading every `>` as `≤` does not change the value. -/
def Unaffected (e : Sentence) : Prop :=
  e.tree.Over Operator.NoneButGt ∧
    e.tree.denote t Operator.compute s = e.tree.denote t Operator.flipped s

variable {t s}

theorem denote_switch {e : Sentence} (h : e.tree.Over Operator.NoneButGt) :
    e.tree.denote t Operator.switch s = e.tree.denote t Operator.flipped s :=
  denote_congr (h.mono fun _ hOp => Operator.switch_eq_flipped hOp) s

theorem relationsMean_iff {e : Sentence} {text : List Char} (hFree : e.tree.DerefFree)
    (hPrint : e.PrintsTo text) (hFits : e.Fits) :
    RelationsMean t s e text ↔ Unaffected t s e := by
  have hGuard : Guarded true e.tree.pieces := guarded_of_notMem (star_notMem_pieces hFree)
  obtain ⟨v, hv⟩ := exists_denote (t := t) (f := Operator.apply) hFree s
  have hValue : e.tree.denote t Operator.compute s = .ok (v, s) := hv
  have hExpr : ∀ success, expr t text success s = .ok ((v, success), s) ↔
      e.tree.denote t Operator.switch s = .ok (v, s) :=
    expr_eq_ok_iff_denote hPrint hFits hGuard
  simp only [RelationsMean, Unaffected, hValue, Except.map, hExpr, forall_const]
  constructor
  · intro h
    have hOver : e.tree.Over Operator.NoneButGt :=
      Tree.over_of_denote (fun _ _ _ _ hOp => Operator.noneButGt_of_switch hOp) h
    exact ⟨hOver, by rw [← denote_switch hOver, h]⟩
  · rintro ⟨hOver, hFlip⟩
    rw [denote_switch hOver, hFlip]

/-- `a > b` and `a ≤ b` never agree. -/
theorem not_unaffected {e : Sentence} {r : Relation} {a b : Tree}
    (hTree : e.tree = .bin (.rel r) a b) (hFree : e.tree.DerefFree)
    (ha : a.Over Operator.Arithmetic) (hb : b.Over Operator.Arithmetic) :
    ¬ Unaffected t s e := by
  rintro ⟨hOver, hFlip⟩
  rw [hTree] at hOver hFlip hFree
  obtain ⟨x, hx⟩ := exists_denote (t := t) (f := Operator.apply) hFree.1 s
  obtain ⟨y, hy⟩ := exists_denote (t := t) (f := Operator.apply) hFree.2 s
  have hx : a.denote t Operator.compute s = .ok (x, s) := hx
  have hy : b.denote t Operator.compute s = .ok (y, s) := hy
  have hx' := denote_congr (t := t) (ha.mono fun _ => Operator.compute_eq_flipped) s
  have hy' := denote_congr (t := t) (hb.mono fun _ => Operator.compute_eq_flipped) s
  cases r with
  | lt => exact hOver.1.1 rfl
  | le => exact hOver.1.2.1 rfl
  | ge => exact hOver.1.2.2 rfl
  | gt =>
    simp only [Tree.denote, ← hx', ← hy', hx, hy, bind, Except.bind, Operator.compute,
      Operator.flipped, Operator.apply, Except.ok.injEq, Prod.mk.injEq, and_true] at hFlip
    by_cases hLt : Relation.gt.Holds x y
    · rw [if_pos hLt, if_neg (BitVec.not_le.2 hLt)] at hFlip
      exact absurd hFlip (by decide)
    · rw [if_neg hLt, if_pos (BitVec.not_lt.1 hLt)] at hFlip
      exact absurd hFlip (by decide)

variable (t s)

/-- **A sentence over relations comes out right exactly when it has no sign but
`>` and the flip of these does not show; a relation of two arithmetic operands
never does.** -/
theorem relations_mean_iff (e : Sentence) (text : List Char) (hFree : e.tree.DerefFree)
    (hPrint : e.PrintsTo text) (hFits : e.Fits) :
    (RelationsMean t s e text ↔ Unaffected t s e) ∧
      ∀ r a b, e.tree = .bin (.rel r) a b → a.Over Operator.Arithmetic →
        b.Over Operator.Arithmetic → ¬ RelationsMean t s e text := by
  refine ⟨relationsMean_iff hFree hPrint hFits, fun r a b hTree ha hb => ?_⟩
  rw [relationsMean_iff hFree hPrint hFits]
  exact not_unaffected hTree hFree ha hb

end Relations

/-- `2 r 1`. -/
def twoOne (r : Relation) : Sentence where
  tree := .bin (.rel r) (.num (digitNumeral .dec '2' two_mem_decDigits))
    (.num (digitNumeral .dec '1' one_mem_decDigits))
  grammatical := by simp [Tree.Grammatical, Tree.level, Operator.level]

def twoOneText (r : Relation) : List Char := '2' :: (r.text ++ ['1'])

theorem twoOne_printsTo (r : Relation) : (twoOne r).PrintsTo (twoOneText r) := by
  refine ⟨[0, 0, 0].zip (twoOne r).tree.pieces, rfl, by cases r <;> decide, 0, by decide, ?_⟩
  cases r <;> rfl

theorem twoOne_fits (r : Relation) : (twoOne r).Fits := by
  cases r <;> exact Nat.le_of_ble_eq_true rfl

theorem twoOne_guarded (r : Relation) : Guarded true (twoOne r).tree.pieces :=
  guarded_of_notMem (by cases r <;> simp [twoOne, Tree.pieces, Operator.piece])

/-- `2>1` is 0, and `2<1`, which is 0, does not return. -/
theorem two_gt_one_is_zero :
    expr tenfold (twoOneText .gt) true () = .ok ((0, true), ()) ∧
      ¬ RelationsMean tenfold () (twoOne .gt) (twoOneText .gt) ∧
      (∀ v, expr tenfold (twoOneText .lt) true () ≠ .ok ((v, true), ())) ∧
      ¬ RelationsMean tenfold () (twoOne .lt) (twoOneText .lt) := by
  have hGt : expr tenfold (twoOneText .gt) true () = .ok ((0, true), ()) :=
    (expr_eq_ok_iff_denote (twoOne_printsTo .gt) (twoOne_fits .gt) (twoOne_guarded .gt) true).2 rfl
  have hLt : ∀ v, expr tenfold (twoOneText .lt) true () ≠ .ok ((v, true), ()) := by
    intro v h
    rw [expr_eq_ok_iff_denote (twoOne_printsTo .lt) (twoOne_fits .lt) (twoOne_guarded .lt)] at h
    cases h
  refine ⟨hGt, fun h => ?_, hLt, fun h => hLt 0 (h true)⟩
  have hOne := h true
  rw [hGt] at hOne
  exact absurd hOne (by decide)

/-- `0&&2>1`. -/
def shadowed : Sentence where
  tree := .bin (.arith .and) (.num (digitNumeral .dec '0' zero_mem_decDigits)) (twoOne .gt).tree
  grammatical := by
    simp [Tree.Grammatical, Tree.level, Operator.level, BinOp.level, twoOne]

/-- `2>1` comes out wrong, and `0&&2>1` right because the flip does not show. -/
theorem relations_mean_iff_twoOne :
    ¬ RelationsMean tenfold () (twoOne .gt) (twoOneText .gt) ∧
      RelationsMean tenfold () shadowed ('0' :: '&' :: '&' :: twoOneText .gt) :=
  ⟨(relations_mean_iff tenfold () (twoOne .gt) (twoOneText .gt) (by simp [twoOne, Tree.DerefFree])
      (twoOne_printsTo .gt) (twoOne_fits .gt)).2 _ _ _ rfl trivial trivial,
    (relations_mean_iff tenfold () shadowed ('0' :: '&' :: '&' :: twoOneText .gt)
      (by simp [shadowed, twoOne, Tree.DerefFree])
      ⟨[0, 0, 0, 0, 0].zip shadowed.tree.pieces, rfl, by decide, 0, by decide, rfl⟩
      (Nat.le_of_ble_eq_true rfl)).1.2
      ⟨by simp [shadowed, twoOne, Tree.Over, Operator.NoneButGt], rfl⟩⟩

end Riscv32.Sdb
