import Mathlib.Data.List.Chain
import Riscv32.Sdb.BigStep

/-!
# Operands side by side

Where an operator is not recorded, its operands stand side by side, and no
evaluation of such a range returns: the split at an operator leaves the pair in
one of the two parts, and a single token is no pair.  Only a dereference could
drop the pair, since `eval` ignores what stands before it; but a dereference is
recorded behind an operator or first, and then it is chosen only in front.

`Apart` and `LooksBack` are the two facts about neighbours, both decidable and
kept by every part of a range.  `Evals.apart` is the result, by induction over
the rules of an evaluation.
-/

namespace Riscv32.Sdb

open Riscv32.Rtl

/-- An operand may end with the token. -/
def Token.closes (tok : Token) : Bool :=
  match tok.type with
  | .dec | .hex | .dollar | .rparen => true
  | _ => false

/-- An operand may start with the token. -/
def Token.opens (tok : Token) : Bool :=
  match tok.type with
  | .dec | .hex | .dollar | .lparen => true
  | _ => false

/-- Neighbours that are no two operands. -/
def Apart (a b : Token) : Prop := a.closes = true → b.opens = false

/-- Neighbours of which the second dereferences only behind an operator. -/
def LooksBack (a b : Token) : Prop := b.type = .deref → prec a.type ≤ 5

section Position

variable {ts : List Token}

theorem prec_foldl_concat {tok : Token} (hTok : prec tok.type ≤ 5)
    (hCnt : ((ts ++ [tok]).foldl OpScan.step opStart).cnt = 0) :
    ((ts ++ [tok]).foldl OpScan.step opStart).prec ≤ 5 := by
  rw [List.foldl_append, List.foldl_cons, List.foldl_nil] at hCnt ⊢
  rw [step_cnt, nest_of_prec_lt (by omega)] at hCnt
  by_cases hLe : prec tok.type ≤ (ts.foldl OpScan.step opStart).prec
  · rw [step_of_prec_le tok hCnt hLe]
    exact hTok
  · rw [step_of_prec_lt (by omega)]
    exact Nat.le_of_lt (Nat.lt_of_lt_of_le (by simpa [OpScan.prec] using hLe) hTok)

/-- A dereference that `find_op_position` finds stands in front. -/
theorem findOpPosition_eq_zero (hLook : ts.IsChain LooksBack)
    (hOp : typeAt ts (findOpPosition ts) = .deref) : findOpPosition ts = 0 := by
  induction ts using List.reverseRecOn with
  | nil => rfl
  | append_singleton ts tok ih =>
    have hStep : findOpPosition (ts ++ [tok]) =
        ((ts.foldl OpScan.step opStart).step tok).position := by
      rw [findOpPosition, List.foldl_append, List.foldl_cons, List.foldl_nil]
    have hi : (ts.foldl OpScan.step opStart).i = ts.length := by
      simpa [opStart] using foldl_step_i ts opStart
    by_cases hChosen : (ts.foldl OpScan.step opStart).cnt = 0 ∧
        prec tok.type ≤ (ts.foldl OpScan.step opStart).prec
    · rw [step_of_prec_le tok hChosen.1 hChosen.2] at hStep
      simp only [hi] at hStep
      rw [hStep] at hOp ⊢
      have hType : tok.type = .deref := by simpa [typeAt] using hOp
      rcases List.eq_nil_or_concat ts with rfl | ⟨us, last, rfl⟩
      · rfl
      · -- the operator before the star is chosen, and it is weaker
        rw [List.concat_eq_append] at hChosen hLook
        rw [List.append_assoc, List.singleton_append, List.isChain_append_cons_cons] at hLook
        have hLast := prec_foldl_concat (hLook.2.1 hType) hChosen.1
        rw [hType] at hChosen
        exact absurd (Nat.le_trans hChosen.2 hLast) (by decide)
    · have hSame : findOpPosition (ts ++ [tok]) = findOpPosition ts := by
        rw [hStep, OpScan.step, if_neg hChosen]
        rfl
      rw [hSame] at hOp ⊢
      cases ts with
      | nil => rfl
      | cons first ts =>
        have hLt : findOpPosition (first :: ts) < (first :: ts).length :=
          findOpPosition_lt (by simp)
        rw [typeAt, List.getElem?_append_left hLt] at hOp
        exact ih hLook.left_of_append hOp

end Position

section Evals

variable {σ : Type} {t : Target σ} {ts : List Token} {s s' : σ} {v : Word}

theorem closes_of_prec_le {tok : Token} (h : prec tok.type ≤ 6) :
    tok.closes = false ∧ tok.opens = false := by
  unfold Token.closes Token.opens
  cases hType : tok.type <;> simp_all [prec]

/-- The operators of the `switch` are weaker than a dereference. -/
theorem prec_of_apply {op : TokenType} {x y : Word} (hOp : op ≠ .deref)
    (h : t.apply op x y s = .ok (v, s')) : prec op ≤ 5 := by
  cases op with
  | deref => exact absurd rfl hOp
  | plus | minus | times | divide | eq | lt | and => decide
  | notype | hex | dec | gt | le | ge | lparen | rparen | dollar => cases h

theorem checkParentheses_ends (h : checkParentheses ts = .ok true) :
    ts.head?.map Token.type = some .lparen ∧ ts.getLast?.map Token.type = some .rparen := by
  unfold checkParentheses at h
  split at h
  · cases h
  · rename_i hNot
    simpa [not_or] using hNot

theorem apart_of_closes {a b : Token} (h : a.closes = false) : Apart a b := by
  intro hCloses
  rw [h] at hCloses
  cases hCloses

theorem apart_enclosed {first last : Token} {inner : List Token} (hFirst : first.closes = false)
    (hLast : last.opens = false) (h : inner.IsChain Apart) :
    (first :: (inner ++ [last])).IsChain Apart := by
  rw [List.isChain_cons, List.isChain_append]
  refine ⟨fun y _ => apart_of_closes hFirst, h, .singleton last, ?_⟩
  rintro x - y ⟨⟩ -
  exact hLast

/-- A range that `eval` returns on holds no two operands side by side. -/
theorem Evals.apart (h : Evals t ts s v s') (hLook : ts.IsChain LooksBack) :
    ts.IsChain Apart := by
  induction h with
  | single tok s => exact .singleton tok
  | @paren ts _ _ _ hLen hParen _ ih =>
    obtain ⟨hHead, hLast⟩ := checkParentheses_ends hParen
    cases ts with
    | nil => simp at hLen
    | cons first ts =>
      rcases List.eq_nil_or_concat ts with rfl | ⟨inner, last, rfl⟩
      · simp at hLen
      · rw [List.concat_eq_append] at *
        rw [← List.cons_append, List.getLast?_concat] at hLast
        simp only [List.drop_succ_cons, List.drop_zero, List.dropLast_concat] at ih
        have hFirst : first.closes = false := by
          simp only [List.head?_cons, Option.map_some, Option.some.injEq] at hHead
          simp [Token.closes, hHead]
        have hEnd : last.opens = false := by
          simp only [Option.map_some, Option.some.injEq] at hLast
          simp [Token.opens, hLast]
        exact apart_enclosed hFirst hEnd (ih (hLook.drop 1).left_of_append)
  | @deref ts _ _ _ _ _ hLen _ hOp _ _ ih =>
    have hZero := findOpPosition_eq_zero hLook hOp
    rw [hZero] at hOp ih
    cases ts with
    | nil => simp at hLen
    | cons tok ts =>
      have hType : tok.type = .deref := by simpa [typeAt] using hOp
      rw [List.isChain_cons]
      exact ⟨fun y _ => apart_of_closes (closes_of_prec_le (by rw [hType]; decide)).1,
        ih (hLook.drop 1)⟩
  | @binary ts _ _ _ _ _ _ _ hLen _ hOp _ _ hApply ihl ihr =>
    have hLt := findOpPosition_lt (show 0 < ts.length by omega)
    have hPrec := prec_of_apply hOp hApply
    rw [typeAt, List.getElem?_eq_getElem hLt, Option.elim_some] at hPrec
    obtain ⟨hCloses, hOpens⟩ := closes_of_prec_le (Nat.le_succ_of_le hPrec)
    rw [← List.take_append_drop (findOpPosition ts) ts, List.drop_eq_getElem_cons hLt,
      List.isChain_append, List.isChain_cons]
    refine ⟨ihl (hLook.take _), ⟨fun y _ => apart_of_closes hCloses, ihr (hLook.drop _)⟩, ?_⟩
    rintro x - y ⟨⟩ -
    exact hOpens

end Evals

end Riscv32.Sdb
