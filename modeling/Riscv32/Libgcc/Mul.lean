import Riscv32.Program.Line
import Riscv32.Isa.Arith

/-!
# Multiplication without a multiplier

`muldi3.S` of `libgcc`, which the compiler calls for a product on a core that
has no M extension.  With `xlen` 32 the routine is named `__mulsi3`.

The loop shifts one factor down and the other up, and adds; `MulInv` says that the
product is the sum so far and the product of what is left, and `mul_halve` is the
one fact of arithmetic in it.  The routine is a list of lines, so what is proved
holds wherever a program places it.

`mulsi3_returns` is the result: every run comes back to the caller with the
product.
-/

namespace Riscv32.Libgcc

open Isa Program

/-- `__muldi3`; the labels are `.L1` at 2 and `.L2` at 5. -/
def muldi3 (loc : Nat → Word) : List Line :=
  [mv a2 a0,
   li a0 0,
   .opImm .andi a3 a1 1,
   beqz a3 (loc 5),
   .op .add a0 a0 a2,
   .shiftImm .srli a1 a1 1,
   .shiftImm .slli a2 a2 1,
   bnez a1 (loc 2),
   ret]

/-- The registers the routine works in. -/
def mulRegs : List Reg := [a0, a1, a2, a3]

/-! ## Shift and add -/

theorem and_one_eq_zero (y : Word) : y &&& 1 = 0 ↔ y.toNat % 2 = 0 := by
  rw [← BitVec.toNat_inj, BitVec.toNat_and, show (1 : Word).toNat = 1 from rfl, Nat.and_one_is_mod]
  rfl

/-- One round on words: the lowest bit of a factor, and the rest of it. -/
theorem mul_halve (x y : Word) :
    (if y &&& 1 = 0 then 0 else x) + shiftLeft x 1 * shiftRightLogical y 1 = x * y := by
  apply BitVec.eq_of_toNat_eq
  have hSplit : x.toNat * y.toNat = y.toNat % 2 * x.toNat + x.toNat * 2 * (y.toNat / 2) := by
    conv_lhs => rw [← Nat.mod_add_div y.toNat 2]
    ring
  have hHalf : y.toNat / 2 < 4294967296 := by omega
  simp only [BitVec.toNat_add, BitVec.toNat_mul, shiftLeft, shiftRightLogical, BitVec.toNat_ofNat,
    Nat.pow_one, and_one_eq_zero, Nat.mod_eq_of_lt hHalf]
  rw [hSplit]
  by_cases hEven : y.toNat % 2 = 0
  · simp [hEven]
  · rw [if_neg hEven, show y.toNat % 2 = 1 by omega]
    simp [Nat.add_mod]

/-! ## The loop -/

section Loop

variable {code : Code} {loc : Nat → Word} (hIn : Installed code loc (muldi3 loc)) {h : Hart}

/-- At `.L1`: the product is the sum so far and the product of what is left. -/
structure MulInv (loc : Nat → Word) (h h' : Hart) : Prop where
  pc : h'.pc = loc 2
  keeps : Keeps mulRegs h h'
  sum : h'.get a0 + h'.get a2 * h'.get a1 = h.get a0 * h.get a1

/-- The routine has returned with a product. -/
structure MulDone (h h' : Hart) : Prop where
  pc : h'.pc = h.get ra &&& ~~~1#32
  keeps : Keeps mulRegs h h'
  product : h'.get a0 = h.get a0 * h.get a1

include hIn

/-- From `.L2` on: the next round, or the end. -/
theorem mul_tail {t : Hart} {n : Nat} (hPc : t.pc = loc 5) (hKeeps : Keeps mulRegs h t)
    (hBound : (t.get a1).toNat ≤ n)
    (hSum : t.get a0 + shiftLeft (t.get a2) 1 * shiftRightLogical (t.get a1) 1 =
      h.get a0 * h.get a1) :
    Inevitable (Steps (lineStep code))
      (fun h' => MulDone h h' ∨ MulInv loc h h' ∧ (h'.get a1).toNat < n) t := by
  refine hIn.step 5 rfl hPc (hIn.step 6 rfl rfl ?_)
  generalize hu : Line.exec (loc 7) (Line.exec (loc 6) t _) _ = u
  have hA0 : u.get a0 = t.get a0 := by simp [← hu, Line.exec, get_set]
  have hA1 : u.get a1 = shiftRightLogical (t.get a1) 1 := by
    simp [← hu, Line.exec, get_set, ShiftOp.value]
  have hA2 : u.get a2 = shiftLeft (t.get a2) 1 := by
    simp [← hu, Line.exec, get_set, ShiftOp.value]
  have hKeep : Keeps mulRegs h u :=
    hu ▸ (((hKeeps.set (by decide) _).goto _).set (by decide) _).goto _
  refine hIn.step 7 rfl (by rw [← hu]; rfl) ?_
  rw [exec_bnez]
  by_cases hEnd : u.get a1 = 0
  · rw [if_neg (not_not.mpr hEnd)]
    refine hIn.step 8 rfl rfl (.here (.inl ?_))
    rw [exec_jr]
    refine ⟨congrArg (· &&& ~~~1#32) (hKeep.get ra (by decide)), (hKeep.goto _).goto _, ?_⟩
    rw [get_goto, get_goto, hA0, ← hSum, ← hA1, hEnd]
    simp
  · rw [if_pos hEnd]
    refine .here (.inr ⟨⟨rfl, hKeep.goto _, ?_⟩, ?_⟩)
    · rw [get_goto, get_goto, get_goto, hA0, hA1, hA2, hSum]
    · have hHalf := toNat_shiftRightLogical (t.get a1) 1
      rw [← hA1, Nat.pow_one] at hHalf
      have hPos : (u.get a1).toNat ≠ 0 := fun hZero => hEnd (BitVec.eq_of_toNat_eq hZero)
      rw [get_goto]
      omega

/-- A round of the loop. -/
theorem mul_round {t : Hart} (hInv : MulInv loc h t) :
    Inevitable (Steps (lineStep code))
      (fun h' => MulDone h h' ∨ MulInv loc h h' ∧ (h'.get a1).toNat < (t.get a1).toNat) t := by
  obtain ⟨hPc, hKeeps, hSum⟩ := hInv
  refine hIn.step 2 rfl hPc ?_
  generalize hu : Line.exec (loc 3) t _ = u
  have hA0 : u.get a0 = t.get a0 := by simp [← hu, Line.exec, get_set]
  have hA1 : u.get a1 = t.get a1 := by simp [← hu, Line.exec, get_set]
  have hA2 : u.get a2 = t.get a2 := by simp [← hu, Line.exec, get_set]
  have hA3 : u.get a3 = t.get a1 &&& 1 := by simp [← hu, Line.exec, get_set, ImmOp.value]
  have hKeep : Keeps mulRegs h u := hu ▸ (hKeeps.set (by decide) _).goto _
  have hHalve := mul_halve (t.get a2) (t.get a1)
  refine hIn.step 3 rfl (by rw [← hu]; rfl) ?_
  rw [exec_beqz, hA3]
  by_cases hEven : t.get a1 &&& 1 = 0
  · rw [if_pos hEven] at hHalve ⊢
    refine mul_tail hIn rfl (hKeep.goto _) (Nat.le_of_eq (congrArg _ hA1)) ?_
    rw [get_goto, get_goto, get_goto, hA0, hA1, hA2, ← hSum, ← hHalve]
    simp
  · rw [if_neg hEven] at hHalve ⊢
    refine hIn.step 4 rfl rfl (mul_tail hIn rfl (((hKeep.goto _).set (by decide) _).goto _) ?_ ?_)
    · exact Nat.le_of_eq (congrArg _ (by simp [Line.exec, get_set, hA1]))
    · simp only [Line.exec, get_set, get_goto, RegOp.value, hA0, hA1, hA2, ← hSum, ← hHalve]
      simp [BitVec.add_assoc]

/-- **`__mulsi3`** returns the product, for all factors, and leaves the memory
and the registers outside `a0` to `a3` alone. -/
theorem mulsi3_returns (hPc : h.pc = loc 0) :
    Inevitable (Steps (lineStep code)) (MulDone h) h := by
  refine hIn.step 0 rfl hPc (hIn.step 1 rfl rfl ?_)
  refine .loop (fun t => (t.get a1).toNat) (fun t => mul_round hIn) ⟨rfl, ?_, ?_⟩
  · exact (((Keeps.refl.set (by decide) _).goto _).set (by decide) _).goto _
  · simp [Line.exec, get_set, ImmOp.value]

end Loop

end Riscv32.Libgcc
