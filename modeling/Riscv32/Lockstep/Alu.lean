import Riscv32.Lockstep.Fields
import Riscv32.Rtl.Exu

/-!
# What the ALU computes

The subtraction of the ALU is an addition of the complement in 33 bits, and
comparisons are read off its flags.  Here these are identified with unsigned
and signed comparison, and the shift amounts with those of the C expressions.

The facts are about single words and hold for all of them.  They are what is left
of an instruction when both sides are unfolded, so each is stated in the form the
hardware computes on the left and the form NEMU's C computes on the right.
-/

namespace Riscv32.Lockstep

open Riscv32.Rtl
open Riscv32.Nemu

section Subtract

variable (a b : Word)

/-- The 33-bit sum as a number: the borrow is what is missing to `2 ^ 32`. -/
theorem toNat_subCarry : (subCarry a b).toNat = 2 ^ 32 + a.toNat - b.toNat := by
  have ha := a.isLt
  have hb := b.isLt
  simp only [subCarry, BitVec.toNat_add, BitVec.toNat_setWidth, BitVec.toNat_not,
    BitVec.ofNat_eq_ofNat, BitVec.toNat_ofNat]
  omega

/-- The difference. -/
theorem subCarry_low : (subCarry a b).setWidth 32 = a - b := by
  apply BitVec.eq_of_toNat_eq
  have hb := b.isLt
  rw [BitVec.toNat_setWidth, toNat_subCarry, BitVec.toNat_sub]
  omega

/-- The carry out of the complement says that nothing was borrowed. -/
theorem noBorrow_eq : (subFlags a b).noBorrow = !a.ult b := by
  have ha := a.isLt
  have hb := b.isLt
  simp only [subFlags, BitVec.msb_eq_decide, toNat_subCarry, BitVec.ult]
  by_cases h : a.toNat < b.toNat <;> simp [h] <;> omega

/-- The flag `beq` and `bne` go by. -/
theorem zero_eq : (subFlags a b).zero = (a == b) := by
  simp only [subFlags, subCarry_low]
  rw [Bool.eq_iff_iff, beq_iff_eq, beq_iff_eq]
  constructor
  · intro h
    apply BitVec.eq_of_toNat_eq
    have hNat := congrArg BitVec.toNat h
    simp only [BitVec.toNat_sub, BitVec.ofNat_eq_ofNat, BitVec.toNat_ofNat] at hNat
    omega
  · rintro rfl
    exact BitVec.sub_self a

/-- Signed comparison, from the sign and the overflow of the difference. -/
theorem less_eq : ((subFlags a b).negative ^^ (subFlags a b).overflow) = a.slt b := by
  have ha := a.isLt
  have hb := b.isLt
  have hDiff : (a - b).toNat =
      if b.toNat ≤ a.toNat then a.toNat - b.toNat else 2 ^ 32 + a.toNat - b.toNat := by
    rw [BitVec.toNat_sub]
    split <;> omega
  simp only [subFlags, subCarry_low, BitVec.msb_eq_decide, BitVec.slt_eq_decide,
    BitVec.toInt_eq_toNat_cond, hDiff]
  -- the signs of the operands and the borrow decide both sides
  by_cases hSa : a.toNat < 2 ^ 31 <;> by_cases hSb : b.toNat < 2 ^ 31 <;>
    by_cases hLe : b.toNat ≤ a.toNat <;> grind

end Subtract

/-- A flag as a word is a C comparison. -/
theorem setWidth_ofBool (c : Bool) : BitVec.setWidth 32 (BitVec.ofBool c) = ofCmp c := by
  cases c <;> rfl

/-! ## Shift amounts -/

/-- The shift amount of a register, as the slice and as the mask of the C expression. -/
theorem shiftAmount (b : Word) : (b.extractLsb' 0 5).toNat = (b &&& 0x1f).toNat := by
  have h : (0x1f#32).toNat = 2 ^ 5 - 1 := rfl
  rw [BitVec.toNat_and]
  simp only [BitVec.ofNat_eq_ofNat, h, Nat.and_two_pow_sub_one_eq_mod, BitVec.extractLsb'_toNat,
    Nat.shiftRight_zero]

/-- The low bits of an I-immediate are the shift amount of the word. -/
theorem shiftAmount_immI (i : Word) : ((immI i).extractLsb' 0 5).toNat = (shamtOf i).toNat := by
  have h : (shamtOf i) = ((immI i).extractLsb' 0 5).setWidth 32 := by
    apply BitVec.eq_of_getLsbD_eq
    intro j hj
    simp only [shamtOf, immI, getLsbD_signs, BitVec.getLsbD_setWidth, BitVec.getLsbD_append,
      BitVec.getLsbD_extractLsb']
    interval_cases j <;> simp
  rw [h, BitVec.toNat_setWidth]
  omega

theorem shiftAmount_shamt (i : Word) : ((shamtOf i).extractLsb' 0 5).toNat = (shamtOf i).toNat := by
  have h : (shamtOf i).toNat < 2 ^ 5 := by
    simp only [shamtOf, BitVec.toNat_append, BitVec.toNat_ofNat]
    simpa using (i.extractLsb' 20 5).isLt
  rw [BitVec.extractLsb'_toNat, Nat.shiftRight_zero]
  exact Nat.mod_eq_of_lt h

end Riscv32.Lockstep
