import Mathlib.Tactic.Common

/-!
# A double word in two registers

Counters wider than a register are kept in two halves, high and low.  The
double word is `high ++ low`, and the lemmas say when the two halves of a sum
are those of the addends with a carry: a hardware counter that tests its low
half for all ones (`halves_add_one`), and an addition in software that sees the
carry in a low sum smaller than an addend (`halves_add`).

`toNat_halves` is the number behind both, and `halves_inj` takes an equation of
double words apart.
-/

namespace Riscv32.Data

variable (hi lo : BitVec 32)

/-- The number behind two halves. -/
theorem toNat_halves : (hi ++ lo : BitVec 64).toNat = hi.toNat * 4294967296 + lo.toNat := by
  rw [BitVec.toNat_append, ← Nat.shiftLeft_add_eq_or_of_lt lo.isLt, Nat.shiftLeft_eq]

/-- The halves are determined by the double word. -/
theorem halves_inj {hi lo hi' lo' : BitVec 32} :
    (hi ++ lo : BitVec 64) = (hi' ++ lo' : BitVec 64) ↔ hi = hi' ∧ lo = lo' := by
  rw [← BitVec.toNat_inj, ← BitVec.toNat_inj, ← BitVec.toNat_inj, toNat_halves, toNat_halves]
  omega

/-- Counting: the carry goes into the high half. -/
theorem halves_add_one :
    (hi ++ lo : BitVec 64) + 1 =
      ((if lo = 0xffffffff#32 then hi + 1 else hi) ++ (lo + 1) : BitVec 64) := by
  have hOne : (1 : BitVec 32).toNat = 1 := rfl
  have hOne' : (1 : BitVec 64).toNat = 1 := rfl
  rw [← BitVec.toNat_inj, BitVec.toNat_add, toNat_halves, toNat_halves, BitVec.toNat_add, hOne,
    hOne']
  have hLow : lo = 0xffffffff#32 ↔ lo.toNat = 4294967295 := by
    rw [← BitVec.toNat_inj]
    rfl
  by_cases hCarry : lo.toNat = 4294967295
  · rw [if_pos (hLow.2 hCarry), hCarry, BitVec.toNat_add, hOne]
    omega
  · rw [if_neg (mt hLow.1 hCarry)]
    omega

/-- Addition: the carry is seen in the low sum. -/
theorem halves_add (hi' lo' : BitVec 32) :
    (hi ++ lo : BitVec 64) + (hi' ++ lo' : BitVec 64) =
      (((if lo + lo' < lo then 1 else 0) + (hi' + hi)) ++ (lo + lo') : BitVec 64) := by
  have hLo := lo.isLt
  have hLo' := lo'.isLt
  have hLow : (lo + lo').toNat = (lo.toNat + lo'.toNat) % 4294967296 := BitVec.toNat_add ..
  rw [← BitVec.toNat_inj, BitVec.toNat_add, toNat_halves, toNat_halves, toNat_halves, hLow]
  by_cases hCarry : lo + lo' < lo
  · have hWraps : (lo + lo').toNat < lo.toNat := hCarry
    have hOne : (1 : BitVec 32).toNat = 1 := rfl
    rw [if_pos hCarry, BitVec.toNat_add, BitVec.toNat_add, hOne]
    omega
  · have hFits : ¬ (lo + lo').toNat < lo.toNat := hCarry
    have hZero : (0 : BitVec 32).toNat = 0 := rfl
    rw [if_neg hCarry, BitVec.toNat_add, BitVec.toNat_add, hZero]
    omega

end Riscv32.Data
