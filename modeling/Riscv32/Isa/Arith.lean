import Riscv32.Isa.Rv32im

/-!
# Machine arithmetic and the numbers of the specification

The specification computes with signed and unsigned numbers, an implementation
with operations on words.  Each result of the specification has a lemma here
that gives it as such an operation: shifts by an amount below 32, the four
products through a product of 64 bits, quotients and remainders with their
special cases, and the bytes of a word.

Implementations differ in how they reach a value, and the lemmas are stated for
the form that all of them can be brought into: `mulh_eq`, `mulhsu_eq` and
`mulhu_eq` take the upper word of the wide product, `div_eq` and `rem_eq` split
off division by zero and the overflow (`toInt_overflow_iff`) before the
machine's own division is exact (`sdiv_eq`, `srem_eq`).
-/

namespace Riscv32.Isa

variable (a b : BitVec 32)

/-- Shifts of words are the specification's multiplications and divisions. -/
theorem shiftLeft_eq (n : Nat) : a <<< n = shiftLeft a n := by
  apply BitVec.eq_of_toNat_eq
  rw [BitVec.toNat_shiftLeft, Nat.shiftLeft_eq, shiftLeft, BitVec.toNat_ofNat]

theorem shiftRightLogical_eq (n : Nat) : a >>> n = shiftRightLogical a n := by
  apply BitVec.eq_of_toNat_eq
  have hLt : a.toNat / 2 ^ n < 2 ^ 32 := Nat.lt_of_le_of_lt (Nat.div_le_self _ _) a.isLt
  rw [BitVec.toNat_ushiftRight, Nat.shiftRight_eq_div_pow, shiftRightLogical, BitVec.toNat_ofNat,
    Nat.mod_eq_of_lt hLt]

theorem toNat_shiftRightLogical (n : Nat) :
    (shiftRightLogical a n).toNat = a.toNat / 2 ^ n := by
  rw [← shiftRightLogical_eq, BitVec.toNat_ushiftRight, Nat.shiftRight_eq_div_pow]

theorem toNat_shiftLeft (n : Nat) :
    (shiftLeft a n).toNat = a.toNat * 2 ^ n % 4294967296 := BitVec.toNat_ofNat ..

/-- The sign comes in from the left: the quotient is rounded down. -/
theorem shiftRightArith_eq (n : Nat) : a.sshiftRight n = shiftRightArith a n := by
  rw [shiftRightArith, ← BitVec.ofInt_toInt (x := a.sshiftRight n), BitVec.toInt_sshiftRight,
    Int.shiftRight_eq_div_pow]
  norm_cast

/-- The low five bits, as a mask selects them. -/
theorem toNat_low5 : (b &&& 0x1f#32).toNat = b.toNat % 32 := by
  rw [BitVec.toNat_and, show (0x1f#32).toNat = 2 ^ 5 - 1 from rfl, Nat.and_two_pow_sub_one_eq_mod]

/-- The shifts by a register, which take its low five bits. -/
theorem sll_eq : a <<< (b &&& 0x1f#32) = RegOp.sll.value a b := by
  rw [RegOp.value, ← toNat_low5]
  exact shiftLeft_eq a _

theorem srl_eq : a >>> (b &&& 0x1f#32) = RegOp.srl.value a b := by
  rw [RegOp.value, ← toNat_low5]
  exact shiftRightLogical_eq a _

theorem sra_eq : a.sshiftRight' (b &&& 0x1f#32) = RegOp.sra.value a b := by
  rw [RegOp.value, ← toNat_low5]
  exact shiftRightArith_eq a _

/-! ## Products -/

/-- The low word of a product is the same, signed or not. -/
theorem mul_eq : a * b = BitVec.ofInt 32 (a.toInt * b.toInt) := by
  rw [BitVec.ofInt_mul, BitVec.ofInt_toInt, BitVec.ofInt_toInt]

/-- The upper word of a product that was formed in 64 bits. -/
theorem high_ofInt (p : Int) :
    ((BitVec.ofInt 64 p) >>> 32).setWidth 32 = BitVec.ofInt 32 (p / 4294967296) := by
  apply BitVec.eq_of_toNat_eq
  rw [BitVec.toNat_setWidth, BitVec.toNat_ushiftRight, Nat.shiftRight_eq_div_pow,
    BitVec.toNat_ofInt, BitVec.toNat_ofInt]
  omega

/-- Below the word boundary the kind of shift does not matter. -/
theorem high_sshiftRight (x : BitVec 64) :
    (x.sshiftRight 32).setWidth 32 = (x >>> 32).setWidth 32 := by
  apply BitVec.eq_of_getLsbD_eq
  intro i hi
  simp only [BitVec.getLsbD_setWidth, BitVec.getLsbD_sshiftRight, BitVec.getLsbD_ushiftRight, hi,
    show 32 + i < 64 by omega, show ¬ 64 ≤ i by omega, decide_true, decide_false, Bool.true_and,
    Bool.not_false, if_true]

/-- The upper word of the product, with each operand extended by its own sign. -/
theorem mulh_eq :
    ((a.signExtend 64 * b.signExtend 64).sshiftRight 32).setWidth 32 = RegOp.mulh.value a b := by
  have hProd : a.signExtend 64 * b.signExtend 64 = BitVec.ofInt 64 (a.toInt * b.toInt) :=
    (BitVec.ofInt_mul ..).symm
  rw [high_sshiftRight, hProd, high_ofInt, RegOp.value]

theorem mulhsu_eq :
    ((a.signExtend 64 * b.setWidth 64) >>> 32).setWidth 32 = RegOp.mulhsu.value a b := by
  have hUnsigned : b.setWidth 64 = BitVec.ofInt 64 b.toNat := by
    rw [BitVec.ofInt_natCast, BitVec.ofNat_toNat]
  have hProd : a.signExtend 64 * b.setWidth 64 = BitVec.ofInt 64 (a.toInt * b.toNat) := by
    rw [hUnsigned]
    exact (BitVec.ofInt_mul ..).symm
  rw [hProd, high_ofInt, RegOp.value]

theorem mulhu_eq :
    ((a.setWidth 64 * b.setWidth 64) >>> 32).setWidth 32 = RegOp.mulhu.value a b := by
  have hProd : a.setWidth 64 * b.setWidth 64 = BitVec.ofInt 64 (a.toNat * b.toNat : Nat) := by
    rw [BitVec.ofInt_natCast, BitVec.ofNat_mul, BitVec.ofNat_toNat, BitVec.ofNat_toNat]
  rw [hProd, high_ofInt, RegOp.value, ← BitVec.ofInt_natCast, Int.natCast_ediv]
  rfl

/-! ## Quotients -/

theorem toInt_eq_zero_iff : b.toInt = 0 ↔ b = 0 := by
  rw [show (0 : Int) = (0 : BitVec 32).toInt from rfl, BitVec.toInt_inj]

/-- The one pair of operands whose quotient does not fit. -/
theorem toInt_overflow_iff :
    (a.toInt = -2147483648 ∧ b.toInt = -1) ↔ (a = 0x80000000#32 ∧ b = -1) := by
  rw [show (-2147483648 : Int) = (0x80000000#32).toInt from rfl,
    show (-1 : Int) = (-1 : BitVec 32).toInt from rfl, BitVec.toInt_inj, BitVec.toInt_inj]

/-- Away from the overflow the machine's division is exact. -/
theorem sdiv_eq (h : ¬ (a = 0x80000000#32 ∧ b = -1)) :
    a.sdiv b = BitVec.ofInt 32 (a.toInt.tdiv b.toInt) := by
  have hNe : a ≠ BitVec.intMin 32 ∨ b ≠ -1#32 := by
    by_contra hBoth
    push Not at hBoth
    exact h hBoth
  rw [← BitVec.toInt_sdiv_of_ne_or_ne a b hNe, BitVec.ofInt_toInt]

/-- The remainder never overflows. -/
theorem srem_eq : a.srem b = BitVec.ofInt 32 (a.toInt.tmod b.toInt) := by
  rw [← BitVec.toInt_srem, BitVec.ofInt_toInt]

/-- `div` as a core computes it, the two special cases first. -/
theorem div_eq :
    (if b = 0 then -1 else if a = 0x80000000#32 ∧ b = -1 then 0x80000000#32 else a.sdiv b) =
      RegOp.div.value a b := by
  simp only [RegOp.value, toInt_eq_zero_iff, toInt_overflow_iff]
  by_cases hOver : a = 0x80000000#32 ∧ b = -1
  · rw [if_pos hOver, if_pos hOver, hOver.1]
  · rw [if_neg hOver, if_neg hOver, sdiv_eq a b hOver]

/-- `rem` as a core computes it. -/
theorem rem_eq :
    (if b = 0 then a else if a = 0x80000000#32 ∧ b = -1 then 0 else a.srem b) =
      RegOp.rem.value a b := by
  simp only [RegOp.value, toInt_eq_zero_iff, toInt_overflow_iff, srem_eq]

theorem toNat_eq_zero_iff : b.toNat = 0 ↔ b = 0 := by
  rw [show (0 : Nat) = (0 : BitVec 32).toNat from rfl, BitVec.toNat_inj]

/-- `divu` and `remu` have one special case. -/
theorem divu_eq : (if b = 0 then -1 else a / b) = RegOp.divu.value a b := by
  have hDiv : a / b = BitVec.ofNat 32 (a.toNat / b.toNat) := by
    rw [← BitVec.toNat_udiv, BitVec.ofNat_toNat, BitVec.setWidth_eq]
  simp only [RegOp.value, toNat_eq_zero_iff, hDiv]
  rfl

theorem remu_eq : (if b = 0 then a else a % b) = RegOp.remu.value a b := by
  have hMod : a % b = BitVec.ofNat 32 (a.toNat % b.toNat) := by
    rw [← BitVec.toNat_umod, BitVec.ofNat_toNat, BitVec.setWidth_eq]
  simp only [RegOp.value, toNat_eq_zero_iff, hMod]

/-! ## Bytes -/

/-- A byte of a word. -/
theorem extractLsb'_byte (k : Nat) :
    a.extractLsb' (8 * k) 8 = BitVec.ofNat 8 (a.toNat / 256 ^ k) := by
  apply BitVec.eq_of_toNat_eq
  rw [BitVec.extractLsb'_toNat, Nat.shiftRight_eq_div_pow, Nat.pow_mul, BitVec.toNat_ofNat]

/-- The little-endian word of four bytes. -/
theorem toNat_word (mem : BitVec 32 → BitVec 8) :
    (mem (a + 3) ++ mem (a + 2) ++ mem (a + 1) ++ mem a : BitVec 32).toNat =
      loadBytes mem a 4 := by
  have h0 := (mem a).isLt
  have h1 := (mem (a + 1)).isLt
  have h2 := (mem (a + 2)).isLt
  have hTwo : a + 1 + 1 = a + 2 := by bv_omega
  have hThree : a + 2 + 1 = a + 3 := by bv_omega
  simp only [loadBytes, BitVec.toNat_append, hTwo, hThree]
  rw [← Nat.shiftLeft_add_eq_or_of_lt h0, ← Nat.shiftLeft_add_eq_or_of_lt h1,
    ← Nat.shiftLeft_add_eq_or_of_lt h2, Nat.shiftLeft_eq, Nat.shiftLeft_eq, Nat.shiftLeft_eq]
  omega

end Riscv32.Isa
