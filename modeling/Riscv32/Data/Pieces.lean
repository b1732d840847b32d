import Mathlib.Algebra.Order.Ring.Nat
import Mathlib.Tactic.Ring

/-!
# Numbers in pieces

A number cut at a bit position.  Its two pieces can be shifted to the right
(`div_pieces`) and cut off to the left (`mod_pieces`) one by one, and what is
left of them adds up without a carry.

This is what a shift by table lookup rests on: the word is taken apart into its
bytes, two neighbouring bytes are looked up as one number, and what the table
says about it is one byte of the result (`extract_pieces`).  `shift_back` is
for amounts whose last bits are dropped by shifting to the left first.
-/

namespace Riscv32.Data

section Pieces

variable {x y n : Nat}

/-- The pieces can be shifted one by one. -/
theorem div_pieces (hy : y < 2 ^ n) (j : Nat) :
    (x * 2 ^ n + y) / 2 ^ j = x * 2 ^ n / 2 ^ j + y / 2 ^ j := by
  rcases Nat.le_total j n with hj | hj
  · obtain ⟨k, rfl⟩ := Nat.exists_eq_add_of_le hj
    have hLow : x * 2 ^ (j + k) = x * 2 ^ k * 2 ^ j := by ring
    rw [hLow, Nat.mul_div_cancel _ (Nat.two_pow_pos j), Nat.add_comm, Nat.add_comm (x * 2 ^ k)]
    exact Nat.add_mul_div_right _ _ (Nat.two_pow_pos j)
  · obtain ⟨k, rfl⟩ := Nat.exists_eq_add_of_le hj
    have hZero : y / 2 ^ (n + k) = 0 :=
      Nat.div_eq_of_lt (hy.trans_le (Nat.pow_le_pow_right (by decide) hj))
    rw [hZero, Nat.add_zero, Nat.pow_add, ← Nat.div_div_eq_div_mul, ← Nat.div_div_eq_div_mul,
      Nat.mul_div_cancel _ (Nat.two_pow_pos n)]
    congr 1
    rw [Nat.add_comm, Nat.add_mul_div_right _ _ (Nat.two_pow_pos n), Nat.div_eq_of_lt hy,
      Nat.zero_add]

/-- The pieces can be cut off one by one. -/
theorem mod_pieces (hy : y < 2 ^ n) (m : Nat) :
    (x * 2 ^ n + y) % 2 ^ m = x * 2 ^ n % 2 ^ m + y % 2 ^ m := by
  rcases Nat.le_total m n with hm | hm
  · obtain ⟨k, rfl⟩ := Nat.exists_eq_add_of_le hm
    have hMany : x * 2 ^ (m + k) = x * 2 ^ k * 2 ^ m := by ring
    rw [hMany, Nat.mul_mod_left, Nat.zero_add, Nat.add_comm, Nat.add_mul_mod_self_right]
  · obtain ⟨k, rfl⟩ := Nat.exists_eq_add_of_le hm
    have hSmall : y % 2 ^ (n + k) = y :=
      Nat.mod_eq_of_lt (hy.trans_le (Nat.pow_le_pow_right (by decide) hm))
    have hHigh : x * 2 ^ n % 2 ^ (n + k) = x % 2 ^ k * 2 ^ n := by
      rw [Nat.add_comm n k, Nat.pow_add, Nat.mul_mod_mul_right]
    have hFit : x % 2 ^ k * 2 ^ n + y < 2 ^ (n + k) := by
      have hLess : x % 2 ^ k < 2 ^ k := Nat.mod_lt _ (Nat.two_pow_pos k)
      calc x % 2 ^ k * 2 ^ n + y < x % 2 ^ k * 2 ^ n + 2 ^ n := Nat.add_lt_add_left hy _
        _ = (x % 2 ^ k + 1) * 2 ^ n := by ring
        _ ≤ 2 ^ k * 2 ^ n := Nat.mul_le_mul_right _ hLess
        _ = 2 ^ (n + k) := by ring
    rw [hSmall, Nat.add_mod, hHigh, hSmall, Nat.mod_eq_of_lt hFit]

/-- Both at once. -/
theorem extract_pieces (hy : y < 2 ^ n) (j m : Nat) : (x * 2 ^ n + y) / 2 ^ j % 2 ^ m =
    x * 2 ^ n / 2 ^ j % 2 ^ m + y / 2 ^ j % 2 ^ m := by
  rw [div_pieces hy]
  rcases Nat.le_total j n with hj | hj
  · obtain ⟨k, rfl⟩ := Nat.exists_eq_add_of_le hj
    have hLow : x * 2 ^ (j + k) / 2 ^ j = x * 2 ^ k := by
      rw [show x * 2 ^ (j + k) = x * 2 ^ k * 2 ^ j by ring,
        Nat.mul_div_cancel _ (Nat.two_pow_pos j)]
    rw [hLow]
    refine mod_pieces ?_ m
    rw [Nat.div_lt_iff_lt_mul (Nat.two_pow_pos j), ← Nat.pow_add, Nat.add_comm]
    exact hy
  · rw [Nat.div_eq_of_lt (hy.trans_le (Nat.pow_le_pow_right (by decide) hj)), Nat.add_zero,
      Nat.zero_mod, Nat.add_zero]

/-- A shift to the left that is partly taken back. -/
theorem shift_back (i j : Nat) : x * 2 ^ (n + i) / 2 ^ j / 2 ^ i = x * 2 ^ n / 2 ^ j := by
  rw [Nat.div_div_eq_div_mul, show x * 2 ^ (n + i) = x * 2 ^ n * 2 ^ i by ring,
    Nat.mul_div_mul_right _ _ (Nat.two_pow_pos i)]

end Pieces

end Riscv32.Data
