import Mathlib.Tactic.Ring

/-!
# Long division in base two

The divisor is compared with the remainder at one place value after the other,
from the highest down.  `LongDivision n b k q r` is the state of the work when
the lowest `k` bits of the quotient are still to be found: `n = b * q + r`, the
quotient has no bit below place `k`, and the remainder is less than `b * 2 ^ k`.

`start` begins the work, `take` and `skip` are its two kinds of step, and `done`
reads quotient and remainder off at the end.  A loop that divides this way,
whether in C or in assembly, has the structure as its invariant.  `or_bit` is
for code that sets a bit of the quotient where the mathematics adds it.
-/

namespace Riscv32.Data

/-- Division of `n` by `b` with quotient `q` and remainder `r` so far. -/
structure LongDivision (n b k q r : Nat) : Prop where
  sum : q * b + r = n
  less : r < b * 2 ^ k
  low : 2 ^ k ∣ q

namespace LongDivision

variable {n b k q r : Nat}

theorem start (h : n < b * 2 ^ k) : LongDivision n b k 0 n :=
  ⟨by rw [Nat.zero_mul, Nat.zero_add], h, Nat.dvd_zero _⟩

/-- The divisor fits at this place. -/
theorem take (h : LongDivision n b (k + 1) q r) (hFits : b * 2 ^ k ≤ r) :
    LongDivision n b k (q + 2 ^ k) (r - b * 2 ^ k) := by
  obtain ⟨hSum, hLess, hLow⟩ := h
  refine ⟨?_, ?_, Nat.dvd_add (Dvd.dvd.trans ⟨2, Nat.pow_succ ..⟩ hLow) (Nat.dvd_refl _)⟩
  · rw [Nat.add_mul, Nat.mul_comm (2 ^ k) b]
    omega
  · rw [Nat.pow_succ, ← Nat.mul_assoc] at hLess
    omega

/-- The divisor does not fit. -/
theorem skip (h : LongDivision n b (k + 1) q r) (hLess : r < b * 2 ^ k) :
    LongDivision n b k q r :=
  ⟨h.sum, hLess, Dvd.dvd.trans ⟨2, Nat.pow_succ ..⟩ h.low⟩

/-- The bit that is added to the quotient was clear. -/
theorem or_bit (h : LongDivision n b (k + 1) q r) : q ||| 2 ^ k = q + 2 ^ k := by
  obtain ⟨c, rfl⟩ := h.low
  have hLt : 2 ^ k < 2 ^ (k + 1) := Nat.pow_lt_pow_right (by decide) (Nat.lt_succ_self k)
  exact (Nat.two_pow_add_eq_or_of_lt hLt c).symm

theorem done (h : LongDivision n b 0 q r) : q = n / b ∧ r = n % b := by
  obtain ⟨hSum, hLess, -⟩ := h
  rw [Nat.pow_zero, Nat.mul_one] at hLess
  have hPos : 0 < b := Nat.lt_of_le_of_lt (Nat.zero_le _) hLess
  rw [← hSum, Nat.add_comm]
  exact ⟨by rw [Nat.add_mul_div_right _ _ hPos, Nat.div_eq_of_lt hLess, Nat.zero_add],
    by rw [Nat.add_mul_mod_self_right, Nat.mod_eq_of_lt hLess]⟩

end LongDivision

end Riscv32.Data
