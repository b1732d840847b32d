import Mathlib.Data.List.Basic
import Mathlib.Tactic.Ring

/-!
# Digits by repeated division

The digits of a number in some base, most significant first, each found by
dividing from the start again.  `len b n` counts the divisions until nothing is
left, `digits b n i` are the last `i` digits; this is how a formatter that
cannot write backwards produces a numeral.

With as many digits as it takes to divide the number away they are
`Nat.toDigits`, so the facts about numerals are Mathlib's.

## Main results

* `map_digits` — the digits, as characters, are the numeral of the number.
* `foldl_digits` — the digits read back give the number.
* `len_le_iff`, `head_toDigits` — the length of a numeral, and that it has no
  leading zero.
-/

namespace Riscv32.Data.Radix

/-- The divisions by `b` until nothing is left. -/
def len (b n : Nat) : Nat := if h : 1 < b ∧ 0 < n then len b (n / b) + 1 else 0
termination_by n
decreasing_by exact Nat.div_lt_self h.2 h.1

/-- `n` divided by `b`, `k` times. -/
def divide (b n : Nat) : Nat → Nat
  | 0 => n
  | k + 1 => divide b (n / b) k

/-- The last `i` digits of `n`. -/
def digits (b n : Nat) : Nat → List Nat
  | 0 => []
  | i + 1 => divide b n i % b :: digits b n i

@[simp] theorem len_zero (b : Nat) : len b 0 = 0 := by
  rw [len, dif_neg (by simp)]

section Base

variable {b n : Nat} (hb : 1 < b)

include hb

/-- One division more than for the quotient. -/
theorem len_pos (hn : 0 < n) : len b n = len b (n / b) + 1 := by
  rw [len, dif_pos ⟨hb, hn⟩]

omit hb

/-- The last digit is the remainder of the first division. -/
theorem digits_succ (i : Nat) : digits b n (i + 1) = digits b (n / b) i ++ [n % b] := by
  induction i with
  | zero => rfl
  | succ i ih =>
      calc digits b n (i + 2)
          = divide b (n / b) i % b :: digits b n (i + 1) := rfl
        _ = divide b (n / b) i % b :: (digits b (n / b) i ++ [n % b]) := by rw [ih]
        _ = digits b (n / b) (i + 1) ++ [n % b] := rfl

theorem length_digits (i : Nat) : (digits b n i).length = i := by
  induction i with
  | zero => rfl
  | succ i ih => rw [digits, List.length_cons, ih]

include hb

/-- They are digits. -/
theorem digits_lt (i : Nat) : ∀ d ∈ digits b n i, d < b := by
  induction i with
  | zero => simp [digits]
  | succ i ih => exact List.forall_mem_cons.2 ⟨Nat.mod_lt _ (by omega), ih⟩

/-- **All digits of a number are its numeral.** -/
theorem map_digits (hn : 0 < n) :
    (digits b n (len b n)).map Nat.digitChar = Nat.toDigits b n := by
  induction n using Nat.strong_induction_on with
  | _ n ih =>
      rw [len_pos hb hn, digits_succ, List.map_append, Nat.toDigits_eq_if hb]
      by_cases hSmall : n < b
      · rw [if_pos hSmall, Nat.div_eq_of_lt hSmall, Nat.mod_eq_of_lt hSmall, len_zero]
        rfl
      · have hQuot : 0 < n / b := Nat.div_pos (by omega) (by omega)
        rw [if_neg hSmall, ih (n / b) (Nat.div_lt_self hn hb) hQuot]
        rfl

/-- The divisions count the digits of the numeral. -/
theorem len_eq_length (hn : 0 < n) : len b n = (Nat.toDigits b n).length := by
  rw [← map_digits hb hn, List.length_map, length_digits]

/-- The digits read back give the number. -/
theorem foldl_digits (n : Nat) : (digits b n (len b n)).foldl (fun v d => b * v + d) 0 = n := by
  induction n using Nat.strong_induction_on with
  | _ n ih =>
      by_cases hn : 0 < n
      · rw [len_pos hb hn, digits_succ, List.foldl_append, ih (n / b) (Nat.div_lt_self hn hb)]
        exact Nat.div_add_mod n b
      · obtain rfl : n = 0 := by omega
        rw [len_zero]
        rfl

/-- The length of a numeral, by the size of the number. -/
theorem len_le_iff {k : Nat} (hn : 0 < n) (hk : 0 < k) : len b n ≤ k ↔ n < b ^ k := by
  rw [len_eq_length hb hn, Nat.length_toDigits_le_iff hb hk]

/-- A numeral has no leading zero. -/
theorem head_toDigits (hn : 0 < n) : (Nat.toDigits b n).head? ≠ some '0' := by
  induction n using Nat.strong_induction_on with
  | _ n ih =>
      rw [Nat.toDigits_eq_if hb]
      by_cases hSmall : n < b
      · simp [hSmall]
        omega
      · have hQuot : 0 < n / b := Nat.div_pos (by omega) (by omega)
        rw [if_neg hSmall, List.head?_append_of_ne_nil _ Nat.toDigits_ne_nil]
        exact ih (n / b) (Nat.div_lt_self hn hb) hQuot

end Base

end Riscv32.Data.Radix
