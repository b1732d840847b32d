import Riscv32.Rtl.Params
import Riscv32.Data.Halves
import Mathlib.Tactic.Ring
import Mathlib.Data.Nat.Prime.Basic

/-!
# Counting zeros

`__clzsi2`, `__ctzsi2` and their double-word forms of `int64.c`, which halve
the width that is looked at four times.

A round is one function of the width (`clzRound`, `ctzRound`), and one lemma says
what it does to the invariant: `Leading` and `Trailing` keep the zeros counted and
what is left to look at.  The last two bits are looked up.  The double-word forms
select a half by a mask that is all ones or zero (`flag_eq`).

`zeros_counted` is the result, for every double word but zero.
-/

namespace Riscv32.Klib

open Riscv32.Rtl
open Riscv32.Data

/-! ## The functions -/

/-- A round of `__clzsi2`: `t` is `h` when the upper half of the width is zero. -/
def clzRound (mask h : Word) (s : Word × Word) : Word × Word :=
  let t := if s.1 &&& mask = 0 then h else 0
  (s.1 >>> (h - t), s.2 + t)

/-- `__clzsi2`. -/
def clzsi2 (a : Word) : Word :=
  let s := clzRound 0xFFFF0000 16 (a, 0)
  let s := clzRound 0xFF00 8 s
  let s := clzRound 0xF0 4 s
  let s := clzRound 0xC 2 s
  s.2 + ((2 - s.1) &&& -(if s.1 &&& 2 = 0 then 1 else 0))

/-- A round of `__ctzsi2`: `t` is `h` when the lower half of the width is zero. -/
def ctzRound (mask h : Word) (s : Word × Word) : Word × Word :=
  let t := if s.1 &&& mask = 0 then h else 0
  (s.1 >>> t, s.2 + t)

/-- `__ctzsi2`. -/
def ctzsi2 (a : Word) : Word :=
  let s := ctzRound 0x0000FFFF 16 (a, 0)
  let s := ctzRound 0x00FF 8 s
  let s := ctzRound 0x0F 4 s
  let s := ctzRound 0x3 2 s
  let x := s.1 &&& 3
  s.2 + ((2 - x >>> 1) &&& -(if x &&& 1 = 0 then 1 else 0))

/-- `__clzdi2`. -/
def clzdi2 (high low : Word) : Word :=
  let f : Word := -(if high = 0 then 1 else 0)
  clzsi2 ((high &&& ~~~f) ||| (low &&& f)) + (f &&& 32)

/-- `__ctzdi2`. -/
def ctzdi2 (high low : Word) : Word :=
  let f : Word := -(if low = 0 then 1 else 0)
  ctzsi2 ((high &&& f) ||| (low &&& ~~~f)) + (f &&& 32)

/-! ## What they count -/

/-- The first one of `a`, a number of `w` bits, has `c` zeros before it. -/
structure LeadingZeros (w a c : Nat) : Prop where
  less : c < w
  low : 2 ^ (w - 1 - c) ≤ a
  high : a < 2 ^ (w - c)

/-- The last one of `a` has `c` zeros behind it. -/
def TrailingZeros (a c : Nat) : Prop := ∃ j, a = 2 ^ c * (2 * j + 1)

/-! ## Masks -/

theorem and_high_eq_zero {x mask : Word} {h : Nat}
    (hMask : ∀ i < 32, mask.getLsbD i = (decide (h ≤ i) && decide (i < 2 * h)))
    (hx : x.toNat < 2 ^ (2 * h)) : x &&& mask = 0 ↔ x.toNat < 2 ^ h := by
  have hBits : x &&& mask = 0 ↔ ∀ i < 32, h ≤ i → i < 2 * h → x.getLsbD i = false := by
    constructor
    · intro hZero i hi h1 h2
      have hBit := congrArg (·.getLsbD i) hZero
      simpa [hMask i hi, h1, h2] using hBit
    · intro hAll
      apply BitVec.eq_of_getLsbD_eq
      intro i hi
      rw [BitVec.getLsbD_and, hMask i hi]
      by_cases hIn : h ≤ i ∧ i < 2 * h
      · rw [hAll i hi hIn.1 hIn.2]
        simp
      · have hOut : (decide (h ≤ i) && decide (i < 2 * h)) = false := by
          simpa using hIn
        rw [hOut]
        simp
  rw [hBits]
  constructor
  · intro hAll
    refine Nat.lt_pow_two_of_testBit _ fun i hi => ?_
    by_cases hTop : i < 2 * h
    · by_cases hi32 : i < 32
      · exact hAll i hi32 hi hTop
      · exact BitVec.testBit_toNat x ▸ BitVec.getLsbD_of_ge x i (by omega)
    · exact Nat.testBit_lt_two_pow
        (Nat.lt_of_lt_of_le hx (Nat.pow_le_pow_right (by decide) (by omega)))
  · intro hLess i _ hi _
    rw [← BitVec.testBit_toNat]
    exact Nat.testBit_lt_two_pow (Nat.lt_of_lt_of_le hLess (Nat.pow_le_pow_right (by decide) hi))

theorem and_low_eq_zero {x mask : Word} {h : Nat} (hMask : mask.toNat = 2 ^ h - 1) :
    x &&& mask = 0 ↔ x.toNat % 2 ^ h = 0 := by
  rw [← BitVec.toNat_inj, BitVec.toNat_and, hMask, Nat.and_two_pow_sub_one_eq_mod]
  rfl

/-! ## Leading zeros -/

/-- `r` zeros have been counted, and `x` is what is left of the first `w + r`
bits of `a`. -/
structure Leading (a w x r : Nat) : Prop where
  quot : x = a / 2 ^ (32 - w - r)
  less : a < 2 ^ (32 - r)
  pos : x ≠ 0
  width : w + r ≤ 32

section Leading

variable {a : Nat} {s : Word × Word}

theorem Leading.small {w x r : Nat} (hLead : Leading a w x r) : x < 2 ^ w := by
  obtain ⟨hQuot, hLess, -, hWidth⟩ := hLead
  rw [hQuot, Nat.div_lt_iff_lt_mul (Nat.two_pow_pos _), ← Nat.pow_add]
  rwa [show w + (32 - w - r) = 32 - r by omega]

theorem Leading.clzRound (h : Nat) (mask k : Word)
    (hLead : Leading a (2 * h) s.1.toNat s.2.toNat) (hk : k.toNat = h)
    (hMask : ∀ i < 32, mask.getLsbD i = (decide (h ≤ i) && decide (i < 2 * h))) :
    Leading a h (clzRound mask k s).1.toNat (clzRound mask k s).2.toNat := by
  have hSmall := hLead.small
  obtain ⟨hQuot, hLess, hPos, hWidth⟩ := hLead
  have hTest := and_high_eq_zero hMask hSmall
  unfold Klib.clzRound
  by_cases hUpper : s.1.toNat < 2 ^ h
  · -- the upper half is zero
    have hAmount : (k - k : Word).toNat = 0 := by simp
    have hCount : (s.2 + k).toNat = s.2.toNat + h := by
      rw [BitVec.toNat_add, hk, Nat.mod_eq_of_lt (by omega)]
    rw [if_pos (hTest.mpr hUpper)]
    refine ⟨?_, ?_, ?_, ?_⟩
    · simp only [BitVec.ushiftRight_eq', hAmount, BitVec.ushiftRight_zero, hCount]
      rw [hQuot, show 32 - 2 * h - s.2.toNat = 32 - h - (s.2.toNat + h) by omega]
    · rw [hCount]
      rw [hQuot, Nat.div_lt_iff_lt_mul (Nat.two_pow_pos _), ← Nat.pow_add] at hUpper
      rwa [show 32 - (s.2.toNat + h) = h + (32 - 2 * h - s.2.toNat) by omega]
    · simpa only [BitVec.ushiftRight_eq', hAmount, BitVec.ushiftRight_zero] using hPos
    · rw [hCount]
      omega
  · have hAmount : (k - 0 : Word).toNat = h := by simpa using hk
    have hCount : (s.2 + 0).toNat = s.2.toNat := by simp
    have hShift : (s.1 >>> (k - 0)).toNat = s.1.toNat / 2 ^ h := by
      rw [BitVec.ushiftRight_eq', hAmount, BitVec.toNat_ushiftRight, Nat.shiftRight_eq_div_pow]
    rw [if_neg fun hZero => hUpper (hTest.mp hZero)]
    refine ⟨?_, ?_, ?_, ?_⟩
    · rw [hShift, hCount, hQuot, Nat.div_div_eq_div_mul, ← Nat.pow_add]
      rw [show 32 - 2 * h - s.2.toNat + h = 32 - h - s.2.toNat by omega]
    · rwa [hCount]
    · rw [hShift]
      exact (Nat.div_pos (Nat.le_of_not_lt hUpper) (Nat.two_pow_pos h)).ne'
    · rw [hCount]
      omega

/-- The last two bits are looked up. -/
theorem Leading.last {x r : Word} (hLead : Leading a 2 x.toNat r.toNat) :
    LeadingZeros 32 a (r + ((2 - x) &&& -(if x &&& 2 = 0 then 1 else 0))).toNat := by
  have hSmall := hLead.small
  obtain ⟨hQuot, hLess, hPos, hWidth⟩ := hLead
  have hLow : x.toNat * 2 ^ (32 - 2 - r.toNat) ≤ a := hQuot ▸ Nat.div_mul_le_self _ _
  have hHigh : a < (x.toNat + 1) * 2 ^ (32 - 2 - r.toNat) := by
    rw [hQuot, ← Nat.div_lt_iff_lt_mul (Nat.two_pow_pos _)]
    exact Nat.lt_succ_self _
  have hCases : x = 1 ∨ x = 2 ∨ x = 3 := by
    simp only [← BitVec.toNat_inj]
    show x.toNat = 1 ∨ x.toNat = 2 ∨ x.toNat = 3
    omega
  have hDouble : 2 ^ (31 - r.toNat) = 2 * 2 ^ (30 - r.toNat) := by
    rw [← Nat.pow_succ', show (30 - r.toNat).succ = 31 - r.toNat by omega]
  rcases hCases with rfl | rfl | rfl
  · have hCount : (r + ((2 - 1) &&& -(if (1 : Word) &&& 2 = 0 then 1 else 0))).toNat =
        r.toNat + 1 := by
      rw [show ((2 - 1 : Word) &&& -(if (1 : Word) &&& 2 = 0 then 1 else 0)) = 1 by decide,
        BitVec.toNat_add]
      exact Nat.mod_eq_of_lt (by simp; omega)
    rw [hCount]
    refine ⟨by omega, ?_, ?_⟩
    · rw [show 32 - 1 - (r.toNat + 1) = 32 - 2 - r.toNat by omega]
      simpa using hLow
    · rw [show 32 - (r.toNat + 1) = 31 - r.toNat by omega, hDouble]
      simpa using hHigh
  · rw [show r + ((2 - 2) &&& -(if (2 : Word) &&& 2 = 0 then 1 else 0)) = r by simp]
    exact ⟨by omega, by rw [show 32 - 1 - r.toNat = 31 - r.toNat by omega, hDouble]; exact hLow,
      hLess⟩
  · rw [show r + ((2 - 3) &&& -(if (3 : Word) &&& 2 = 0 then 1 else 0)) = r by simp]
    refine ⟨by omega, ?_, hLess⟩
    rw [show 32 - 1 - r.toNat = 31 - r.toNat by omega, hDouble]
    exact Nat.le_trans (Nat.mul_le_mul_right _ (by decide)) hLow

/-- `__clzsi2` counts the leading zeros. -/
theorem clzsi2_spec (b : Word) (hb : b ≠ 0) : LeadingZeros 32 b.toNat (clzsi2 b).toNat := by
  have hStart : Leading b.toNat 32 b.toNat (0 : Word).toNat :=
    ⟨by simp, b.isLt, fun hZero => hb (BitVec.eq_of_toNat_eq hZero), by simp⟩
  have h16 := Leading.clzRound 16 0xFFFF0000 16 (s := (b, 0)) hStart rfl (by decide)
  have h8 := h16.clzRound 8 0xFF00 8 rfl (by decide)
  have h4 := h8.clzRound 4 0xF0 4 rfl (by decide)
  have h2 := h4.clzRound 2 0xC 2 rfl (by decide)
  exact h2.last

end Leading

/-! ## Trailing zeros -/

/-- `r` zeros have been counted, and there is a one in the next `w` bits. -/
structure Trailing (a w x r : Nat) : Prop where
  split : a = 2 ^ r * x
  one : x % 2 ^ w ≠ 0
  width : w + r ≤ 32

section Trailing

variable {a : Nat} {s : Word × Word}

theorem Trailing.ctzRound (h : Nat) (mask k : Word)
    (hTrail : Trailing a (2 * h) s.1.toNat s.2.toNat) (hk : k.toNat = h)
    (hMask : mask.toNat = 2 ^ h - 1) :
    Trailing a h (ctzRound mask k s).1.toNat (ctzRound mask k s).2.toNat := by
  obtain ⟨hSplit, hOne, hWidth⟩ := hTrail
  have hTest : s.1 &&& mask = 0 ↔ s.1.toNat % 2 ^ h = 0 := and_low_eq_zero hMask
  unfold Klib.ctzRound
  by_cases hLower : s.1.toNat % 2 ^ h = 0
  · -- the lower half is zero
    have hCount : (s.2 + k).toNat = s.2.toNat + h := by
      rw [BitVec.toNat_add, hk, Nat.mod_eq_of_lt (by omega)]
    have hShift : (s.1 >>> k).toNat = s.1.toNat / 2 ^ h := by
      rw [BitVec.ushiftRight_eq', hk, BitVec.toNat_ushiftRight, Nat.shiftRight_eq_div_pow]
    have hBack : 2 ^ h * (s.1.toNat / 2 ^ h) = s.1.toNat :=
      Nat.mul_div_cancel' (Nat.dvd_of_mod_eq_zero hLower)
    rw [if_pos (hTest.mpr hLower)]
    refine ⟨?_, ?_, ?_⟩
    · rw [hShift, hCount, Nat.pow_add, Nat.mul_assoc, hBack]
      exact hSplit
    · intro hZero
      rw [hShift] at hZero
      refine hOne (Nat.mod_eq_zero_of_dvd ?_)
      rw [← hBack, Nat.two_mul, Nat.pow_add]
      exact Nat.mul_dvd_mul_left _ (Nat.dvd_of_mod_eq_zero hZero)
    · rw [hCount]
      omega
  · rw [if_neg fun hZero => hLower (hTest.mp hZero)]
    refine ⟨?_, ?_, ?_⟩
    · simpa using hSplit
    · simpa using hLower
    · simpa using Nat.le_trans (by omega) hWidth

/-- The last two bits are looked up. -/
theorem Trailing.last {x r : Word} (hTrail : Trailing a 2 x.toNat r.toNat) :
    TrailingZeros a (r + ((2 - (x &&& 3) >>> 1) &&&
      -(if x &&& 3 &&& 1 = 0 then 1 else 0))).toNat := by
  obtain ⟨hSplit, hOne, hWidth⟩ := hTrail
  have hLow : (x &&& 3).toNat = x.toNat % 4 := by
    rw [BitVec.toNat_and]
    exact Nat.and_two_pow_sub_one_eq_mod _ 2
  have hCases : x &&& 3 = 1 ∨ x &&& 3 = 2 ∨ x &&& 3 = 3 := by
    simp only [← BitVec.toNat_inj, hLow]
    show x.toNat % 4 = 1 ∨ x.toNat % 4 = 2 ∨ x.toNat % 4 = 3
    omega
  rcases hCases with hx | hx | hx <;> rw [hx] at hLow ⊢
  · rw [show r + ((2 - (1 : Word) >>> 1) &&& -(if (1 : Word) &&& 1 = 0 then 1 else 0)) = r by simp]
    refine ⟨x.toNat / 2, ?_⟩
    rw [hSplit]
    have hOdd : x.toNat % 4 = 1 := hLow.symm
    congr 1
    omega
  · have hCount :
        (r + ((2 - (2 : Word) >>> 1) &&& -(if (2 : Word) &&& 1 = 0 then 1 else 0))).toNat =
        r.toNat + 1 := by
      rw [show ((2 - (2 : Word) >>> 1) &&& -(if (2 : Word) &&& 1 = 0 then 1 else 0)) = 1 by decide,
        BitVec.toNat_add]
      exact Nat.mod_eq_of_lt (by simp; omega)
    have hEven : x.toNat % 4 = 2 := hLow.symm
    refine ⟨x.toNat / 4, ?_⟩
    rw [hCount, hSplit, Nat.pow_succ, Nat.mul_assoc]
    congr 1
    omega
  · rw [show r + ((2 - (3 : Word) >>> 1) &&& -(if (3 : Word) &&& 1 = 0 then 1 else 0)) = r by simp]
    refine ⟨x.toNat / 2, ?_⟩
    rw [hSplit]
    have hOdd : x.toNat % 4 = 3 := hLow.symm
    congr 1
    omega

/-- `__ctzsi2` counts the trailing zeros. -/
theorem ctzsi2_spec (b : Word) (hb : b ≠ 0) : TrailingZeros b.toNat (ctzsi2 b).toNat := by
  have hStart : Trailing b.toNat 32 b.toNat (0 : Word).toNat := by
    refine ⟨by simp, ?_, by simp⟩
    rw [Nat.mod_eq_of_lt b.isLt]
    exact fun hZero => hb (BitVec.eq_of_toNat_eq hZero)
  have h16 := Trailing.ctzRound 16 0x0000FFFF 16 (s := (b, 0)) hStart rfl rfl
  have h8 := h16.ctzRound 8 0x00FF 8 rfl rfl
  have h4 := h8.ctzRound 4 0x0F 4 rfl rfl
  have h2 := h4.ctzRound 2 0x3 2 rfl rfl
  exact h2.last

end Trailing

/-! ## Powers of two -/

/-- The test for a power of two, which is then the one that is counted. -/
theorem eq_two_pow {x : Word} (hx : x ≠ 0) (hPow : x &&& (x - 1) = 0) :
    x.toNat = 2 ^ (ctzsi2 x).toNat := by
  have hPos : x.toNat ≠ 0 := fun hZero => hx (BitVec.eq_of_toNat_eq hZero)
  have hPred : (x - 1).toNat = x.toNat - 1 := by
    have hOne : (1 : Word).toNat = 1 := rfl
    rw [BitVec.toNat_sub_of_le (by rw [BitVec.le_def]; omega), hOne]
  have hAnd : x.toNat &&& (x.toNat - 1) = 0 := by
    rw [← hPred, ← BitVec.toNat_and, hPow]
    rfl
  obtain ⟨k, hk⟩ := (Nat.and_sub_one_eq_zero_iff_isPowerOfTwo hPos).mp hAnd
  obtain ⟨j, hj⟩ := ctzsi2_spec x hx
  -- the odd factor of a power of two is one
  have hDvd : 2 * j + 1 ∣ 2 ^ k := ⟨2 ^ (ctzsi2 x).toNat, by rw [← hk, hj, Nat.mul_comm]⟩
  obtain ⟨m, -, hm⟩ := (Nat.dvd_prime_pow Nat.prime_two).mp hDvd
  have hOdd : 2 * j + 1 = 1 := by
    cases m with
    | zero => exact hm
    | succ m =>
        rw [Nat.pow_succ] at hm
        omega
  rw [hj, hOdd, Nat.mul_one]

theorem and_pred {n x : Word} {c : Nat} (hx : x.toNat = 2 ^ c) :
    (n &&& (x - 1)).toNat = n.toNat % 2 ^ c := by
  have hOne : (1 : Word).toNat = 1 := rfl
  have hPos : 0 < 2 ^ c := Nat.two_pow_pos c
  have hPred : (x - 1).toNat = 2 ^ c - 1 := by
    rw [BitVec.toNat_sub_of_le (by rw [BitVec.le_def]; omega), hOne, hx]
  rw [BitVec.toNat_and, hPred, Nat.and_two_pow_sub_one_eq_mod]

/-! ## Double words -/

section Double

variable {high low : Word}

/-- `f` is all ones or zero, and selects one of the halves. -/
private theorem flag_eq (x : Word) :
    -(if x = 0 then (1 : Word) else 0) = if x = 0 then BitVec.allOnes 32 else 0 := by
  by_cases hx : x = 0
  · rw [if_pos hx, if_pos hx]
    rfl
  · rw [if_neg hx, if_neg hx]
    rfl

theorem clzdi2_eq (high low : Word) :
    clzdi2 high low = if high = 0 then clzsi2 low + 32 else clzsi2 high := by
  unfold clzdi2
  rw [flag_eq]
  by_cases hHigh : high = 0
  · simp only [if_pos hHigh, BitVec.not_allOnes, BitVec.and_zero, BitVec.and_allOnes,
      BitVec.zero_or, BitVec.allOnes_and]
  · have hOnes : ~~~(0 : Word) = BitVec.allOnes 32 := rfl
    simp only [if_neg hHigh]
    rw [hOnes, BitVec.and_allOnes]
    simp

theorem ctzdi2_eq (high low : Word) :
    ctzdi2 high low = if low = 0 then ctzsi2 high + 32 else ctzsi2 low := by
  unfold ctzdi2
  rw [flag_eq]
  by_cases hLow : low = 0
  · simp only [if_pos hLow, BitVec.not_allOnes, BitVec.and_zero, BitVec.and_allOnes,
      BitVec.or_zero, BitVec.allOnes_and]
  · have hOnes : ~~~(0 : Word) = BitVec.allOnes 32 := rfl
    simp only [if_neg hLow]
    rw [hOnes, BitVec.and_allOnes]
    simp

/-- The count of a half has room for the other one. -/
private theorem count_add {c : Word} (hc : c.toNat < 32) : (c + 32).toNat = c.toNat + 32 := by
  rw [BitVec.toNat_add]
  exact Nat.mod_eq_of_lt (by simp; omega)

theorem TrailingZeros.less {a c n : Nat} (h : TrailingZeros a c) (ha : a < 2 ^ n) : c < n := by
  obtain ⟨j, rfl⟩ := h
  have hPow : 2 ^ c < 2 ^ n :=
    Nat.lt_of_le_of_lt (Nat.le_mul_of_pos_right _ (Nat.succ_pos _)) ha
  exact (Nat.pow_lt_pow_iff_right (by decide)).mp hPow

theorem LeadingZeros.double {h l c : Nat} (hZeros : LeadingZeros 32 h c) (hl : l < 2 ^ 32) :
    LeadingZeros 64 (h * 4294967296 + l) c := by
  obtain ⟨hLess, hBelow, hAbove⟩ := hZeros
  refine ⟨by omega, ?_, ?_⟩
  · rw [show 64 - 1 - c = 32 - 1 - c + 32 by omega, Nat.pow_add]
    omega
  · rw [show 64 - c = 32 - c + 32 by omega, Nat.pow_add]
    omega

theorem LeadingZeros.widen {l c : Nat} (hZeros : LeadingZeros 32 l c) :
    LeadingZeros 64 l (c + 32) := by
  obtain ⟨hLess, hBelow, hAbove⟩ := hZeros
  refine ⟨by omega, ?_, ?_⟩
  · rwa [show 64 - 1 - (c + 32) = 32 - 1 - c by omega]
  · rwa [show 64 - (c + 32) = 32 - c by omega]

/-- **Zeros of a double word.**  `__clzdi2` and `__ctzdi2` count the leading and
the trailing zeros of every double word but zero. -/
theorem zeros_counted (h : (high ++ low : BitVec 64) ≠ 0) :
    LeadingZeros 64 (high ++ low : BitVec 64).toNat (clzdi2 high low).toNat ∧
      TrailingZeros (high ++ low : BitVec 64).toNat (ctzdi2 high low).toNat := by
  have hLowLt := low.isLt
  have hHighLt := high.isLt
  have hSome : high ≠ 0 ∨ low ≠ 0 := by
    by_contra hNone
    obtain ⟨rfl, rfl⟩ := not_or.mp hNone |>.imp not_not.mp not_not.mp
    exact h rfl
  rw [toNat_halves, clzdi2_eq, ctzdi2_eq]
  constructor
  · by_cases hHigh : high = 0
    · have hZeros := clzsi2_spec low (hSome.resolve_left (not_not.mpr hHigh))
      rw [if_pos hHigh, hHigh, count_add hZeros.less]
      simpa using hZeros.widen
    · rw [if_neg hHigh]
      exact (clzsi2_spec high hHigh).double hLowLt
  · by_cases hLow : low = 0
    · have hZeros := ctzsi2_spec high (hSome.resolve_right (not_not.mpr hLow))
      have hLess := hZeros.less high.isLt
      obtain ⟨j, hj⟩ := hZeros
      refine ⟨j, ?_⟩
      rw [if_pos hLow, count_add hLess, hLow, hj, Nat.pow_add]
      simp only [BitVec.ofNat_eq_ofNat, BitVec.toNat_ofNat]
      ring
    · have hZeros := ctzsi2_spec low hLow
      have hLess := hZeros.less low.isLt
      obtain ⟨j, hj⟩ := hZeros
      rw [if_neg hLow]
      generalize (ctzsi2 low).toNat = c at hj hLess
      refine ⟨high.toNat * 2 ^ (31 - c) + j, ?_⟩
      have hSplit : 4294967296 = 2 ^ c * (2 * 2 ^ (31 - c)) := by
        rw [← Nat.pow_succ', ← Nat.pow_add, show c + (31 - c).succ = 32 by omega]
      rw [hj, hSplit]
      ring

/-- `0x0000000000f00000`. -/
theorem zeros_counted_low :
    clzdi2 0 0xf00000 = 40 ∧ ctzdi2 0 0xf00000 = 20 ∧
      LeadingZeros 64 ((0 : Word) ++ (0xf00000 : Word) : BitVec 64).toNat
        (clzdi2 0 0xf00000).toNat ∧
      TrailingZeros ((0 : Word) ++ (0xf00000 : Word) : BitVec 64).toNat
        (ctzdi2 0 0xf00000).toNat :=
  ⟨by decide, by decide, zeros_counted (by decide)⟩

end Double

end Riscv32.Klib
