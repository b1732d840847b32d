import Riscv32.Klib.BitCount
import Riscv32.Data.LongDivision

/-!
# Division of double words

`__udivmoddi4` of `int64.c` and the functions over it.  A double word is kept
in two 32-bit halves; special operands are divided in one word, and the others
bit by bit, from the place where the quotient can begin.

The function is cut where the source is: `beginDivision` are the special cases,
which either return or leave the loop its place, and `divisionRound` is a round of
the loop.  The loop is a long division (`Data.LongDivision`), with the quotient
standing in the word that the dividend leaves (`Dividing`).

## Main results

* `begin_right` — the special cases are right, or leave the loop at the place
  where the quotient begins.
* `Dividing.round` — a round finds the next bit of the quotient.
* `division_correct` — all four functions, for every divisor but zero.
-/

namespace Riscv32.Klib

open Riscv32.Rtl
open Riscv32.Data

/-! ## The functions -/

/-- `udwords`. -/
structure Udwords where
  high : Word
  low : Word
deriving DecidableEq, Repr

def Udwords.all (x : Udwords) : BitVec 64 := x.high ++ x.low

def Udwords.of (a : BitVec 64) : Udwords := ⟨a.extractLsb' 32 32, a.extractLsb' 0 32⟩

/-- What `__udivmoddi4` does before its loop: it returns a quotient and a
remainder, or leaves `sr`, `q` and `r`. -/
inductive Begun
  | returned (q rem : BitVec 64)
  | loop (sr : Word) (q r : Udwords)
deriving DecidableEq, Repr

/-- `q` and `r` for `1 <= sr <= n_uword_bits - 1`. -/
def splitLow (n : Udwords) (sr : Word) : Begun :=
  .loop sr ⟨n.low <<< (32 - sr), 0⟩
    ⟨n.high >>> sr, (n.high <<< (32 - sr)) ||| (n.low >>> sr)⟩

/-- The special cases of `__udivmoddi4`. -/
def beginDivision (n d : Udwords) : Begun :=
  if n.high = 0 then
    if d.high = 0 then .returned ((n.low / d.low).setWidth 64) ((n.low % d.low).setWidth 64)
    else .returned 0 (n.low.setWidth 64)
  else if d.low = 0 then
    if d.high = 0 then .returned ((n.high / d.low).setWidth 64) ((n.high % d.low).setWidth 64)
    else if n.low = 0 then
      .returned ((n.high / d.high).setWidth 64) (Udwords.all ⟨n.high % d.high, 0⟩)
    else if d.high &&& (d.high - 1) = 0 then
      .returned ((n.high >>> ctzsi2 d.high).setWidth 64)
        (Udwords.all ⟨n.high &&& (d.high - 1), n.low⟩)
    else
      let sr := clzsi2 d.high - clzsi2 n.high
      if sr > 32 - 2 then .returned 0 n.all else splitLow n (sr + 1)
  else if d.high = 0 then
    if d.low &&& (d.low - 1) = 0 then
      let rem := (n.low &&& (d.low - 1)).setWidth 64
      if d.low = 1 then .returned n.all rem
      else
        let sr := ctzsi2 d.low
        .returned (Udwords.all ⟨n.high >>> sr, (n.high <<< (32 - sr)) ||| (n.low >>> sr)⟩) rem
    else
      let sr := 1 + 32 + clzsi2 d.low - clzsi2 n.high
      if sr = 32 then .loop sr ⟨n.low, 0⟩ ⟨0, n.high⟩
      else if sr < 32 then splitLow n sr
      else
        .loop sr ⟨(n.high <<< (64 - sr)) ||| (n.low >>> (sr - 32)), n.low <<< (64 - sr)⟩
          ⟨0, n.high >>> (sr - 32)⟩
  else
    let sr := clzsi2 d.high - clzsi2 n.high
    if sr > 32 - 1 then .returned 0 n.all
    else
      let sr := sr + 1
      if sr = 32 then .loop sr ⟨n.low, 0⟩ ⟨0, n.high⟩ else splitLow n sr

/-- A round of the loop: `r:q` moves up by one bit, `carry` comes in, and the
divisor is taken away where it fits. -/
def divisionRound (d : Udwords) (s : Udwords × Udwords × Word) : Udwords × Udwords × Word :=
  let (r, q, carry) := s
  let r : Udwords := ⟨(r.high <<< 1) ||| (r.low >>> 31), (r.low <<< 1) ||| (q.high >>> 31)⟩
  let q : Udwords := ⟨(q.high <<< 1) ||| (q.low >>> 31), (q.low <<< 1) ||| carry⟩
  let s : BitVec 64 := (d.all - r.all - 1).sshiftRight 63
  (Udwords.of (r.all - (d.all &&& s)), q, (s &&& 1).setWidth 32)

/-- `__udivmoddi4`: the quotient and `*rem`. -/
def udivmoddi4 (a b : BitVec 64) : BitVec 64 × BitVec 64 :=
  let d := Udwords.of b
  match beginDivision (Udwords.of a) d with
  | .returned q rem => (q, rem)
  | .loop sr q r =>
      let (r, q, carry) := (divisionRound d)^[sr.toNat] (r, q, 0)
      ((q.all <<< 1) ||| carry.setWidth 64, r.all)

/-- `__udivdi3`. -/
def udivdi3 (a b : BitVec 64) : BitVec 64 := (udivmoddi4 a b).1

/-- `__umoddi3`. -/
def umoddi3 (a b : BitVec 64) : BitVec 64 := (udivmoddi4 a b).2

/-- `__divdi3`. -/
def divdi3 (a b : BitVec 64) : BitVec 64 :=
  let sa := a.sshiftRight 63
  let sb := b.sshiftRight 63
  let a := (a ^^^ sa) - sa
  let b := (b ^^^ sb) - sb
  let sa := sa ^^^ sb
  ((udivmoddi4 a b).1 ^^^ sa) - sa

/-- `__moddi3`. -/
def moddi3 (a b : BitVec 64) : BitVec 64 :=
  let s := b.sshiftRight 63
  let b := (b ^^^ s) - s
  let s := a.sshiftRight 63
  let a := (a ^^^ s) - s
  ((udivmoddi4 a b).2 ^^^ s) - s

/-! ## Halves and double words -/

namespace Udwords

theorem toNat_all (x : Udwords) : x.all.toNat = x.high.toNat * 2 ^ 32 + x.low.toNat :=
  toNat_halves x.high x.low

theorem all_of (a : BitVec 64) : (of a).all = a := by
  apply BitVec.eq_of_getLsbD_eq
  intro i hi
  simp only [all, of, BitVec.getLsbD_append, BitVec.getLsbD_extractLsb']
  by_cases hLow : i < 32
  · simp [hLow]
  · simp [hLow, show i - 32 < 32 by omega, show 32 + (i - 32) = i by omega]

theorem getLsbD_all (x : Udwords) (i : Nat) :
    x.all.getLsbD i = if i < 32 then x.low.getLsbD i else x.high.getLsbD (i - 32) :=
  BitVec.getLsbD_append

end Udwords

section Moves

variable {n : Udwords} {k : Nat}

/-- The place where the quotient begins, in the lower word. -/
theorem split_low (h0 : 0 < k) (h32 : k < 32) :
    Udwords.all ⟨n.low <<< (32 - k), 0⟩ = n.all <<< (64 - k) ∧
      Udwords.all ⟨n.high >>> k, (n.high <<< (32 - k)) ||| (n.low >>> k)⟩ = n.all >>> k := by
  constructor <;> apply BitVec.eq_of_getLsbD_eq <;> intro i hi <;>
    simp only [Udwords.getLsbD_all, BitVec.getLsbD_shiftLeft, BitVec.getLsbD_ushiftRight,
      BitVec.getLsbD_or]
  · grind
  · grind

/-- At the border of the words. -/
theorem split_word :
    Udwords.all ⟨n.low, 0⟩ = n.all <<< 32 ∧ Udwords.all ⟨0, n.high⟩ = n.all >>> 32 := by
  constructor <;> apply BitVec.eq_of_getLsbD_eq <;> intro i hi <;>
    simp only [Udwords.getLsbD_all, BitVec.getLsbD_shiftLeft, BitVec.getLsbD_ushiftRight]
  · grind
  · grind

/-- In the upper word. -/
theorem split_high (h32 : 32 < k) (h64 : k < 64) :
    Udwords.all ⟨(n.high <<< (64 - k)) ||| (n.low >>> (k - 32)), n.low <<< (64 - k)⟩ =
        n.all <<< (64 - k) ∧
      Udwords.all ⟨0, n.high >>> (k - 32)⟩ = n.all >>> k := by
  constructor <;> apply BitVec.eq_of_getLsbD_eq <;> intro i hi <;>
    simp only [Udwords.getLsbD_all, BitVec.getLsbD_shiftLeft, BitVec.getLsbD_ushiftRight,
      BitVec.getLsbD_or]
  · grind
  · grind

/-- `r` moves up, and the top of `q` comes in. -/
theorem move_remainder (r q : Udwords) :
    Udwords.all ⟨(r.high <<< 1) ||| (r.low >>> 31), (r.low <<< 1) ||| (q.high >>> 31)⟩ =
      (r.all <<< 1) ||| (q.all >>> 63) := by
  apply BitVec.eq_of_getLsbD_eq
  intro i hi
  simp only [Udwords.getLsbD_all, BitVec.getLsbD_shiftLeft, BitVec.getLsbD_ushiftRight,
    BitVec.getLsbD_or]
  grind

/-- `q` moves up, and the carry comes in. -/
theorem move_quotient (q : Udwords) (carry : Word) :
    Udwords.all ⟨(q.high <<< 1) ||| (q.low >>> 31), (q.low <<< 1) ||| carry⟩ =
      (q.all <<< 1) ||| carry.setWidth 64 := by
  apply BitVec.eq_of_getLsbD_eq
  intro i hi
  simp only [Udwords.getLsbD_all, BitVec.getLsbD_shiftLeft, BitVec.getLsbD_ushiftRight,
    BitVec.getLsbD_or, BitVec.getLsbD_setWidth]
  grind

end Moves

/-! ## The loop -/

/-- The sign, spread over the double word. -/
theorem sign_mask (x : BitVec 64) :
    x.sshiftRight 63 = if x.msb then BitVec.allOnes 64 else 0 := by
  apply BitVec.eq_of_getLsbD_eq
  intro i hi
  have hTop : (if 63 + i < 64 then x.getLsbD (63 + i) else x.msb) = x.msb := by
    rw [BitVec.msb_eq_getLsbD_last]
    split
    · rw [show i = 0 by omega]
    · rfl
  rw [BitVec.getLsbD_sshiftRight, hTop]
  cases x.msb with
  | true =>
      rw [if_pos rfl, BitVec.getLsbD_allOnes]
      simp [hi, Nat.not_le.mpr hi]
  | false => simp

/-- The sign of `d - r - 1` tells whether `d` fits into `r`. -/
theorem sign_fits {d r : BitVec 64} (hLess : r.toNat < 2 * d.toNat)
    (hNear : d.toNat ≤ 2 ^ 63 ∨ 2 ^ 63 ≤ r.toNat) : (d - r - 1).msb = decide (d ≤ r) := by
  have hd := d.isLt
  have hr := r.isLt
  have hOne : (1 : BitVec 64).toNat = 1 := rfl
  rw [BitVec.msb_eq_decide, decide_eq_decide, BitVec.le_def, BitVec.toNat_sub, BitVec.toNat_sub,
    hOne]
  omega

theorem move_value {x y : BitVec 64} (hx : x.toNat < 2 ^ 63) :
    ((x <<< 1) ||| (y >>> 63)).toNat = 2 * x.toNat + y.toNat / 2 ^ 63 := by
  have hTop : y.toNat / 2 ^ 63 < 2 ^ 1 := by
    have hy := y.isLt
    omega
  rw [BitVec.toNat_or, BitVec.toNat_shiftLeft, BitVec.toNat_ushiftRight, Nat.shiftLeft_eq,
    Nat.shiftRight_eq_div_pow, Nat.mod_eq_of_lt (by omega), Nat.mul_comm,
    Nat.two_pow_add_eq_or_of_lt hTop]

theorem carry_value {x : BitVec 64} {c : Word} (hc : c.toNat < 2) :
    ((x <<< 1) ||| c.setWidth 64).toNat = 2 * x.toNat % 2 ^ 64 + c.toNat := by
  have hEven : 2 * x.toNat % 2 ^ 64 = 2 ^ 1 * (x.toNat % 2 ^ 63) := by omega
  have hSmall : c.toNat < 2 ^ 1 := hc
  rw [BitVec.toNat_or, BitVec.toNat_shiftLeft, BitVec.toNat_setWidth, Nat.shiftLeft_eq,
    Nat.mod_eq_of_lt (by omega : c.toNat < 2 ^ 64), Nat.mul_comm, hEven,
    Nat.two_pow_add_eq_or_of_lt hSmall]

/-- A round on double words. -/
theorem divisionRound_all (d r q : Udwords) (carry : Word) :
    let r' := (r.all <<< 1) ||| (q.all >>> 63)
    let fits := (d.all - r' - 1).sshiftRight 63
    (divisionRound d (r, q, carry)).1.all = r' - (d.all &&& fits) ∧
      (divisionRound d (r, q, carry)).2.1.all = (q.all <<< 1) ||| carry.setWidth 64 ∧
      (divisionRound d (r, q, carry)).2.2 = (fits &&& 1).setWidth 32 := by
  rw [← move_remainder]
  exact ⟨Udwords.all_of _, move_quotient q carry, rfl⟩

/-- With `k` places to go, the quotient so far is `Q`: its last bit is the
carry, and the rest stands behind what `q` still holds of the dividend. -/
structure Dividing (a b k Q : Nat) (s : Udwords × Udwords × Word) : Prop where
  long : LongDivision a b k (Q * 2 ^ k) (s.1.all.toNat * 2 ^ k + a % 2 ^ k)
  quotient : s.2.1.all.toNat = a % 2 ^ k * 2 ^ (64 - k) + Q / 2
  carry : s.2.2.toNat = Q % 2
  small : Q < 2 ^ (64 - k)
  near : b ≤ 2 ^ 63 ∨ (k ≤ 1 ∧ 2 ^ 63 ≤ a)

section Loop

variable {a b k Q : Nat} {d : Udwords} {s : Udwords × Udwords × Word}

/-- The remainder of the places seen so far. -/
theorem Dividing.remainder_small (h : Dividing a b (k + 1) Q s) (ha : a < 2 ^ 64) :
    s.1.all.toNat < 2 ^ 63 := by
  have hSum := h.long.sum
  have hPow : 2 ^ (k + 1) = 2 * 2 ^ k := Nat.pow_succ'
  have hPos : 0 < 2 ^ k := Nat.two_pow_pos k
  have hMul : s.1.all.toNat * (2 * 2 ^ k) ≤ a := by
    rw [← hPow]
    omega
  have hLow : s.1.all.toNat * 2 ≤ s.1.all.toNat * (2 * 2 ^ k) :=
    Nat.mul_le_mul_left _ (by omega)
  omega

/-- The next bit of the dividend is on top of `q`. -/
theorem Dividing.top (h : Dividing a b (k + 1) Q s) (hk : k < 63) :
    s.2.1.all.toNat / 2 ^ 63 = a / 2 ^ k % 2 ∧
      2 * s.2.1.all.toNat % 2 ^ 64 + s.2.2.toNat = a % 2 ^ k * 2 ^ (64 - k) + Q := by
  have hSplit : a % 2 ^ (k + 1) = a % 2 ^ k + 2 ^ k * (a / 2 ^ k % 2) := by
    rw [Nat.pow_succ, Nat.mod_mul]
  have hUp : 2 ^ (64 - k) = 2 * 2 ^ (64 - (k + 1)) := by
    rw [← Nat.pow_succ', show (64 - (k + 1)).succ = 64 - k by omega]
  have hTop : 2 ^ k * 2 ^ (64 - (k + 1)) = 2 ^ 63 := by
    rw [← Nat.pow_add, show k + (64 - (k + 1)) = 63 by omega]
  have hLow : a % 2 ^ k < 2 ^ k := Nat.mod_lt _ (Nat.two_pow_pos k)
  have hSmall := h.small
  -- below the top bit: what `q` still holds, and the quotient so far
  have hRest : a % 2 ^ k * 2 ^ (64 - (k + 1)) + Q / 2 < 2 ^ 63 := by
    have hStep : (a % 2 ^ k + 1) * 2 ^ (64 - (k + 1)) ≤ 2 ^ 63 :=
      hTop ▸ Nat.mul_le_mul_right _ hLow
    rw [Nat.add_mul, Nat.one_mul] at hStep
    omega
  have hq : s.2.1.all.toNat =
      a / 2 ^ k % 2 * 2 ^ 63 + (a % 2 ^ k * 2 ^ (64 - (k + 1)) + Q / 2) := by
    rw [h.quotient, hSplit, Nat.add_mul, Nat.mul_right_comm, hTop]
    ring
  have hBit : a / 2 ^ k % 2 < 2 := Nat.mod_lt _ (by decide)
  rw [h.carry, hUp, ← Nat.mul_assoc, Nat.mul_right_comm]
  generalize a % 2 ^ k * 2 ^ (64 - (k + 1)) = x at hq hRest ⊢
  generalize a / 2 ^ k % 2 = β at hq hBit ⊢
  omega

/-- The long division, before the divisor is compared at place `k`. -/
theorem Dividing.compare (h : Dividing a b (k + 1) Q s) :
    LongDivision a b (k + 1) (2 * Q * 2 ^ k)
      ((2 * s.1.all.toNat + a / 2 ^ k % 2) * 2 ^ k + a % 2 ^ k) := by
  have hSplit : a % 2 ^ (k + 1) = a % 2 ^ k + 2 ^ k * (a / 2 ^ k % 2) := by
    rw [Nat.pow_succ, Nat.mod_mul]
  have hRest : (2 * s.1.all.toNat + a / 2 ^ k % 2) * 2 ^ k + a % 2 ^ k =
      s.1.all.toNat * 2 ^ (k + 1) + a % 2 ^ (k + 1) := by
    rw [hSplit]
    ring
  have hQuot : 2 * Q * 2 ^ k = Q * 2 ^ (k + 1) := by ring
  rw [hRest, hQuot]
  exact h.long

/-- **A round of the loop** finds the next bit of the quotient. -/
theorem Dividing.round (h : Dividing a b (k + 1) Q s) (ha : a < 2 ^ 64) (hk : k < 63)
    (hd : d.all.toNat = b) : ∃ c, Dividing a b k (2 * Q + c) (divisionRound d s) := by
  have hSmall := h.remainder_small ha
  obtain ⟨hTop, hShift⟩ := h.top hk
  have hCompare := h.compare
  have hCarry : s.2.2.toNat < 2 := h.carry ▸ Nat.mod_lt _ (by decide)
  have hNear := h.near
  have hBound := h.small
  have hMod : a % 2 ^ k < 2 ^ k := Nat.mod_lt _ (Nat.two_pow_pos k)
  obtain ⟨r, q, carry⟩ := s
  simp only at hSmall hTop hShift hCompare hCarry
  have hr := move_value (y := q.all) hSmall
  have hq : ((q.all <<< 1) ||| carry.setWidth 64).toNat = a % 2 ^ k * 2 ^ (64 - k) + Q :=
    (carry_value hCarry).trans hShift
  rw [hTop] at hr
  obtain ⟨hNextR, hNextQ, hNextCarry⟩ := divisionRound_all d r q carry
  generalize (r.all <<< 1) ||| (q.all >>> 63) = r' at hr hNextR hNextCarry
  rw [← hr] at hCompare
  -- the remainder is below twice the divisor
  have hTwice : r'.toNat < 2 * d.all.toNat := by
    have hLess := hCompare.less
    rw [Nat.pow_succ', ← Nat.mul_assoc, Nat.mul_comm b 2, ← hd] at hLess
    exact Nat.lt_of_mul_lt_mul_right (Nat.lt_of_le_of_lt (Nat.le_add_right _ _) hLess)
  -- a divisor with its top bit set is compared with the whole dividend
  have hFull : d.all.toNat ≤ 2 ^ 63 ∨ 2 ^ 63 ≤ r'.toNat := by
    rw [hd]
    refine or_iff_not_imp_left.mpr fun hWide => ?_
    obtain ⟨hLast, hTopBit⟩ := hNear.resolve_left hWide
    obtain rfl : k = 0 := by omega
    have hSum := hCompare.sum
    simp only [Nat.pow_zero, Nat.mul_one, Nat.mod_one, Nat.add_zero] at hSum
    have hZero : Q = 0 := by
      by_contra hPos
      have hMul : 2 * 1 * b ≤ 2 * Q * b := Nat.mul_le_mul_right _ (by omega)
      omega
    simp only [hZero, Nat.mul_zero, Nat.zero_mul, Nat.zero_add] at hSum
    omega
  rw [sign_mask, sign_fits hTwice hFull] at hNextR hNextCarry
  have hUp : 2 ^ (64 - k) = 2 * 2 ^ (64 - (k + 1)) := by
    rw [← Nat.pow_succ', show (64 - (k + 1)).succ = 64 - k by omega]
  have hNear' : b ≤ 2 ^ 63 ∨ (k ≤ 1 ∧ 2 ^ 63 ≤ a) :=
    hNear.imp_right fun ⟨hLast, hTopBit⟩ => ⟨by omega, hTopBit⟩
  by_cases hFits : d.all ≤ r'
  · rw [if_pos (decide_eq_true hFits)] at hNextR hNextCarry
    rw [BitVec.and_allOnes] at hNextR
    have hBelow : b ≤ r'.toNat := hd ▸ hFits
    have hValue : (r' - d.all).toNat = r'.toNat - b := by
      rw [BitVec.toNat_sub_of_le hFits, hd]
    have hTake := hCompare.take
      (Nat.le_trans (Nat.mul_le_mul_right _ hBelow) (Nat.le_add_right _ _))
    refine ⟨1, ?_, ?_, ?_, ?_, hNear'⟩
    · rw [hNextR, hValue, Nat.sub_mul, Nat.add_mul, Nat.one_mul]
      have hMul : b * 2 ^ k ≤ r'.toNat * 2 ^ k := Nat.mul_le_mul_right _ hBelow
      rwa [← Nat.sub_add_comm hMul]
    · rw [hNextQ, hq]
      omega
    · rw [hNextCarry]
      show 1 = _
      omega
    · omega
  · rw [if_neg (by simpa using hFits)] at hNextR hNextCarry
    have hAbove : r'.toNat < b := hd ▸ BitVec.not_le.mp hFits
    have hSkip := hCompare.skip (by
      have hMul : (r'.toNat + 1) * 2 ^ k ≤ b * 2 ^ k := Nat.mul_le_mul_right _ hAbove
      rw [Nat.add_mul, Nat.one_mul] at hMul
      omega)
    refine ⟨0, ?_, ?_, ?_, ?_, hNear'⟩
    · rw [hNextR]
      simpa using hSkip
    · rw [hNextQ, hq]
      omega
    · rw [hNextCarry]
      show 0 = _
      omega
    · omega

/-- The loop finds the quotient and the remainder. -/
theorem Dividing.run (h : Dividing a b k Q s) (ha : a < 2 ^ 64) (hk : k ≤ 63)
    (hd : d.all.toNat = b) : ∃ Q', Dividing a b 0 Q' ((divisionRound d)^[k] s) := by
  induction k generalizing Q s with
  | zero => exact ⟨Q, h⟩
  | succ k ih =>
      obtain ⟨c, hRound⟩ := h.round ha (by omega) hd
      rw [Function.iterate_succ_apply]
      exact ih hRound (by omega)

theorem Dividing.done (h : Dividing a b 0 Q s) :
    ((s.2.1.all <<< 1) ||| s.2.2.setWidth 64).toNat = a / b ∧ s.1.all.toNat = a % b := by
  have hLong := h.long
  simp only [Nat.pow_zero, Nat.mul_one, Nat.mod_one, Nat.add_zero] at hLong
  obtain ⟨hQuot, hRem⟩ := hLong.done
  refine ⟨?_, hRem⟩
  have hq := h.quotient
  have hc := h.carry
  have hSmall := h.small
  simp only [Nat.pow_zero, Nat.mod_one, Nat.zero_mul, Nat.zero_add] at hq
  rw [carry_value (hc ▸ Nat.mod_lt _ (by decide)), hq, hc, ← hQuot]
  omega

end Loop

/-! ## The special cases -/

/-- What is right for `a` and `b` before the loop: the results, or the place
where the quotient begins. -/
def Begun.Right (a b : BitVec 64) : Begun → Prop
  | .returned q rem => q.toNat = a.toNat / b.toNat ∧ rem.toNat = a.toNat % b.toNat
  | .loop sr q r => 0 < sr.toNat ∧ sr.toNat < 64 ∧ q.all = a <<< (64 - sr.toNat) ∧
      r.all = a >>> sr.toNat ∧ a.toNat / 2 ^ sr.toNat < b.toNat ∧
      (b.toNat ≤ 2 ^ 63 ∨ (sr.toNat ≤ 1 ∧ 2 ^ 63 ≤ a.toNat))

section Begin

variable {n d : Udwords} {sr : Word}

/-- Where the quotient begins, from the zeros before both operands. -/
theorem begin_place {a b x y : Nat} (ha : LeadingZeros 64 a x) (hb : LeadingZeros 64 b y)
    (hxy : x ≤ y) : a / 2 ^ (y + 1 - x) < b ∧
      (b ≤ 2 ^ 63 ∨ (y + 1 - x ≤ 1 ∧ 2 ^ 63 ≤ a)) := by
  obtain ⟨hx, haLow, haHigh⟩ := ha
  obtain ⟨hy, hbLow, hbHigh⟩ := hb
  constructor
  · refine Nat.lt_of_lt_of_le ?_ hbLow
    rw [Nat.div_lt_iff_lt_mul (Nat.two_pow_pos _), ← Nat.pow_add]
    rwa [show 64 - 1 - y + (y + 1 - x) = 64 - x by omega]
  · by_cases hTop : y = 0
    · obtain rfl : x = 0 := by omega
      exact .inr ⟨by omega, haLow⟩
    · exact .inl (Nat.le_trans hbHigh.le (Nat.pow_le_pow_right (by decide) (by omega)))

theorem less_of_zeros {a b x y : Nat} (ha : LeadingZeros 64 a x) (hb : LeadingZeros 64 b y)
    (hxy : y < x) : a < b := by
  obtain ⟨hx, -, haHigh⟩ := ha
  obtain ⟨hy, hbLow, -⟩ := hb
  refine Nat.lt_of_lt_of_le haHigh (Nat.le_trans (Nat.pow_le_pow_right (by decide) ?_) hbLow)
  omega

theorem count_complement {c : Word} (hc : c.toNat ≤ 32) : (32 - c).toNat = 32 - c.toNat := by
  rw [BitVec.toNat_sub_of_le hc]
  rfl

/-- Only one has 31 leading zeros. -/
theorem eq_one_of_clz {x : Word} (hx : x ≠ 0) (hCount : (clzsi2 x).toNat = 31) : x = 1 := by
  have hHigh := (clzsi2_spec x hx).high
  rw [hCount] at hHigh
  have hPos : x.toNat ≠ 0 := fun hNone => hx (BitVec.eq_of_toNat_eq hNone)
  apply BitVec.eq_of_toNat_eq
  show x.toNat = 1
  omega

theorem splitLow_right {b : BitVec 64} (h0 : 0 < sr.toNat) (h32 : sr.toNat < 32)
    (hPlace : n.all.toNat / 2 ^ sr.toNat < b.toNat ∧
      (b.toNat ≤ 2 ^ 63 ∨ (sr.toNat ≤ 1 ∧ 2 ^ 63 ≤ n.all.toNat))) :
    (splitLow n sr).Right n.all b := by
  have hAmount := count_complement h32.le
  obtain ⟨hq, hr⟩ := split_low (n := n) h0 h32
  refine ⟨h0, by omega, ?_, ?_, hPlace⟩
  · rw [← hq, BitVec.shiftLeft_eq', hAmount]
  · rw [← hr, BitVec.shiftLeft_eq', hAmount, BitVec.ushiftRight_eq', BitVec.ushiftRight_eq']

/-- The leading zeros of an operand with a high word. -/
theorem zeros_all (hHigh : n.high ≠ 0) : LeadingZeros 64 n.all.toNat (clzsi2 n.high).toNat := by
  rw [Udwords.toNat_all]
  exact (clzsi2_spec n.high hHigh).double n.low.isLt

/-- The difference of two counts, which wraps when the divisor is longer. -/
theorem count_sub (x y : Word) (hx : x.toNat < 32) (hy : y.toNat < 32) :
    (x - y).toNat = if y.toNat ≤ x.toNat then x.toNat - y.toNat
      else 2 ^ 32 - (y.toNat - x.toNat) := by
  split
  · next h => exact BitVec.toNat_sub_of_le h
  · next h =>
      rw [BitVec.toNat_sub]
      omega

/-- `0 X / K X`, `0 X / 0 X`. -/
theorem begin_word (hHigh : n.high = 0) :
    (beginDivision n d).Right n.all d.all := by
  have hA := n.toNat_all
  have hB := d.toNat_all
  have hZero : n.high.toNat = 0 := congrArg BitVec.toNat hHigh
  have hLow := n.low.isLt
  rw [hZero, Nat.zero_mul, Nat.zero_add] at hA
  rw [beginDivision, if_pos hHigh]
  by_cases hdHigh : d.high = 0
  · have hdZero : d.high.toNat = 0 := congrArg BitVec.toNat hdHigh
    rw [hdZero, Nat.zero_mul, Nat.zero_add] at hB
    rw [if_pos hdHigh]
    exact ⟨by rw [hA, hB, ← BitVec.toNat_udiv, BitVec.toNat_setWidth_of_le (by decide)],
      by rw [hA, hB, ← BitVec.toNat_umod, BitVec.toNat_setWidth_of_le (by decide)]⟩
  · have hdPos : 0 < d.high.toNat := by
      refine Nat.pos_of_ne_zero fun hZero => hdHigh (BitVec.eq_of_toNat_eq hZero)
    have hLess : n.all.toNat < d.all.toNat := by
      rw [hA, hB]
      omega
    rw [if_neg hdHigh]
    refine ⟨(Nat.div_eq_of_lt hLess).symm, ?_⟩
    rw [Nat.mod_eq_of_lt hLess, hA, BitVec.toNat_setWidth_of_le (by decide)]

/-- A dividend below the divisor is the remainder. -/
theorem returned_less (hLess : n.all.toNat < d.all.toNat) :
    (Begun.returned 0 n.all).Right n.all d.all :=
  ⟨(Nat.div_eq_of_lt hLess).symm, (Nat.mod_eq_of_lt hLess).symm⟩

/-- The dividend cut at the border of the words. -/
theorem splitWord_right {b : BitVec 64} (hsr : sr = 32)
    (hPlace : n.all.toNat / 2 ^ sr.toNat < b.toNat ∧
      (b.toNat ≤ 2 ^ 63 ∨ (sr.toNat ≤ 1 ∧ 2 ^ 63 ≤ n.all.toNat))) :
    (Begun.loop sr ⟨n.low, 0⟩ ⟨0, n.high⟩).Right n.all b := by
  subst hsr
  obtain ⟨hq, hr⟩ := @split_word n
  exact ⟨by decide, by decide, hq, hr, hPlace⟩

/-- The counts of two high words, and the place they give. -/
theorem place_of_counts (hHigh : n.high ≠ 0) (hdHigh : d.high ≠ 0) :
    let sr := clzsi2 d.high - clzsi2 n.high
    (32 ≤ sr.toNat ∧ n.all.toNat < d.all.toNat) ∨
      (sr.toNat < 32 ∧ (sr + 1).toNat = sr.toNat + 1 ∧
        (sr.toNat = 31 → (clzsi2 d.high).toNat = 31) ∧
        n.all.toNat / 2 ^ (sr + 1).toNat < d.all.toNat ∧
        (d.all.toNat ≤ 2 ^ 63 ∨ ((sr + 1).toNat ≤ 1 ∧ 2 ^ 63 ≤ n.all.toNat))) := by
  have ha := zeros_all hHigh
  have hb := zeros_all hdHigh
  have hx := (clzsi2_spec n.high hHigh).less
  have hy := (clzsi2_spec d.high hdHigh).less
  have hSub := count_sub _ _ hy hx
  intro sr
  change sr.toNat = _ at hSub
  by_cases hOrder : (clzsi2 n.high).toNat ≤ (clzsi2 d.high).toNat
  · rw [if_pos hOrder] at hSub
    have hNext : (sr + 1).toNat = sr.toNat + 1 := by
      have hOne : (1 : Word).toNat = 1 := rfl
      rw [BitVec.toNat_add, hOne]
      omega
    have hPlace := begin_place ha hb hOrder
    rw [show (clzsi2 d.high).toNat + 1 - (clzsi2 n.high).toNat = (sr + 1).toNat by omega] at hPlace
    exact .inr ⟨by omega, hNext, by omega, hPlace⟩
  · rw [if_neg hOrder] at hSub
    exact .inl ⟨by omega, less_of_zeros ha hb (by omega)⟩

/-- `K X / K K`. -/
theorem begin_full (hHigh : n.high ≠ 0) (hdLow : d.low ≠ 0) (hdHigh : d.high ≠ 0) :
    (beginDivision n d).Right n.all d.all := by
  have hCounts := place_of_counts hHigh hdHigh
  rw [beginDivision, if_neg hHigh, if_neg hdLow, if_neg hdHigh]
  simp only at hCounts ⊢
  generalize clzsi2 d.high - clzsi2 n.high = sr at hCounts ⊢
  rcases hCounts with ⟨hLong, hLess⟩ | ⟨hShort, hNext, -, hPlace⟩
  · rw [if_pos (show sr > 32 - 1 from hLong)]
    exact returned_less hLess
  · rw [if_neg (show ¬ sr > 32 - 1 from Nat.not_lt.mpr (Nat.le_of_lt_succ hShort))]
    by_cases hWord : sr + 1 = 32
    · rw [if_pos hWord]
      exact splitWord_right hWord hPlace
    · rw [if_neg hWord]
      have hNe : (sr + 1).toNat ≠ 32 := fun hEq => hWord (BitVec.eq_of_toNat_eq hEq)
      exact splitLow_right (by omega) (by omega) hPlace

/-- `K K / K 0`, `K 0 / K 0`. -/
theorem begin_high (hHigh : n.high ≠ 0) (hdLow : d.low = 0) (hdHigh : d.high ≠ 0) :
    (beginDivision n d).Right n.all d.all := by
  have hCounts := place_of_counts hHigh hdHigh
  have hA := n.toNat_all
  have hB := d.toNat_all
  have hZero : d.low.toNat = 0 := congrArg BitVec.toNat hdLow
  rw [hZero, Nat.add_zero] at hB
  rw [beginDivision, if_neg hHigh, if_pos hdLow, if_neg hdHigh]
  by_cases hLow : n.low = 0
  · have hnZero : n.low.toNat = 0 := congrArg BitVec.toNat hLow
    rw [hnZero, Nat.add_zero] at hA
    rw [if_pos hLow]
    refine ⟨?_, ?_⟩
    · rw [hA, hB, Nat.mul_div_mul_right _ _ (by decide), ← BitVec.toNat_udiv,
        BitVec.toNat_setWidth_of_le (by decide)]
    · rw [hA, hB, Nat.mul_mod_mul_right, ← BitVec.toNat_umod, Udwords.toNat_all]
      exact Nat.add_zero _
  · rw [if_neg hLow]
    by_cases hPow : d.high &&& (d.high - 1) = 0
    · have hTwo := eq_two_pow hdHigh hPow
      rw [if_pos hPow]
      have hHalf : n.all.toNat / 2 ^ 32 = n.high.toNat ∧ n.all.toNat % 2 ^ 32 = n.low.toNat := by
        have hnLow := n.low.isLt
        omega
      have hDivisor : d.all.toNat = 2 ^ 32 * 2 ^ (ctzsi2 d.high).toNat := by
        rw [hB, hTwo, Nat.mul_comm]
      refine ⟨?_, ?_⟩
      · rw [hDivisor, ← Nat.div_div_eq_div_mul, hHalf.1, BitVec.toNat_setWidth_of_le (by decide),
          BitVec.ushiftRight_eq', BitVec.toNat_ushiftRight, Nat.shiftRight_eq_div_pow]
      · rw [hDivisor, Nat.mod_mul, hHalf.1, hHalf.2, Udwords.toNat_all, and_pred hTwo]
        ring
    · rw [if_neg hPow]
      simp only at hCounts ⊢
      generalize clzsi2 d.high - clzsi2 n.high = sr at hCounts ⊢
      rcases hCounts with ⟨hLong, hLess⟩ | ⟨hShort, hNext, hOne, hPlace⟩
      · rw [if_pos (show sr > 32 - 2 from Nat.lt_of_lt_of_le (by decide) hLong)]
        exact returned_less hLess
      · -- a divisor of one word bit would be a power of two
        have hNotOne : sr.toNat ≠ 31 := by
          intro hLast
          refine hPow ?_
          rw [eq_one_of_clz hdHigh (hOne hLast)]
          rfl
        rw [if_neg (show ¬ sr > 32 - 2 from Nat.not_lt.mpr (show sr.toNat ≤ 30 by omega))]
        exact splitLow_right (by omega) (by omega) hPlace

/-- `K X / 0 K`. -/
theorem begin_low (hHigh : n.high ≠ 0) (hdLow : d.low ≠ 0) (hdHigh : d.high = 0) :
    (beginDivision n d).Right n.all d.all := by
  have hA := n.toNat_all
  have hB := d.toNat_all
  have hZero : d.high.toNat = 0 := congrArg BitVec.toNat hdHigh
  rw [hZero, Nat.zero_mul, Nat.zero_add] at hB
  rw [beginDivision, if_neg hHigh, if_neg hdLow, if_pos hdHigh]
  by_cases hPow : d.low &&& (d.low - 1) = 0
  · have hTwo := eq_two_pow hdLow hPow
    have hCount : (ctzsi2 d.low).toNat < 32 := (ctzsi2_spec d.low hdLow).less d.low.isLt
    have hRem : ((n.low &&& (d.low - 1)).setWidth 64).toNat = n.all.toNat % d.all.toNat := by
      have hBorder : n.high.toNat * 2 ^ 32 =
          2 ^ (ctzsi2 d.low).toNat * (n.high.toNat * 2 ^ (32 - (ctzsi2 d.low).toNat)) := by
        rw [Nat.mul_left_comm, ← Nat.pow_add, Nat.add_sub_cancel' hCount.le]
      rw [BitVec.toNat_setWidth_of_le (by decide), and_pred hTwo, hA, hB, hTwo, hBorder,
        Nat.mul_add_mod]
    rw [if_pos hPow]
    simp only
    by_cases hOne : d.low = 1
    · rw [if_pos hOne]
      refine ⟨?_, hRem⟩
      rw [hB, hOne]
      exact (Nat.div_one _).symm
    · rw [if_neg hOne]
      refine ⟨?_, hRem⟩
      have hPos : 0 < (ctzsi2 d.low).toNat := by
        refine Nat.pos_of_ne_zero fun hNone => hOne (BitVec.eq_of_toNat_eq ?_)
        rw [hTwo, hNone]
        rfl
      rw [BitVec.shiftLeft_eq', count_complement hCount.le, BitVec.ushiftRight_eq',
        BitVec.ushiftRight_eq', (split_low hPos hCount).2, BitVec.toNat_ushiftRight,
        Nat.shiftRight_eq_div_pow, hB, hTwo]
  · rw [if_neg hPow]
    simp only
    have ha := zeros_all hHigh
    have hb : LeadingZeros 64 d.all.toNat ((clzsi2 d.low).toNat + 32) :=
      hB ▸ (clzsi2_spec d.low hdLow).widen
    have hx := (clzsi2_spec n.high hHigh).less
    have hy := (clzsi2_spec d.low hdLow).less
    -- a divisor of one would be a power of two
    have hNotOne : (clzsi2 d.low).toNat ≠ 31 := by
      intro hLast
      refine hPow ?_
      rw [eq_one_of_clz hdLow hLast]
      rfl
    have hPlace := begin_place ha hb (by omega)
    have hsr : (1 + 32 + clzsi2 d.low - clzsi2 n.high).toNat =
        (clzsi2 d.low).toNat + 32 + 1 - (clzsi2 n.high).toNat := by
      have hSum : (1 + 32 + clzsi2 d.low : Word).toNat = 33 + (clzsi2 d.low).toNat := by
        rw [BitVec.toNat_add]
        exact Nat.mod_eq_of_lt (by simp; omega)
      rw [BitVec.toNat_sub_of_le (by rw [BitVec.le_def]; omega)]
      omega
    rw [← hsr] at hPlace
    generalize 1 + 32 + clzsi2 d.low - clzsi2 n.high = sr at hsr hPlace ⊢
    by_cases hWord : sr = 32
    · rw [if_pos hWord]
      exact splitWord_right hWord hPlace
    · rw [if_neg hWord]
      have hNe : sr.toNat ≠ 32 := fun hEq => hWord (BitVec.eq_of_toNat_eq hEq)
      by_cases hShort : sr < 32
      · rw [if_pos hShort]
        exact splitLow_right (by omega) hShort hPlace
      · rw [if_neg hShort]
        have hAbove : 32 ≤ sr.toNat := Nat.le_of_not_lt hShort
        have hUp : (64 - sr).toNat = 64 - sr.toNat := by
          rw [BitVec.toNat_sub_of_le (by rw [BitVec.le_def]; show sr.toNat ≤ 64; omega)]
          rfl
        have hDown : (sr - 32).toNat = sr.toNat - 32 := BitVec.toNat_sub_of_le hAbove
        obtain ⟨hq, hr⟩ := @split_high n sr.toNat (by omega) (by omega)
        refine ⟨by omega, by omega, ?_, ?_, hPlace⟩
        · rw [← hq, BitVec.shiftLeft_eq', BitVec.shiftLeft_eq', BitVec.ushiftRight_eq', hUp, hDown]
        · rw [← hr, BitVec.ushiftRight_eq', hDown]

/-- **The special cases** return the right results, or leave the loop at the
place where the quotient begins. -/
theorem begin_right (n d : Udwords) (hd : d.all ≠ 0) :
    (beginDivision n d).Right n.all d.all := by
  by_cases hHigh : n.high = 0
  · exact begin_word hHigh
  · by_cases hdHigh : d.high = 0
    · refine begin_low hHigh (fun hdLow => hd ?_) hdHigh
      rw [Udwords.all, hdHigh, hdLow]
      rfl
    · by_cases hdLow : d.low = 0
      · exact begin_high hHigh hdLow hdHigh
      · exact begin_full hHigh hdLow hdHigh

end Begin

/-! ## Division -/

section Division

variable {a b : BitVec 64}

/-- The loop is entered with nothing found. -/
theorem dividing_start {sr : Word} {q r : Udwords} (h : (Begun.loop sr q r).Right a b) :
    Dividing a.toNat b.toNat sr.toNat 0 (r, q, 0) := by
  obtain ⟨hPos, hLess, hq, hr, hBelow, hNear⟩ := h
  have hrValue : r.all.toNat = a.toNat / 2 ^ sr.toNat := by
    rw [hr, BitVec.toNat_ushiftRight, Nat.shiftRight_eq_div_pow]
  have hSum : r.all.toNat * 2 ^ sr.toNat + a.toNat % 2 ^ sr.toNat = a.toNat := by
    rw [hrValue]
    exact Nat.div_add_mod' _ _
  refine ⟨?_, ?_, rfl, Nat.two_pow_pos _, hNear⟩
  · rw [hSum, Nat.zero_mul]
    exact LongDivision.start ((Nat.div_lt_iff_lt_mul (Nat.two_pow_pos _)).mp hBelow)
  · have hWhole : 2 ^ 64 = 2 ^ sr.toNat * 2 ^ (64 - sr.toNat) := by
      rw [← Nat.pow_add, show sr.toNat + (64 - sr.toNat) = 64 by omega]
    rw [hq, BitVec.toNat_shiftLeft, Nat.shiftLeft_eq, hWhole, Nat.mul_mod_mul_right]
    rfl

theorem udivmoddi4_eq (hb : b ≠ 0) : udivmoddi4 a b = (a / b, a % b) := by
  have hRight := begin_right (.of a) (.of b) (by rwa [Udwords.all_of])
  rw [Udwords.all_of, Udwords.all_of] at hRight
  unfold udivmoddi4
  simp only
  cases hBegin : beginDivision (.of a) (.of b) with
  | returned q rem =>
      rw [hBegin] at hRight
      exact Prod.ext (BitVec.eq_of_toNat_eq hRight.1) (BitVec.eq_of_toNat_eq hRight.2)
  | loop sr q r =>
      rw [hBegin] at hRight
      obtain ⟨Q, hRun⟩ := (dividing_start hRight).run (d := .of b) a.isLt
        (Nat.le_of_lt_succ hRight.2.1) (by rw [Udwords.all_of])
      exact Prod.ext (BitVec.eq_of_toNat_eq hRun.done.1) (BitVec.eq_of_toNat_eq hRun.done.2)

/-- Exclusive or with the sign, less the sign, negates. -/
theorem xor_sub_sign (x : BitVec 64) (negative : Bool) :
    (x ^^^ if negative then BitVec.allOnes 64 else 0) -
      (if negative then BitVec.allOnes 64 else 0) = if negative then -x else x := by
  cases negative with
  | false => simp
  | true =>
      have hOnes : BitVec.allOnes 64 = -1 := by decide
      rw [if_pos rfl, if_pos rfl, BitVec.xor_allOnes, hOnes, BitVec.sub_neg, BitVec.neg_eq_not_add]
      rfl

theorem xor_signs (negative negative' : Bool) :
    ((if negative then BitVec.allOnes 64 else 0) ^^^ if negative' then BitVec.allOnes 64 else 0) =
      if negative ^^ negative' then BitVec.allOnes 64 else 0 := by
  cases negative <;> cases negative' <;> decide

theorem abs_ne_zero (hb : b ≠ 0) (negative : Bool) : (if negative then -b else b) ≠ 0 := by
  cases negative with
  | false => exact hb
  | true => exact fun hZero => hb (BitVec.neg_eq_zero_iff.mp hZero)

theorem divdi3_eq (hb : b ≠ 0) : divdi3 a b = a.sdiv b := by
  simp only [divdi3, sign_mask, xor_signs, xor_sub_sign]
  rw [udivmoddi4_eq (abs_ne_zero hb b.msb), BitVec.sdiv_eq]
  cases a.msb <;> cases b.msb <;> rfl

theorem moddi3_eq (hb : b ≠ 0) : moddi3 a b = a.srem b := by
  simp only [moddi3, sign_mask, xor_sub_sign]
  rw [udivmoddi4_eq (abs_ne_zero hb b.msb), BitVec.srem_eq]
  cases a.msb <;> cases b.msb <;> rfl

/-- **Division of double words.**  For every divisor but zero the functions
give the quotient and the remainder of 64-bit division, unsigned and signed. -/
theorem division_correct (hb : b ≠ 0) :
    udivdi3 a b = a / b ∧ umoddi3 a b = a % b ∧ divdi3 a b = a.sdiv b ∧
      moddi3 a b = a.srem b :=
  ⟨congrArg Prod.fst (udivmoddi4_eq hb), congrArg Prod.snd (udivmoddi4_eq hb), divdi3_eq hb,
    moddi3_eq hb⟩

/-- A divisor with its top bit set, and minus seven by two. -/
theorem division_correct_samples :
    udivdi3 0xffffffffffffffff 0x8000000000000001 = 1 ∧ moddi3 (-7) 2 = -1 ∧
      (udivdi3 (-7) 2 = -7 / 2 ∧ umoddi3 (-7) 2 = -7 % 2 ∧ divdi3 (-7) 2 = (-7 : BitVec 64).sdiv 2 ∧
        moddi3 (-7) 2 = (-7 : BitVec 64).srem 2) :=
  ⟨by decide +kernel, by decide +kernel, division_correct (by decide)⟩

end Division

end Riscv32.Klib
