import Riscv32.Libgcc.Mul
import Riscv32.Data.Halves
import Mathlib.Data.BitVec
import Mathlib.Tactic.Ring

/-!
# Double words in libgcc

`__multi3`, which is `__muldi3` on RV32, and `__ashldi3`.  The low words are
multiplied bit by bit into two words; the high words only meet low ones, where
one word of the product is enough.

The product of two words is a call of the routine of `Libgcc.Mul`
(`muluw3_call`).  The loop is kept in two words throughout, with its carry by hand;
read as double words, it adds the product of what is left of both factors
(`mulLoop_product`).

`multi3_product` is the result, and `ashldi3_eq` the one for shifts.
-/

namespace Riscv32.Libgcc

open Riscv32.Data Isa Program

/-- `DWunion`. -/
structure DWunion where
  high : Word
  low : Word
deriving DecidableEq, Repr

def DWunion.ll (x : DWunion) : BitVec 64 := x.high ++ x.low

def DWunion.of (u : BitVec 64) : DWunion := ⟨u.extractLsb' 32 32, u.extractLsb' 0 32⟩

/-- The locals of the loop of `__multi3`. -/
structure MulLocals where
  uLow : Word
  vLow : Word
  wLow : Word
  wHigh : Word
  wHighTmp : Word
deriving DecidableEq, Repr

/-- The body of the loop. -/
def mulBody (s : MulLocals) : MulLocals :=
  let newWLow := s.wLow + s.uLow
  let wHighTmp2x := s.wHighTmp <<< 1
  let wHighTmp := s.wHighTmp + s.wHigh
  let carry : Word := if newWLow < s.wLow then 1 else 0
  let w := if s.vLow &&& 1 ≠ 0 then (newWLow, carry + wHighTmp) else (s.wLow, s.wHigh)
  let uLowMsb := s.uLow >>> 31
  { uLow := s.uLow <<< 1
    vLow := s.vLow >>> 1
    wLow := w.1
    wHigh := w.2
    wHighTmp := uLowMsb ||| wHighTmp2x }

/-- The body shifts the multiplier out. -/
theorem vLow_decreases {v : Word} (h : v >>> 1 ≠ 0) : (v >>> 1).toNat < v.toNat := by
  have hHalf : (v >>> 1).toNat = v.toNat / 2 := by
    rw [BitVec.toNat_ushiftRight, Nat.shiftRight_eq_div_pow, Nat.pow_one]
  have hPos : (v >>> 1).toNat ≠ 0 := fun hZero => h (BitVec.eq_of_toNat_eq hZero)
  omega

/-- `do { … } while (v_low)`. -/
def mulLoop (s : MulLocals) : MulLocals :=
  if _h : (mulBody s).vLow = 0 then mulBody s else mulLoop (mulBody s)
termination_by s.vLow.toNat
decreasing_by exact vLow_decreases _h

/-- `__muluw3`: what a call of `__mulsi3` leaves in `a0` (`muluw3_call`). -/
def muluw3 (a b : Word) : Word := a * b

/-- `__multi3`. -/
def multi3 (u v : BitVec 64) : BitVec 64 :=
  let uu := DWunion.of u
  let vv := DWunion.of v
  let s := mulLoop ⟨uu.low, vv.low, 0, 0, 0⟩
  let w : DWunion := ⟨s.wHigh, s.wLow⟩
  let w := if uu.high ≠ 0 then { w with high := w.high + muluw3 vv.low uu.high } else w
  let w := if vv.high ≠ 0 then { w with high := w.high + muluw3 uu.low vv.high } else w
  w.ll

/-- `__ashldi3`. -/
def ashldi3 (u : BitVec 64) (b : Int) : BitVec 64 :=
  if b = 0 then u
  else
    let uu := DWunion.of u
    let bm := 32 - b
    if bm ≤ 0 then DWunion.ll ⟨uu.low <<< (-bm).toNat, 0⟩
    else
      let carries := uu.low >>> bm.toNat
      DWunion.ll ⟨(uu.high <<< b.toNat) ||| carries, uu.low <<< b.toNat⟩

/-! ## The call -/

section Call

variable {code : Code} {loc : Nat → Word} {h : Hart}

/-- The `asm` of `__muluw3`: wherever the routine is placed, a call with the
operands in `a0` and `a1` comes back with `muluw3` of them in `a0`, and of the
registers at most the operands and the clobbered `a2` and `a3` differ. -/
theorem muluw3_call (hIn : Installed code loc (muldi3 loc)) (hPc : h.pc = loc 0) :
    Inevitable (Steps (lineStep code)) (fun h' => h'.pc = h.get ra &&& ~~~1#32 ∧
      h'.get a0 = muluw3 (h.get a0) (h.get a1) ∧ Keeps mulRegs h h') h :=
  (mulsi3_returns hIn hPc).mono fun _ hDone => ⟨hDone.pc, hDone.product, hDone.keeps⟩

end Call

/-! ## The loop -/

section Loop

variable {s : MulLocals}

/-- The product so far, as two words. -/
def MulLocals.product (s : MulLocals) : BitVec 64 := s.wHigh ++ s.wLow

/-- The multiplicand, as two words. -/
def MulLocals.multiplicand (s : MulLocals) : BitVec 64 := s.wHighTmp ++ s.uLow

theorem mulBody_multiplicand (s : MulLocals) :
    (mulBody s).multiplicand = s.multiplicand <<< 1 := by
  apply BitVec.eq_of_getLsbD_eq
  intro i hi
  simp only [MulLocals.multiplicand, mulBody, BitVec.getLsbD_append, BitVec.getLsbD_shiftLeft,
    BitVec.getLsbD_or, BitVec.getLsbD_ushiftRight]
  grind

theorem mulBody_product (s : MulLocals) :
    (mulBody s).product =
      if s.vLow &&& 1 ≠ 0 then s.product + s.multiplicand else s.product := by
  simp only [MulLocals.product, MulLocals.multiplicand, mulBody]
  rw [halves_add]
  split <;> rfl

/-- One bit of the multiplier. -/
theorem bit_mul (v : Word) :
    v.setWidth 64 =
      (if v &&& 1 ≠ 0 then (1 : BitVec 64) else 0) + (2 : BitVec 64) * (v >>> 1).setWidth 64 := by
  apply BitVec.eq_of_toNat_eq
  have hv := v.isLt
  have hHalf : ((v >>> 1).setWidth 64).toNat = v.toNat / 2 := by
    rw [BitVec.toNat_setWidth_of_le (by decide), BitVec.toNat_ushiftRight,
      Nat.shiftRight_eq_div_pow, Nat.pow_one]
  have hTwo : (2 : BitVec 64).toNat = 2 := rfl
  rw [BitVec.toNat_add, BitVec.toNat_mul, hHalf, hTwo, BitVec.toNat_setWidth_of_le (by decide)]
  by_cases hEven : v &&& 1 = 0
  · have hMod : v.toNat % 2 = 0 := (and_one_eq_zero v).mp hEven
    rw [if_neg (not_not.mpr hEven)]
    show _ = (0 + _) % _
    omega
  · have hMod : v.toNat % 2 ≠ 0 := fun hZero => hEven ((and_one_eq_zero v).mpr hZero)
    rw [if_pos hEven]
    show _ = (1 + _) % _
    omega

/-- What the body leaves is worth the same. -/
theorem mulBody_value (s : MulLocals) :
    (mulBody s).product + (mulBody s).multiplicand * (mulBody s).vLow.setWidth 64 =
      s.product + s.multiplicand * s.vLow.setWidth 64 := by
  have hShift : s.multiplicand <<< 1 = s.multiplicand * 2 := by
    exact BitVec.shiftLeft_eq_mul_twoPow s.multiplicand 1
  have hNext : (mulBody s).vLow = s.vLow >>> 1 := rfl
  rw [mulBody_product, mulBody_multiplicand, hNext, hShift, bit_mul s.vLow]
  split
  · ring
  · ring

/-- **The loop** adds the product of what is left of both factors. -/
theorem mulLoop_product (s : MulLocals) :
    (mulLoop s).product = s.product + s.multiplicand * s.vLow.setWidth 64 := by
  fun_induction mulLoop s with
  | case1 s hDone =>
      have hValue := mulBody_value s
      rw [hDone] at hValue
      simpa using hValue
  | case2 s _ ih => rw [ih, mulBody_value]

end Loop

/-! ## The routines -/

theorem ll_of (u : BitVec 64) : (DWunion.of u).ll = u := by
  apply BitVec.eq_of_getLsbD_eq
  intro i hi
  simp only [DWunion.ll, DWunion.of, BitVec.getLsbD_append, BitVec.getLsbD_extractLsb']
  grind

/-- Nothing is added where the test for zero skips a product. -/
theorem add_cross (high low x y : Word) :
    (if y ≠ 0 then (⟨high + muluw3 x y, low⟩ : DWunion) else ⟨high, low⟩) =
      ⟨high + x * y, low⟩ := by
  by_cases hy : y = 0
  · rw [if_neg (not_not.mpr hy), hy, mul_zero, add_zero]
  · rw [if_pos hy]
    rfl

/-- The weight of the high word. -/
def wordBase : BitVec 64 := 0x100000000

theorem halves_eq (hi lo : Word) :
    (hi ++ lo : BitVec 64) = hi.setWidth 64 * wordBase + lo.setWidth 64 := by
  have hHi := hi.isLt
  have hLo := lo.isLt
  have hBase : wordBase.toNat = 4294967296 := rfl
  rw [← BitVec.toNat_inj, toNat_halves, BitVec.toNat_add, BitVec.toNat_mul, hBase,
    BitVec.toNat_setWidth_of_le (by decide), BitVec.toNat_setWidth_of_le (by decide)]
  omega

/-- In the high word only the low word of a product counts. -/
theorem high_mul (x y : Word) :
    (x * y).setWidth 64 * wordBase = x.setWidth 64 * y.setWidth 64 * wordBase := by
  have hBase : wordBase.toNat = 4294967296 := rfl
  have hWhole : (2 : Nat) ^ 64 = 2 ^ 32 * 4294967296 := by norm_num
  rw [← BitVec.toNat_inj, BitVec.toNat_mul, BitVec.toNat_mul, BitVec.toNat_mul, hBase,
    BitVec.toNat_setWidth_of_le (by decide), BitVec.toNat_setWidth_of_le (by decide),
    BitVec.toNat_setWidth_of_le (by decide), BitVec.toNat_mul, Nat.mod_mul_mod, hWhole,
    Nat.mul_mod_mul_right, Nat.mul_mod_mul_right, Nat.mod_mod]

theorem high_add (x y : Word) :
    (x + y).setWidth 64 * wordBase = x.setWidth 64 * wordBase + y.setWidth 64 * wordBase := by
  have hx := x.isLt
  have hy := y.isLt
  have hBase : wordBase.toNat = 4294967296 := rfl
  rw [← BitVec.toNat_inj, BitVec.toNat_add, BitVec.toNat_mul, BitVec.toNat_mul, BitVec.toNat_mul,
    hBase, BitVec.toNat_setWidth_of_le (by decide), BitVec.toNat_setWidth_of_le (by decide),
    BitVec.toNat_setWidth_of_le (by decide), BitVec.toNat_add]
  omega

/-- **Products of double words.**  `__multi3` is 64-bit multiplication. -/
theorem multi3_product (u v : BitVec 64) : multi3 u v = u * v := by
  have hu := ll_of u
  have hv := ll_of v
  unfold multi3
  simp only [add_cross]
  generalize DWunion.of u = uu at hu ⊢
  generalize DWunion.of v = vv at hv ⊢
  have hLoop := mulLoop_product ⟨uu.low, vv.low, 0, 0, 0⟩
  generalize mulLoop ⟨uu.low, vv.low, 0, 0, 0⟩ = s at hLoop ⊢
  have hZero : (0 : Word).setWidth 64 = 0 := rfl
  simp only [MulLocals.product, MulLocals.multiplicand, halves_eq, hZero, zero_mul, zero_add]
    at hLoop
  have hSquare : wordBase * wordBase = 0 := by decide
  rw [← hu, ← hv]
  simp only [DWunion.ll, halves_eq, high_add, high_mul]
  calc s.wHigh.setWidth 64 * wordBase + vv.low.setWidth 64 * uu.high.setWidth 64 * wordBase +
          uu.low.setWidth 64 * vv.high.setWidth 64 * wordBase + s.wLow.setWidth 64
      = (s.wHigh.setWidth 64 * wordBase + s.wLow.setWidth 64) +
          (vv.low.setWidth 64 * uu.high.setWidth 64 +
            uu.low.setWidth 64 * vv.high.setWidth 64) * wordBase := by ring
    _ = uu.low.setWidth 64 * vv.low.setWidth 64 +
          (vv.low.setWidth 64 * uu.high.setWidth 64 +
            uu.low.setWidth 64 * vv.high.setWidth 64) * wordBase +
          uu.high.setWidth 64 * vv.high.setWidth 64 * (wordBase * wordBase) := by
        rw [hLoop, hSquare, mul_zero, add_zero]
    _ = (uu.high.setWidth 64 * wordBase + uu.low.setWidth 64) *
          (vv.high.setWidth 64 * wordBase + vv.low.setWidth 64) := by ring

/-- `__ashldi3` shifts by every count below 64. -/
theorem ashldi3_eq (u : BitVec 64) {b : Nat} (hb : b < 64) : ashldi3 u b = u <<< b := by
  have hu := ll_of u
  unfold ashldi3
  simp only
  generalize DWunion.of u = uu at hu ⊢
  rw [← hu]
  by_cases hZero : b = 0
  · subst hZero
    simp
  · rw [if_neg (by omega)]
    by_cases hWide : 32 ≤ b
    · rw [if_pos (by omega), show (-(32 - (b : Int))).toNat = b - 32 by omega]
      apply BitVec.eq_of_getLsbD_eq
      intro i hi
      simp only [DWunion.ll, BitVec.getLsbD_append, BitVec.getLsbD_shiftLeft]
      grind
    · rw [if_neg (by omega), show (32 - (b : Int)).toNat = 32 - b by omega, Int.toNat_natCast]
      apply BitVec.eq_of_getLsbD_eq
      intro i hi
      simp only [DWunion.ll, BitVec.getLsbD_append, BitVec.getLsbD_shiftLeft, BitVec.getLsbD_or,
        BitVec.getLsbD_ushiftRight]
      grind

end Riscv32.Libgcc
