import Riscv32.Rtl.Idu

/-!
# NEMU pattern strings

`pattern_decode` of `include/cpu/decode.h` and the test `INSTPAT` makes with
its result.

The macro unrolls its loop 64 times; `patternDecode` is that loop on the bytes of
the string, with the assertion on other characters and the panic on strings that
are too long as `none`.  What the three results mean is the subject of
`Nemu.Wildcards`; the lemmas here are about fields of a key and a mask.
-/

namespace Riscv32.Nemu

open Riscv32.Rtl

/-- The three results of `pattern_decode`. -/
structure Pattern where
  key : BitVec 64
  mask : BitVec 64
  shift : BitVec 64
deriving DecidableEq, Repr

/-- The bytes of a C string literal, without the terminating NUL. -/
def cBytes (s : String) : List UInt8 := s.toByteArray.data.toList

/-- A C character constant. -/
def ascii (c : Char) : UInt8 := c.val.toUInt8

/-- One character of the unrolled loop, on the running values. -/
def patternStep (p : Pattern) (c : UInt8) : Pattern :=
  if c = ascii ' ' then p
  else
    { key := (p.key <<< 1) ||| if c = ascii '1' then 1 else 0
      mask := (p.mask <<< 1) ||| if c = ascii '?' then 0 else 1
      shift := if c = ascii '?' then p.shift + 1 else 0 }

/-- The characters the loop's assertion admits. -/
def isPatternChar (c : UInt8) : Bool :=
  c == ascii ' ' || c == ascii '0' || c == ascii '1' || c == ascii '?'

/-- `pattern_decode`; `none` is the assertion on an invalid character or the
panic on a string of 64 characters or more. -/
def patternDecode (str : List UInt8) : Option Pattern :=
  if str.length < 64 ∧ str.all isPatternChar then
    let p := str.foldl patternStep ⟨0, 0, 0⟩
    some ⟨p.key >>> p.shift, p.mask >>> p.shift, p.shift⟩
  else none

/-- `((uint64_t)inst >> shift) & mask) == key`. -/
def Pattern.accepts (p : Pattern) (inst : Word) : Bool :=
  (inst.setWidth 64 >>> p.shift) &&& p.mask == p.key

/-! ## Fields of keys and masks -/

/-- A field at bit `lo` of a key or a mask. -/
def placed {n : Nat} (x : BitVec n) (lo : Nat) : BitVec 64 := x.setWidth 64 <<< lo

section Placed

variable {n lo : Nat}

theorem placed_zero (x : BitVec n) : placed x 0 = x.setWidth 64 := by
  simp [placed]

theorem getLsbD_placed (x : BitVec n) (j : Nat) (hLen : lo + n ≤ 64) :
    (placed x lo).getLsbD j = (decide (lo ≤ j) && x.getLsbD (j - lo)) := by
  rw [placed, BitVec.getLsbD_shiftLeft, BitVec.getLsbD_setWidth]
  by_cases hn : j - lo < n
  · by_cases hLo : lo ≤ j
    · simp [hLo, show j < 64 by omega, show j - lo < 64 by omega]
    · simp [hLo, show j < lo by omega]
  · simp [BitVec.getLsbD_of_ge x (j - lo) (by omega)]

/-- A field read at its place. -/
theorem extract_placed (x : BitVec n) (hLen : lo + n ≤ 64) :
    (placed x lo).extractLsb' lo n = x := by
  apply BitVec.eq_of_getLsbD_eq
  intro j hj
  rw [BitVec.getLsbD_extractLsb', getLsbD_placed x _ hLen]
  simp [hj]

/-- A field read beside its place. -/
theorem extract_placed_apart (x : BitVec n) {lo' len : Nat} (hLen : lo + n ≤ 64)
    (hApart : lo' + len ≤ lo ∨ lo + n ≤ lo') :
    (placed x lo).extractLsb' lo' len = BitVec.zero len := by
  apply BitVec.eq_of_getLsbD_eq
  intro j hj
  rw [BitVec.getLsbD_extractLsb', getLsbD_placed x _ hLen, BitVec.zero_eq, BitVec.getLsbD_zero]
  by_cases hLo : lo ≤ lo' + j
  · simp [BitVec.getLsbD_of_ge x (lo' + j - lo) (by omega)]
  · simp [hLo]

/-- A run of ones in a mask keeps the field of the word there. -/
theorem and_placed_allOnes (inst : Word) (hLen : lo + n ≤ 32) :
    inst.setWidth 64 &&& placed (BitVec.allOnes n) lo = placed (inst.extractLsb' lo n) lo := by
  apply BitVec.eq_of_getLsbD_eq
  intro j hj
  rw [BitVec.getLsbD_and, getLsbD_placed _ j (by omega), getLsbD_placed _ j (by omega),
    BitVec.getLsbD_setWidth, BitVec.getLsbD_extractLsb', BitVec.getLsbD_allOnes]
  by_cases hLo : lo ≤ j
  · simp [hj, hLo, show lo + (j - lo) = j by omega, Bool.and_comm]
  · simp [hLo]

end Placed

end Riscv32.Nemu
