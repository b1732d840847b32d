import Riscv32.Rtl.Icache

/-!
# Lines and their addresses

A line is four words; the word at `addr` is selected by `addr[3:2]`, the line
by `addr[31:4]`.  A refill walks the line's words in address order.

`lineOf` numbers the lines of memory, `lineAt` gives the line that a tag and an
index of the cache name, and the two meet where the cache compares tags.  The
lemmas are facts about bit fields, stated in the terms of the invariant so that
no proof about the cache has to look at bits.
-/

namespace Riscv32.Cache

open Riscv32.Rtl

/-! ## Words of a line -/

/-- Word `k` of a line. -/
def word (line : Line) (k : BitVec 2) : Word := line.read (k.toNat * 32)

theorem getLsbD_write (line : Line) (lo j : Nat) (v : Word) (hj : j < 128) :
    (line.write lo v).getLsbD j =
      if lo ≤ j ∧ j < lo + 32 then v.getLsbD (j - lo) else line.getLsbD j := by
  simp only [Line.write, BitVec.getLsbD_or, BitVec.getLsbD_and, BitVec.getLsbD_not,
    BitVec.getLsbD_shiftLeft, BitVec.getLsbD_setWidth, BitVec.getLsbD_allOnes]
  by_cases h1 : lo ≤ j
  · by_cases h2 : j < lo + 32
    · simp [h1, h2, hj, show ¬ j < lo by omega, show j - lo < 32 by omega,
        show j - lo < 128 by omega]
    · have hv : v.getLsbD (j - lo) = false := BitVec.getLsbD_of_ge v _ (by omega)
      simp [h1, h2, hj, hv, show ¬ j < lo by omega, show ¬ j - lo < 32 by omega]
  · simp [h1, hj, show j < lo by omega]

/-- Writing a word leaves the others. -/
theorem word_write (line : Line) (k j : BitVec 2) (v : Word) :
    word (line.write (j.toNat * 32) v) k = if k = j then v else word line k := by
  have hk := k.isLt
  have hj := j.isLt
  have hEq : k = j ↔ k.toNat = j.toNat := ⟨fun h => by rw [h], BitVec.eq_of_toNat_eq⟩
  apply BitVec.eq_of_getLsbD_eq
  intro b hb
  simp only [word, Line.read, BitVec.getLsbD_extractLsb', hb, decide_true, Bool.true_and]
  rw [getLsbD_write _ _ _ _ (by omega)]
  by_cases h : k = j
  · have hNat := hEq.mp h
    rw [if_pos h, if_pos (by omega), hNat, Nat.add_sub_cancel_left]
  · have hNe : k.toNat ≠ j.toNat := fun hBad => h (hEq.mpr hBad)
    rw [if_neg h, if_neg (by omega)]
    simp [hb]

/-! ## Addresses -/

/-- The number of the line that holds `addr`. -/
def lineOf (addr : Word) : BitVec 28 := addr.extractLsb' 4 28

/-- The address of word `k` of a line. -/
def wordAddr (line : BitVec 28) (k : BitVec 2) : Word := (line ++ k ++ 0#2 : BitVec 32)

/-- The line a tag and an index name. -/
def lineAt (tag : BitVec 26) (i : BitVec 2) : BitVec 28 := tag ++ i

section Address

variable (line : BitVec 28) (k : BitVec 2) (addr : Word)

theorem toNat_wordAddr : (wordAddr line k).toNat = line.toNat * 16 + k.toNat * 4 := by
  simp only [wordAddr, BitVec.toNat_append, BitVec.toNat_ofNat]
  rw [← Nat.shiftLeft_add_eq_or_of_lt k.isLt]
  simp [Nat.shiftLeft_eq]
  omega

theorem lineOf_wordAddr : lineOf (wordAddr line k) = line := by
  apply BitVec.eq_of_toNat_eq
  have hl := line.isLt
  have hk := k.isLt
  simp only [lineOf, BitVec.extractLsb'_toNat, toNat_wordAddr, Nat.shiftRight_eq_div_pow]
  omega

theorem indexOf_wordAddr : indexOf (wordAddr line k) = line.extractLsb' 0 2 := by
  apply BitVec.eq_of_toNat_eq
  have hl := line.isLt
  have hk := k.isLt
  simp only [indexOf, BitVec.extractLsb'_toNat, toNat_wordAddr, Nat.shiftRight_eq_div_pow]
  omega

theorem offset_wordAddr : (offsetOf (wordAddr line k)).toNat * 8 = k.toNat * 32 := by
  have hk := k.isLt
  simp only [offsetOf, BitVec.extractLsb'_toNat, toNat_wordAddr, Nat.shiftRight_zero]
  omega

theorem wordAddr_next (h : k.toNat + 1 < 4) : wordAddr line k + 4 = wordAddr line (k + 1) := by
  apply BitVec.eq_of_toNat_eq
  have hl := line.isLt
  rw [BitVec.toNat_add, toNat_wordAddr, toNat_wordAddr, BitVec.toNat_add]
  simp only [BitVec.ofNat_eq_ofNat, BitVec.toNat_ofNat]
  omega

theorem lineAddrOf_eq : lineAddrOf addr = wordAddr (lineOf addr) 0 := by
  apply BitVec.eq_of_toNat_eq
  simp only [lineAddrOf, toNat_wordAddr, BitVec.toNat_append, lineOf, BitVec.ofNat_eq_ofNat,
    BitVec.toNat_ofNat]
  simp [Nat.shiftLeft_eq]

theorem lineAt_of : lineAt (tagOf addr) (indexOf addr) = lineOf addr := by
  apply BitVec.eq_of_toNat_eq
  have h := addr.isLt
  simp only [lineAt, BitVec.toNat_append]
  rw [← Nat.shiftLeft_add_eq_or_of_lt (indexOf addr).isLt]
  simp only [tagOf, indexOf, lineOf, BitVec.extractLsb'_toNat, Nat.shiftRight_eq_div_pow,
    Nat.shiftLeft_eq]
  omega

/-- Lines with different indices differ. -/
theorem index_lineAt (tag : BitVec 26) (i : BitVec 2) : (lineAt tag i).extractLsb' 0 2 = i := by
  apply BitVec.eq_of_toNat_eq
  have hi := i.isLt
  simp only [lineAt, BitVec.extractLsb'_toNat, BitVec.toNat_append]
  rw [← Nat.shiftLeft_add_eq_or_of_lt hi]
  simp only [Nat.shiftLeft_eq, Nat.shiftRight_zero]
  omega

/-- An aligned address selects a word of its line. -/
theorem offset_aligned (h : misaligned addr = false) :
    (offsetOf addr).toNat * 8 = (wordOffsetOf addr).toNat * 32 := by
  have hLow : (addr.extractLsb' 0 2).toNat = 0 := by
    simp only [misaligned, bne_eq_false_iff_eq] at h
    rw [h]
    rfl
  simp only [offsetOf, wordOffsetOf, BitVec.extractLsb'_toNat, Nat.shiftRight_eq_div_pow] at hLow ⊢
  omega

theorem wordAddr_inj {line line' : BitVec 28} (h : wordAddr line 0 = wordAddr line' 0) :
    line = line' := by
  rw [← lineOf_wordAddr line 0, h, lineOf_wordAddr]

end Address

end Riscv32.Cache
