import Riscv32.Nemu.Pattern

/-!
# What a pattern string matches

The three values of `pattern_decode` bit by bit.  Bit `j` of the running key
and mask is character `j` from the right, and the running shift counts the
wildcards at the right end; the final shift drops these and nothing else.

The loop appends on the right, so the induction is on the reversed string
(`patternRun_bits`, `shift_eq`).  A word is then tested place by place
(`place_iff`): a place asks for the character's bit, or for nothing.

`patternDecode_shows` says this of the decoded test itself, for every string of
the admitted characters, wildcards anywhere.
-/

namespace Riscv32.Nemu

open Riscv32.Rtl

/-- The characters of a pattern string that stand for bits. -/
def patternBits (str : List UInt8) : List UInt8 := str.filter (· ≠ ascii ' ')

/-- Every `0` and `1` of the pattern is the bit of the word in its place. -/
def Shows (inst : Word) (str : List UInt8) : Prop :=
  ∀ i c, (patternBits str)[i]? = some c → c ≠ ascii '?' →
    (inst.setWidth 64).getLsbD ((patternBits str).length - 1 - i) = decide (c = ascii '1')

/-- The running values after the characters `rs`, the last one first. -/
def patternRun (rs : List UInt8) : Pattern := rs.foldr (fun c p => patternStep p c) ⟨0, 0, 0⟩

theorem foldl_patternStep (str : List UInt8) (p : Pattern) :
    str.foldl patternStep p = (patternBits str).foldl patternStep p := by
  induction str generalizing p with
  | nil => rfl
  | cons c cs ih =>
      by_cases hBlank : c = ascii ' '
      · rw [List.foldl_cons, ih, patternBits, patternBits, List.filter_cons_of_neg (by simpa),
          patternStep, if_pos hBlank]
      · rw [List.foldl_cons, ih, patternBits, patternBits, List.filter_cons_of_pos (by simpa),
          List.foldl_cons]

theorem foldl_eq_patternRun (str : List UInt8) :
    str.foldl patternStep ⟨0, 0, 0⟩ = patternRun (patternBits str).reverse := by
  rw [foldl_patternStep, patternRun, List.foldr_reverse]

/-- One bit a character, shifted in from the right, the last one first. -/
def shiftIns (f : UInt8 → Bool) (rs : List UInt8) : BitVec 64 :=
  rs.foldr (fun c v => (v <<< 1) ||| if f c then 1 else 0) 0

/-- Bit `j` is what `f` says of character `j` from the right. -/
theorem shiftIns_bit (f : UInt8 → Bool) (rs : List UInt8) {j : Nat} (hj : j < 64) :
    (shiftIns f rs).getLsbD j = (rs[j]?).any f := by
  induction rs generalizing j with
  | nil => simp [shiftIns]
  | cons c cs ih =>
      have hNew : (if f c then (1 : BitVec 64) else 0).getLsbD j = (decide (j = 0) && f c) := by
        cases f c
        · simp
        · simp [BitVec.getLsbD_one]
      show ((shiftIns f cs <<< 1) ||| if f c then 1 else 0).getLsbD j = _
      rw [BitVec.getLsbD_or, BitVec.getLsbD_shiftLeft, hNew]
      cases j with
      | zero => simp
      | succ j => simpa [hj] using ih (by omega)

section Run

variable {rs : List UInt8}

/-- The running key has the ones, the running mask all but the wildcards. -/
theorem patternRun_bits (hBits : ∀ c ∈ rs, c ≠ ascii ' ') :
    (patternRun rs).key = shiftIns (· = ascii '1') rs ∧
      (patternRun rs).mask = shiftIns (· ≠ ascii '?') rs := by
  induction rs with
  | nil => exact ⟨rfl, rfl⟩
  | cons c cs ih =>
      obtain ⟨hHead, hTail⟩ := List.forall_mem_cons.1 hBits
      obtain ⟨hKey, hMask⟩ := ih hTail
      have hStep : patternRun (c :: cs) = patternStep (patternRun cs) c := rfl
      rw [hStep, patternStep, if_neg hHead, hKey, hMask]
      simp [shiftIns]

/-- The running shift counts the wildcards at the right end. -/
theorem shift_eq (hBits : ∀ c ∈ rs, c ≠ ascii ' ') (hLen : rs.length < 64) :
    (patternRun rs).shift.toNat = (rs.takeWhile (· = ascii '?')).length := by
  induction rs with
  | nil => rfl
  | cons c cs ih =>
      obtain ⟨hHead, hTail⟩ := List.forall_mem_cons.1 hBits
      have hShift : (patternRun (c :: cs)).shift =
          if c = ascii '?' then (patternRun cs).shift + 1 else 0 := by
        show (patternStep (patternRun cs) c).shift = _
        rw [patternStep, if_neg hHead]
      rw [List.length_cons] at hLen
      rw [hShift]
      by_cases hWild : c = ascii '?'
      · have hRun := ih hTail (by omega)
        have hLe := (List.takeWhile_prefix (l := cs) (· = ascii '?')).length_le
        rw [if_pos hWild, List.takeWhile_cons_of_pos (by simpa), List.length_cons, BitVec.toNat_add,
          hRun]
        show _ % 18446744073709551616 = _
        rw [Nat.mod_eq_of_lt]
        · rfl
        · show _ + 1 < _
          omega
      · rw [if_neg hWild, List.takeWhile_cons_of_neg (by simpa)]
        rfl

/-- Below the shift there are wildcards only. -/
theorem wild_of_lt_shift {j : Nat} (hj : j < (rs.takeWhile (· = ascii '?')).length) :
    rs[j]? = some (ascii '?') := by
  induction rs generalizing j with
  | nil => simp at hj
  | cons c cs ih =>
      by_cases hWild : c = ascii '?'
      · rw [List.takeWhile_cons_of_pos (by simpa)] at hj
        cases j with
        | zero => rw [hWild, List.getElem?_cons_zero]
        | succ j =>
            rw [List.getElem?_cons_succ]
            exact ih (Nat.lt_of_succ_lt_succ hj)
      · rw [List.takeWhile_cons_of_neg (by simpa)] at hj
        simp at hj

/-- The shift loses no place that the pattern decides. -/
theorem shifted_test (key mask v shift : BitVec 64) :
    (v >>> shift &&& mask >>> shift) = key >>> shift ↔
      ∀ j, shift.toNat ≤ j → j < 64 →
        (v.getLsbD j && mask.getLsbD j) = key.getLsbD j := by
  have hBit : ∀ (u : BitVec 64) (i : Nat),
      (u >>> shift).getLsbD i = u.getLsbD (shift.toNat + i) := fun u i => by
    rw [BitVec.ushiftRight_eq', BitVec.getLsbD_ushiftRight]
  constructor
  · intro hEq j hLow hj
    have hAt := congrArg (fun u => u.getLsbD (j - shift.toNat)) hEq
    simp only [BitVec.getLsbD_and, hBit] at hAt
    rwa [show shift.toNat + (j - shift.toNat) = j by omega] at hAt
  · intro hAll
    apply BitVec.eq_of_getLsbD_eq
    intro i _
    rw [BitVec.getLsbD_and, hBit, hBit, hBit]
    by_cases hj : shift.toNat + i < 64
    · exact hAll _ (by omega) hj
    · rw [BitVec.getLsbD_of_ge key _ (by omega), BitVec.getLsbD_of_ge mask _ (by omega),
        Bool.and_false]

/-- One place: the test there asks for the character's bit, or for nothing. -/
theorem place_iff (hBits : ∀ c ∈ rs, c ≠ ascii ' ') (v : BitVec 64) {j : Nat} (hj : j < 64) :
    (v.getLsbD j && (patternRun rs).mask.getLsbD j) = (patternRun rs).key.getLsbD j ↔
      ∀ c, rs[j]? = some c → c ≠ ascii '?' → v.getLsbD j = decide (c = ascii '1') := by
  obtain ⟨hKey, hMask⟩ := patternRun_bits hBits
  rw [hKey, hMask, shiftIns_bit _ rs hj, shiftIns_bit _ rs hj]
  cases hAt : rs[j]? with
  | none => simp
  | some c =>
      by_cases hWild : c = ascii '?'
      · have hNe : ascii '?' ≠ ascii '1' := by decide
        simp [hWild, hNe]
      · simp [hWild]

/-- The decoded test holds exactly when every place does. -/
theorem accepts_run (hBits : ∀ c ∈ rs, c ≠ ascii ' ') (hLen : rs.length < 64) (inst : Word) :
    Pattern.accepts ⟨(patternRun rs).key >>> (patternRun rs).shift,
        (patternRun rs).mask >>> (patternRun rs).shift, (patternRun rs).shift⟩ inst = true ↔
      ∀ j c, rs[j]? = some c → c ≠ ascii '?' →
        (inst.setWidth 64).getLsbD j = decide (c = ascii '1') := by
  rw [Pattern.accepts, beq_iff_eq, shifted_test, shift_eq hBits hLen]
  constructor
  · intro hAll j c hAt hSolid
    have hj : j < rs.length := (List.getElem?_eq_some_iff.1 hAt).1
    refine (place_iff hBits _ (by omega)).1 (hAll j ?_ (by omega)) c hAt hSolid
    -- a place under the shift is a wildcard
    by_contra hLow
    rw [wild_of_lt_shift (Nat.lt_of_not_le hLow)] at hAt
    exact hSolid (Option.some.inj hAt).symm
  · intro hAll j _ hj
    exact (place_iff hBits _ hj).2 (hAll j)

end Run

/--
**Pattern strings match the bits they show**: whatever wildcards the pattern
has, and wherever, the decoded test accepts a word exactly when every other
character is the bit in its place.
-/
theorem patternDecode_shows {str : List UInt8} (hLen : str.length < 64)
    (hChars : ∀ c ∈ str, isPatternChar c = true) :
    ∃ p, patternDecode str = some p ∧ ∀ inst : Word, p.accepts inst = true ↔ Shows inst str := by
  have hBits : ∀ c ∈ (patternBits str).reverse, c ≠ ascii ' ' := fun c hc => by
    simpa using List.of_mem_filter (List.mem_reverse.1 hc)
  have hShort : (patternBits str).length ≤ str.length := List.length_filter_le _ _
  refine ⟨_, if_pos ⟨hLen, List.all_eq_true.2 hChars⟩, fun inst => ?_⟩
  rw [foldl_eq_patternRun, accepts_run hBits (by rw [List.length_reverse]; omega)]
  constructor
  · intro hAll i c hAt hSolid
    have hi := (List.getElem?_eq_some_iff.1 hAt).1
    refine hAll _ c ?_ hSolid
    rw [List.getElem?_reverse (by omega), ← hAt]
    congr 1
    omega
  · intro hShows j c hAt hSolid
    have hj := (List.getElem?_eq_some_iff.1 hAt).1
    rw [List.length_reverse] at hj
    rw [List.getElem?_reverse hj] at hAt
    have hBit := hShows _ c hAt hSolid
    rwa [show (patternBits str).length - 1 - ((patternBits str).length - 1 - j) = j by omega]
      at hBit

/-- `1 0?`: the low bit is free, the two above are shown. -/
theorem patternDecode_shows_free : ∃ p, patternDecode (cBytes "1 0?") = some p ∧
    ∀ inst : Word, p.accepts inst = true ↔ Shows inst (cBytes "1 0?") :=
  patternDecode_shows (show (cBytes "1 0?").length < 64 by decide)
    (List.all_eq_true.1 (by decide))

end Riscv32.Nemu
