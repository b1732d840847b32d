import Riscv32.Klib.Format

/-!
# A directive with flag and width

What `vsprintf` makes of `%[0][w]` and a conversion character, and how many
padding characters a width calls for.

The text of a directive is written from the flag and the width
(`directiveText`), and `vsprintf_directive` reads it back: one conversion of one
argument, followed by the NUL.  All results about `%d` and `%x` begin there.  The
width is read modulo the width of `int` (`widthOf_digits`).
-/

namespace Riscv32.Klib

open Riscv32.Rtl
open Riscv32.Data

/-! ## The text of a directive -/

/-- A width as it is written; none is written for zero. -/
def widthText (w : Nat) : List Char := if w = 0 then [] else Nat.toDigits 10 w

/-- `%[0][w]conv`. -/
def directiveText (flag : Bool) (w : Nat) (conv : Char) : List Char :=
  '%' :: ((if flag then ['0'] else []) ++ (widthText w ++ [conv]))

/-- The padding character a flag selects. -/
def paddingOf (flag : Bool) : Char := if flag then '0' else ' '

theorem isWidthDigit_of_isDigit {c : Char} (h : c.isDigit = true) : isWidthDigit c = true := by
  simp only [Char.isDigit, Bool.and_eq_true, decide_eq_true_eq, UInt32.le_iff_toNat_le] at h
  simp only [isWidthDigit, Bool.and_eq_true, decide_eq_true_eq]
  exact h

theorem widthText_digits (w : Nat) : ∀ c ∈ widthText w, isWidthDigit c = true := by
  intro c hc
  unfold widthText at hc
  split_ifs at hc
  · simp at hc
  · exact isWidthDigit_of_isDigit (Nat.isDigit_of_mem_toDigits (by decide) (by decide) hc)

/-- Digits are read in base ten, modulo the width of `int`. -/
theorem widthOf_digits {ds : List Char} (hds : ∀ c ∈ ds, isWidthDigit c = true) (a : Nat) :
    widthOf (BitVec.ofNat 32 a) ds = BitVec.ofNat 32 (Nat.ofDigitChars 10 ds a) := by
  induction ds generalizing a with
  | nil => rfl
  | cons c ds ih =>
      obtain ⟨hc, hRest⟩ := List.forall_mem_cons.1 hds
      have hLow : 48 ≤ c.toNat := by
        simp only [isWidthDigit, Bool.and_eq_true, decide_eq_true_eq] at hc
        exact hc.1
      have hStep : BitVec.ofNat 32 a * 10#32 + BitVec.ofNat 32 c.toNat - BitVec.ofNat 32 '0'.toNat =
          BitVec.ofNat 32 (10 * a + (c.toNat - '0'.toNat)) := by
        apply BitVec.eq_of_toNat_eq
        simp only [BitVec.toNat_sub, BitVec.toNat_add, BitVec.toNat_mul, BitVec.toNat_ofNat,
          show '0'.toNat = 48 by rfl]
        omega
      rw [Nat.ofDigitChars_cons, ← ih hRest, ← hStep]
      rfl

theorem widthOf_widthText (w : Nat) : widthOf 0#32 (widthText w) = BitVec.ofNat 32 w := by
  have hRead := widthOf_digits (widthText_digits w) 0
  by_cases hw : w = 0
  · rw [widthText, if_pos hw, hw]
    rfl
  · rw [widthText, if_neg hw, Nat.ofDigitChars_ten_toDigits] at hRead
    rw [widthText, if_neg hw, ← hRead]

/-- Without the flag a directive does not start with `0`. -/
theorem widthText_head (w : Nat) {conv : Char} (hConv : isWidthDigit conv = false)
    (fmt : List Char) : ∃ c rest, widthText w ++ conv :: fmt = c :: rest ∧ c ≠ '0' := by
  unfold widthText
  split_ifs with hw
  · refine ⟨conv, fmt, rfl, ?_⟩
    rintro rfl
    exact absurd hConv (by decide)
  · obtain ⟨c, cs, hText⟩ := List.exists_cons_of_ne_nil (@Nat.toDigits_ne_nil w 10)
    refine ⟨c, cs ++ conv :: fmt, by rw [hText]; rfl, ?_⟩
    have hHead := Radix.head_toDigits (by decide : 1 < 10) (Nat.pos_of_ne_zero hw)
    rw [hText] at hHead
    simpa using hHead

/-- **A directive writes what its conversion makes of its argument.** -/
theorem vsprintf_directive (flag : Bool) (w : Nat) {conv : Char}
    (hConv : isWidthDigit conv = false) (ap : VaList) :
    vsprintf (directiveText flag w conv) ap =
      some ⟨(convert (paddingOf flag) (BitVec.ofNat 32 w) conv ap).1,
        (convert (paddingOf flag) (BitVec.ofNat 32 w) conv ap).2, ['\x00']⟩ := by
  have hPadding := readPadding_flag flag (widthText w ++ conv :: ['\x00'])
    fun _ => widthText_head w hConv _
  have hWidth := readWidth_digits (widthText_digits w) hConv 0#32 ['\x00']
  rw [widthOf_widthText] at hWidth
  have hStep := directive_reads hPadding hWidth ap
  rw [vsprintf, directiveText, List.cons_append, List.append_assoc, List.append_assoc,
    List.singleton_append, scan_directive, hStep, Option.bind_some, scan_nul]
  rfl

/-! ## Padding -/

/-- `width - k` as an `int`, for the few characters `k` of a number. -/
theorem pad_count {w k : Nat} (hk : k ≤ 11) :
    (BitVec.ofNat 32 w - BitVec.ofNat 32 k).toInt.toNat < 2 ^ 31 ∧
      (w < 2 ^ 31 + k → (BitVec.ofNat 32 w - BitVec.ofNat 32 k).toInt.toNat = w - k) := by
  have hSub : (BitVec.ofNat 32 w - BitVec.ofNat 32 k).toNat =
      (2 ^ 32 - k + w % 2 ^ 32) % 2 ^ 32 := by
    simp only [BitVec.toNat_sub, BitVec.toNat_ofNat]
    omega
  rw [BitVec.toInt_eq_toNat_cond, hSub]
  refine ⟨?_, fun hw => ?_⟩
  · split_ifs <;> omega
  · split_ifs <;> omega

theorem pad_eq {w k : Nat} (hk : k ≤ 11) (hw : w < 2 ^ 31 + k) (c : Char) :
    pad (BitVec.ofNat 32 w - BitVec.ofNat 32 k) c = List.replicate (w - k) c := by
  rw [pad, (pad_count hk).2 hw]

end Riscv32.Klib
