import Riscv32.Rtl.Params
import Riscv32.Data.Radix

/-!
# klib's formatted output

`vsprintf` of `stdio.c`.  The format string is the list of its bytes from the
pointer on, the terminating NUL included; a read behind it is `none`.  `int` is
a 32-bit word and wraps.

The digit loops and the padding are functions of their own, as in the source;
`convert` is the switch, `directive` a pass of the loop behind a `%`, and `scan`
the loop, which recurses over what is left of the string.  A string argument is
looked up in `VaList`, beside the words.
-/

namespace Riscv32.Klib

open Riscv32.Rtl
open Riscv32.Data

/-! ## Conversions -/

/-- `va_list`: the words still to be fetched, and the string at an address. -/
structure VaList where
  words : Nat → Word
  str : Word → List Char

namespace VaList

/-- `va_arg`, the word. -/
def arg (ap : VaList) : Word := ap.words 0

/-- `va_arg`, what is left. -/
def rest (ap : VaList) : VaList := { ap with words := fun i => ap.words (i + 1) }

end VaList

/-- `u32_dev_len`. -/
def u32DevLen (num : Nat) : Nat := Radix.len 10 num

/-- `u32_hex_len`. -/
def u32HexLen (num : Nat) : Nat := Radix.len 16 num

/-- `for (int i = 0; i < n; i ++) *out ++ = c`. -/
def pad (n : Word) (c : Char) : List Char := List.replicate n.toInt.toNat c

/-- `temp%10 + '0'`. -/
def decDigit (temp : Nat) : Char := Char.ofNat (temp + 48)

/-- `temp%16 + '0'` or `temp%16 - 10 + 'a'`. -/
def hexDigit (temp : Nat) : Char :=
  if temp < 10 then Char.ofNat (temp + 48) else Char.ofNat (temp - 10 + 97)

/-- The digit loop of case `'d'`. -/
def decDigits (ud : Nat) : List Char := (Radix.digits 10 ud (u32DevLen ud)).map decDigit

/-- The digit loop of case `'x'`. -/
def hexDigits (x : Nat) : List Char := (Radix.digits 16 x (u32HexLen x)).map hexDigit

/-- `INT_MIN`. -/
def intMin : Word := 0x80000000#32

/-- Case `'d'` of the switch. -/
def convertD (padding : Char) (width d : Word) : List Char :=
  if d = intMin then '-' :: decDigits 0x80000000
  else if d = 0#32 then '0' :: decDigits 0
  else if d.slt 0#32 then
    let ud := (-d).toNat
    let len := BitVec.ofNat 32 (u32DevLen ud)
    (if padding = ' ' then pad (width - len - 1#32) ' ' ++ ['-'] else []) ++
      (if padding = '0' then '-' :: pad (width - len) '0' else []) ++ decDigits ud
  else pad (width - BitVec.ofNat 32 (u32DevLen d.toNat)) padding ++ decDigits d.toNat

/-- Case `'x'` of the switch. -/
def convertX (padding : Char) (width x : Word) : List Char :=
  pad (width - BitVec.ofNat 32 (u32HexLen x.toNat)) padding ++ hexDigits x.toNat

/-- The switch: what a conversion writes, and the arguments it leaves. -/
def convert (padding : Char) (width : Word) (conv : Char) (ap : VaList) : List Char × VaList :=
  match conv with
  | 's' => (ap.str ap.arg, ap.rest)
  | 'c' => ([Char.ofNat (ap.arg.toNat % 256)], ap.rest)
  | 'd' => (convertD padding width ap.arg, ap.rest)
  | 'x' => (convertX padding width ap.arg, ap.rest)
  | _ => ([], ap)

/-! ## The scan -/

/-- `*fmt >= '0' && *fmt <= '9'`. -/
def isWidthDigit (c : Char) : Bool := decide ('0'.toNat ≤ c.toNat) && decide (c.toNat ≤ '9'.toNat)

/-- The padding character and the pointer after it. -/
def readPadding : List Char → Option (Char × List Char)
  | [] => none
  | c :: fmt => if c = '0' then some ('0', fmt) else some (' ', c :: fmt)

/-- The width loop. -/
def readWidth (width : Word) : List Char → Option (Word × List Char)
  | [] => none
  | c :: fmt =>
      if isWidthDigit c then
        readWidth (width * 10#32 + BitVec.ofNat 32 c.toNat - BitVec.ofNat 32 '0'.toNat) fmt
      else some (width, c :: fmt)

/-- A pass of the loop behind a `%`. -/
def directive (ap : VaList) (fmt : List Char) : Option (List Char × VaList × List Char) := do
  let (padding, fmt) ← readPadding fmt
  let (width, fmt) ← readWidth 0#32 fmt
  match fmt with
  | [] => none
  | conv :: fmt =>
      let (text, ap) := convert padding width conv ap
      pure (text, ap, fmt)

/-- What `vsprintf` leaves behind: what it wrote, not counting the NUL, and where
it stopped reading. -/
structure Printed where
  out : List Char
  ap : VaList
  fmt : List Char

/-- `out - start`, as an `int`. -/
def Printed.count (r : Printed) : Int := (BitVec.ofNat 32 r.out.length).toInt

theorem readPadding_length {fmt rest : List Char} {c : Char}
    (h : readPadding fmt = some (c, rest)) : rest.length ≤ fmt.length := by
  cases fmt with
  | nil => cases h
  | cons a fmt =>
      rw [readPadding] at h
      split_ifs at h <;> cases h
      · exact Nat.le_succ _
      · exact Nat.le_refl _

theorem readWidth_length {fmt rest : List Char} {w width : Word}
    (h : readWidth w fmt = some (width, rest)) : rest.length ≤ fmt.length := by
  induction fmt generalizing w with
  | nil => cases h
  | cons a fmt ih =>
      rw [readWidth] at h
      split_ifs at h
      · exact Nat.le_succ_of_le (ih h)
      · cases h
        exact Nat.le_refl _

/-- A directive takes at least its conversion character. -/
theorem directive_length {ap ap' : VaList} {fmt rest text : List Char}
    (h : directive ap fmt = some (text, ap', rest)) : rest.length < fmt.length := by
  simp only [directive, Option.bind_eq_bind, Option.bind_eq_some_iff] at h
  obtain ⟨⟨padding, fmt'⟩, hPadding, ⟨width, fmt''⟩, hWidth, hConv⟩ := h
  have hLe := Nat.le_trans (readWidth_length hWidth) (readPadding_length hPadding)
  cases fmt'' with
  | nil => cases hConv
  | cons conv tail =>
      cases hConv
      exact hLe

/-- The loop of `vsprintf`.  `format_flag` stays zero, so that every other
character than `%` is copied. -/
def scan (ap : VaList) (out : List Char) : List Char → Option Printed
  | [] => none
  | c :: fmt =>
      if c = '\x00' then some ⟨out, ap, c :: fmt⟩
      else if c ≠ '%' then scan ap (out ++ [c]) fmt
      else
        match _hStep : directive ap fmt with
        | none => none
        | some (text, ap, rest) => scan ap (out ++ text) rest
termination_by fmt => fmt.length
decreasing_by
  · exact Nat.lt_succ_self _
  · exact Nat.lt_succ_of_lt (directive_length _hStep)

/-- `vsprintf` on the string `fmt`. -/
def vsprintf (fmt : List Char) (ap : VaList) : Option Printed := scan ap [] (fmt ++ ['\x00'])

/-! ### Its passes -/

section Passes

variable (ap : VaList) (out fmt : List Char)

theorem scan_nul : scan ap out ('\x00' :: fmt) = some ⟨out, ap, '\x00' :: fmt⟩ := by
  rw [scan, if_pos rfl]

theorem scan_literal {c : Char} (hNul : c ≠ '\x00') (hPercent : c ≠ '%') :
    scan ap out (c :: fmt) = scan ap (out ++ [c]) fmt := by
  rw [scan, if_neg hNul, if_pos hPercent]

theorem scan_directive : scan ap out ('%' :: fmt) =
    (directive ap fmt).bind fun r => scan r.2.1 (out ++ r.1) r.2.2 := by
  rw [scan, if_neg (by decide), if_neg (by simp)]
  split
  · next hStep => rw [hStep, Option.bind_none]
  · next hStep => rw [hStep, Option.bind_some]

end Passes

/-! ### Its directives -/

/-- The width a digit string sets. -/
def widthOf (width : Word) (ds : List Char) : Word :=
  ds.foldl (fun width c => width * 10#32 + BitVec.ofNat 32 c.toNat - BitVec.ofNat 32 '0'.toNat)
    width

section Directives

variable {ds : List Char} {conv : Char}

theorem readWidth_digits (hds : ∀ c ∈ ds, isWidthDigit c = true) (hConv : isWidthDigit conv = false)
    (width : Word) (fmt : List Char) :
    readWidth width (ds ++ conv :: fmt) = some (widthOf width ds, conv :: fmt) := by
  induction ds generalizing width with
  | nil => simp [readWidth, hConv, widthOf]
  | cons c ds ih =>
      obtain ⟨hc, hRest⟩ := List.forall_mem_cons.1 hds
      rw [List.cons_append, readWidth, if_pos hc, ih hRest]
      rfl

/-- With the flag the width follows it, without it the first digit is not `0`. -/
theorem readPadding_flag (flag : Bool) (fmt : List Char)
    (hHead : flag = false → ∃ c rest, fmt = c :: rest ∧ c ≠ '0') :
    readPadding ((if flag then ['0'] else []) ++ fmt) = some (if flag then '0' else ' ', fmt) := by
  cases flag with
  | true => rfl
  | false =>
      obtain ⟨c, rest, rfl, hc⟩ := hHead rfl
      simp [readPadding, hc]

theorem directive_reads {fmt fmt' rest : List Char} {padding : Char} {width : Word}
    (hPadding : readPadding fmt = some (padding, fmt'))
    (hWidth : readWidth 0#32 fmt' = some (width, conv :: rest)) (ap : VaList) :
    directive ap fmt = some ((convert padding width conv ap).1,
      (convert padding width conv ap).2, rest) := by
  simp only [directive, hPadding, hWidth, Option.bind_eq_bind, Option.bind_some]
  rfl

/-- A directive with its conversion character is read to that character. -/
theorem directive_complete (hds : ∀ c ∈ ds, isWidthDigit c = true)
    (hConv : isWidthDigit conv = false) (ap : VaList) (fmt : List Char) :
    ∃ text ap', directive ap (ds ++ conv :: fmt) = some (text, ap', fmt) := by
  have hPadding : ∃ c ds', readPadding (ds ++ conv :: fmt) = some (c, ds' ++ conv :: fmt) ∧
      ∀ c ∈ ds', isWidthDigit c = true := by
    cases ds with
    | nil =>
        have hZero : conv ≠ '0' := by
          rintro rfl
          exact absurd hConv (by decide)
        exact ⟨' ', [], by simp [readPadding, hZero], by simp⟩
    | cons c ds =>
        by_cases hZero : c = '0'
        · exact ⟨'0', ds, by simp [readPadding, hZero],
            fun d hd => hds d (List.mem_cons_of_mem c hd)⟩
        · exact ⟨' ', c :: ds, by simp [readPadding, hZero], hds⟩
  obtain ⟨c, ds', hRead, hds'⟩ := hPadding
  exact ⟨_, _, directive_reads hRead (readWidth_digits hds' hConv 0#32 fmt) ap⟩

end Directives

end Riscv32.Klib
