import Riscv32.Klib.Directive

/-!
# Numbers in decimal and hexadecimal

What `%[0][w]d` and `%[0][w]x` write, beside the text of the C standard.

The standard's text is written from `Nat.toDigits` (`standardD`, `standardX`) and
not from the code; `PadsD` and `WritesX` are conditions on the number, the flag
and the width alone.  What differs from the standard is where padding stands and
how much of it there is, and that zero has no digit in `%x`.

## Main results

* `formatsD_iff` — where `%d` writes the standard's text.
* `parseHex_standardX` — the standard's hexadecimal text reads back as the value.
* `formatsX_iff` — where `%x` writes it.
-/

namespace Riscv32.Klib

open Riscv32.Rtl
open Riscv32.Data

/-! ## Digit loops -/

theorem decDigit_eq {temp : Nat} (h : temp < 10) : decDigit temp = temp.digitChar := by
  have hAll : ∀ t : Fin 10, decDigit t.1 = t.1.digitChar := by decide
  exact hAll ⟨temp, h⟩

theorem hexDigit_eq {temp : Nat} (h : temp < 16) : hexDigit temp = temp.digitChar := by
  have hAll : ∀ t : Fin 16, hexDigit t.1 = t.1.digitChar := by decide
  exact hAll ⟨temp, h⟩

@[simp] theorem decDigits_zero : decDigits 0 = [] := by
  rw [decDigits, u32DevLen, Radix.len_zero]
  rfl

@[simp] theorem hexDigits_zero : hexDigits 0 = [] := by
  rw [hexDigits, u32HexLen, Radix.len_zero]
  rfl

theorem decDigits_pos {ud : Nat} (h : 0 < ud) : decDigits ud = Nat.toDigits 10 ud := by
  rw [← Radix.map_digits (by decide) h]
  exact List.map_congr_left fun d hd => decDigit_eq (Radix.digits_lt (by decide) _ d hd)

theorem hexDigits_pos {x : Nat} (h : 0 < x) : hexDigits x = Nat.toDigits 16 x := by
  rw [← Radix.map_digits (by decide) h]
  exact List.map_congr_left fun d hd => hexDigit_eq (Radix.digits_lt (by decide) _ d hd)

theorem u32DevLen_eq {ud : Nat} (h : 0 < ud) : u32DevLen ud = (Nat.toDigits 10 ud).length :=
  Radix.len_eq_length (by decide) h

theorem u32HexLen_eq {x : Nat} (h : 0 < x) : u32HexLen x = (Nat.toDigits 16 x).length :=
  Radix.len_eq_length (by decide) h

theorem u32DevLen_le {ud : Nat} (h : ud < 2 ^ 32) : u32DevLen ud ≤ 10 := by
  by_cases hPos : 0 < ud
  · exact (Radix.len_le_iff (by decide) hPos (by decide)).2 (by omega)
  · obtain rfl : ud = 0 := by omega
    simp [u32DevLen]

theorem u32HexLen_le {x : Nat} (h : x < 2 ^ 32) : u32HexLen x ≤ 8 := by
  by_cases hPos : 0 < x
  · exact (Radix.len_le_iff (by decide) hPos (by decide)).2 (by omega)
  · obtain rfl : x = 0 := by omega
    simp [u32HexLen]

/-! ## Decimal -/

/-- The sign of a number as C writes it. -/
def signOf (d : Int) : List Char := if d < 0 then ['-'] else []

/-- `%[0][w]d` in the C standard: spaces before the sign, zeros after it. -/
def standardD (flag : Bool) (w : Nat) (d : Int) : List Char :=
  let digits := Nat.toDigits 10 d.natAbs
  let fill := w - ((signOf d).length + digits.length)
  if flag then signOf d ++ List.replicate fill '0' ++ digits
  else List.replicate fill ' ' ++ signOf d ++ digits

theorem length_standardD (flag : Bool) (w : Nat) (d : Int) : (standardD flag w d).length =
    max w ((signOf d).length + (Nat.toDigits 10 d.natAbs).length) := by
  unfold standardD
  split_ifs <;>
  · simp only [List.length_append, List.length_replicate]
    omega

/-- `vsprintf` writes the standard's text and returns its length. -/
def FormatsD (flag : Bool) (w : Nat) (ap : VaList) : Prop :=
  ∃ r, vsprintf (directiveText flag w 'd') ap = some r ∧ r.out = standardD flag w ap.arg.toInt ∧
    r.count = r.out.length

/-- Where the code pads as the standard does: positive numbers always, negative
ones with spaces or where there is nothing to pad, zero and `INT_MIN` where
there is nothing to pad. -/
def PadsD (flag : Bool) (w : Nat) (d : Word) : Prop :=
  if d = intMin then w ≤ 11
  else if d = 0#32 then w ≤ 1
  else d.slt 0#32 = true → flag = true → w ≤ u32DevLen (-d).toNat

instance (flag : Bool) (w : Nat) (d : Word) : Decidable (PadsD flag w d) := by
  unfold PadsD
  infer_instance

/-! ### Signs -/

section Signs

variable {d : Word}

theorem toInt_nonneg (h : d.slt 0#32 = false) : d.toInt = d.toNat := by
  have hSign : ¬ d.toInt < 0 := by simpa [BitVec.slt] using h
  rw [BitVec.toInt_eq_toNat_cond] at hSign ⊢
  split_ifs at hSign ⊢ <;> omega

theorem toInt_neg (h : d.slt 0#32 = true) :
    d.toInt < 0 ∧ d.toInt.natAbs = (-d).toNat ∧ 0 < (-d).toNat := by
  have hSign : d.toInt < 0 := by simpa [BitVec.slt] using h
  have hNeg : (-d).toNat = (2 ^ 32 - d.toNat) % 2 ^ 32 := BitVec.toNat_neg d
  have hLt := d.isLt
  rw [BitVec.toInt_eq_toNat_cond] at hSign ⊢
  split_ifs at hSign ⊢ <;> omega

end Signs

/-! ### The cases of the switch -/

/-- The standard pads unless sign and digits fill the width. -/
theorem standardD_bare (flag : Bool) (w : Nat) (d : Int) :
    signOf d ++ Nat.toDigits 10 d.natAbs = standardD flag w d ↔
      w ≤ (signOf d).length + (Nat.toDigits 10 d.natAbs).length := by
  refine ⟨fun h => ?_, fun h => ?_⟩
  · have hLength := congrArg List.length h
    rw [length_standardD, List.length_append] at hLength
    omega
  · cases flag <;> simp [standardD, Nat.sub_eq_zero_of_le h]

section Cases

variable (flag : Bool) {w : Nat} {d : Word}

theorem convertD_min (hd : d = intMin) (width : Word) :
    convertD (paddingOf flag) width d = standardD flag w d.toInt ↔ w ≤ 11 := by
  have hInt : d.toInt = -2147483648 := by
    rw [hd]
    decide
  have hLength : (Nat.toDigits 10 2147483648).length = 10 := by
    have hLe := (@Nat.length_toDigits_le_iff 10 2147483648 10 (by decide) (by decide)).2 (by decide)
    have hGt := mt (@Nat.length_toDigits_le_iff 10 2147483648 9 (by decide) (by decide)).1
      (by decide)
    omega
  have hText : convertD (paddingOf flag) width d =
      signOf d.toInt ++ Nat.toDigits 10 d.toInt.natAbs := by
    rw [convertD, if_pos hd, decDigits_pos (by decide), hInt]
    rfl
  rw [hText, standardD_bare, hInt]
  show w ≤ 1 + (Nat.toDigits 10 2147483648).length ↔ w ≤ 11
  omega

theorem convertD_zero (hd : d = 0#32) (width : Word) :
    convertD (paddingOf flag) width d = standardD flag w d.toInt ↔ w ≤ 1 := by
  have hText : convertD (paddingOf flag) width d =
      signOf d.toInt ++ Nat.toDigits 10 d.toInt.natAbs := by
    rw [hd, convertD, if_neg (by decide), if_pos rfl, decDigits_zero]
    rfl
  rw [hText, standardD_bare, hd]
  exact Iff.rfl

variable (hw : w < 2 ^ 31)

include hw

theorem convertD_positive (hd : d ≠ 0#32) (hSign : d.slt 0#32 = false) :
    convertD (paddingOf flag) (BitVec.ofNat 32 w) d = standardD flag w d.toInt := by
  have hMin : d ≠ intMin := by
    rintro rfl
    exact absurd hSign (by decide)
  have hPos := BitVec.toNat_pos_of_ne_zero hd
  have hLen := u32DevLen_le d.isLt
  have hSignOf : signOf d.toNat = [] := if_neg (by omega)
  rw [convertD, if_neg hMin, if_neg hd, if_neg (by simp [hSign]), pad_eq (by omega) (by omega),
    decDigits_pos hPos, u32DevLen_eq hPos, toInt_nonneg hSign, standardD, hSignOf]
  cases flag <;> simp [paddingOf]

theorem convertD_spaces (hMin : d ≠ intMin) (hSign : d.slt 0#32 = true) :
    convertD (paddingOf false) (BitVec.ofNat 32 w) d = standardD false w d.toInt := by
  obtain ⟨hNeg, hAbs, hPos⟩ := toInt_neg hSign
  have hZero : d ≠ 0#32 := by
    rintro rfl
    exact absurd hSign (by decide)
  have hLen := u32DevLen_le (-d).isLt
  have hWidth : BitVec.ofNat 32 w - BitVec.ofNat 32 (u32DevLen (-d).toNat) - 1#32 =
      BitVec.ofNat 32 w - BitVec.ofNat 32 (u32DevLen (-d).toNat + 1) := by
    apply BitVec.eq_of_toNat_eq
    simp only [BitVec.toNat_sub, BitVec.toNat_ofNat]
    omega
  rw [convertD, if_neg hMin, if_neg hZero, if_pos hSign]
  simp only [paddingOf, Bool.false_eq_true, if_false, if_true, show ' ' ≠ '0' by decide,
    List.append_nil, hWidth, pad_eq (show u32DevLen (-d).toNat + 1 ≤ 11 by omega)
      (show w < 2 ^ 31 + (u32DevLen (-d).toNat + 1) by omega)]
  rw [decDigits_pos hPos, u32DevLen_eq hPos, standardD, hAbs, signOf, if_pos hNeg]
  simp [Nat.add_comm]

theorem convertD_zeros (hMin : d ≠ intMin) (hSign : d.slt 0#32 = true) :
    convertD (paddingOf true) (BitVec.ofNat 32 w) d = standardD true w d.toInt ↔
      w ≤ u32DevLen (-d).toNat := by
  obtain ⟨hNeg, hAbs, hPos⟩ := toInt_neg hSign
  have hZero : d ≠ 0#32 := by
    rintro rfl
    exact absurd hSign (by decide)
  have hLen := u32DevLen_le (-d).isLt
  have hText : convertD (paddingOf true) (BitVec.ofNat 32 w) d =
      '-' :: (List.replicate (w - u32DevLen (-d).toNat) '0' ++ decDigits (-d).toNat) := by
    rw [convertD, if_neg hMin, if_neg hZero, if_pos hSign]
    simp only [paddingOf, if_true, show ¬ '0' = ' ' by decide, if_false, List.nil_append,
      List.cons_append, pad_eq (show u32DevLen (-d).toNat ≤ 11 by omega)
        (show w < 2 ^ 31 + u32DevLen (-d).toNat by omega)]
  have hStandard : standardD true w d.toInt =
      '-' :: (List.replicate (w - (1 + u32DevLen (-d).toNat)) '0' ++ decDigits (-d).toNat) := by
    rw [decDigits_pos hPos, u32DevLen_eq hPos, standardD, hAbs, signOf, if_pos hNeg]
    rfl
  rw [hText, hStandard]
  refine ⟨fun h => ?_, fun h => ?_⟩
  · have hLength := congrArg List.length h
    simp only [List.length_cons, List.length_append, List.length_replicate] at hLength
    omega
  · rw [show w - u32DevLen (-d).toNat = w - (1 + u32DevLen (-d).toNat) by omega]

/-- The switch writes the standard's text where it pads as the standard does. -/
theorem convertD_iff (flag : Bool) (d : Word) :
    convertD (paddingOf flag) (BitVec.ofNat 32 w) d = standardD flag w d.toInt ↔
      PadsD flag w d := by
  unfold PadsD
  split_ifs with hMin hZero
  · exact convertD_min flag hMin _
  · exact convertD_zero flag hZero _
  · cases hSign : d.slt 0#32 with
    | false => simp [convertD_positive flag hw hZero hSign]
    | true =>
        cases flag with
        | false => simp [convertD_spaces hw hMin hSign]
        | true => simp [convertD_zeros hw hMin hSign]

end Cases

/-! ### The directive -/

theorem count_eq_iff (r : Printed) : r.count = r.out.length ↔ r.out.length < 2 ^ 31 := by
  unfold Printed.count
  rw [BitVec.toInt_eq_toNat_cond, BitVec.toNat_ofNat]
  split_ifs <;> omega

/-- **`%d` formats as the standard says exactly where it pads so**, for the
widths an `int` holds. -/
theorem formatsD_iff (flag : Bool) (w : Nat) (ap : VaList) :
    FormatsD flag w ap ↔ w < 2 ^ 31 ∧ PadsD flag w ap.arg := by
  have hRun := vsprintf_directive flag w (show isWidthDigit 'd' = false by decide) ap
  have hOut : (convert (paddingOf flag) (BitVec.ofNat 32 w) 'd' ap).1 =
      convertD (paddingOf flag) (BitVec.ofNat 32 w) ap.arg := rfl
  constructor
  · rintro ⟨r, hr, hText, hCount⟩
    obtain rfl := Option.some.inj (hRun.symm.trans hr)
    rw [count_eq_iff, hText, length_standardD] at hCount
    have hw : w < 2 ^ 31 := by omega
    exact ⟨hw, (convertD_iff hw flag _).1 (hOut.symm.trans hText)⟩
  · rintro ⟨hw, hPads⟩
    have hText := (convertD_iff hw flag ap.arg).2 hPads
    refine ⟨_, hRun, hOut.trans hText, ?_⟩
    rw [count_eq_iff]
    show (convert (paddingOf flag) (BitVec.ofNat 32 w) 'd' ap).1.length < 2 ^ 31
    rw [hOut, hText, length_standardD]
    have hAbs : ap.arg.toInt.natAbs < 10 ^ 10 := by
      have hBounds := ap.arg.toInt_lt
      have hLow := ap.arg.le_toInt
      omega
    have hDigits := (Nat.length_toDigits_le_iff (by decide : 1 < 10) (by decide : 0 < 10)).2 hAbs
    have hSign : (signOf ap.arg.toInt).length ≤ 1 := by
      unfold signOf
      split_ifs <;> simp
    omega

/-- `%2d` of zero writes one character. -/
theorem formatsD_not_zero : ¬ ∀ ap, FormatsD false 2 ap := by
  intro h
  obtain ⟨r, hRun, hText, -⟩ := h ⟨fun _ => 0#32, fun _ => []⟩
  rw [vsprintf_directive false 2 (by decide)] at hRun
  obtain rfl := Option.some.inj hRun
  have hWidth := (@convertD_zero false 2 0#32 rfl (BitVec.ofNat 32 2)).1 hText
  exact absurd hWidth (by decide)

/-! ## Hexadecimal -/

/-- `%[0][w]x` in the C standard, padded with the chosen character. -/
def standardX (flag : Bool) (w x : Nat) : List Char :=
  let digits := Nat.toDigits 16 x
  List.replicate (w - digits.length) (paddingOf flag) ++ digits

/-- The value of a hexadecimal digit. -/
def hexValue (c : Char) : Nat := if c.toNat ≤ '9'.toNat then c.toNat - 48 else c.toNat - 87

/-- A hexadecimal number, blanks before it skipped. -/
def parseHex (text : List Char) : Nat :=
  (text.dropWhile (· = ' ')).foldl (fun v c => 16 * v + hexValue c) 0

/-- `vsprintf` writes the standard's text, which reads back as the value. -/
def FormatsX (flag : Bool) (w : Nat) (ap : VaList) : Prop :=
  ∃ r, vsprintf (directiveText flag w 'x') ap = some r ∧
    r.out = standardX flag w ap.arg.toNat ∧ parseHex r.out = ap.arg.toNat

/-! ### Reading back -/

theorem hexValue_digitChar {d : Nat} (h : d < 16) : hexValue d.digitChar = d := by
  have hAll : ∀ t : Fin 16, hexValue t.1.digitChar = t.1 := by decide
  exact hAll ⟨d, h⟩

/-- The digits of a number read back as the number. -/
theorem foldl_toDigits (x : Nat) :
    (Nat.toDigits 16 x).foldl (fun v c => 16 * v + hexValue c) 0 = x := by
  by_cases hPos : 0 < x
  · have hFold : ∀ (ds : List Nat) (v : Nat), (∀ d ∈ ds, d < 16) →
        (ds.map Nat.digitChar).foldl (fun v c => 16 * v + hexValue c) v =
          ds.foldl (fun v d => 16 * v + d) v := by
      intro ds
      induction ds with
      | nil => exact fun _ _ => rfl
      | cons d ds ih =>
          intro v hds
          obtain ⟨hd, hRest⟩ := List.forall_mem_cons.1 hds
          rw [List.map_cons, List.foldl_cons, List.foldl_cons, hexValue_digitChar hd, ih _ hRest]
    rw [← Radix.map_digits (by decide) hPos, hFold _ _ (Radix.digits_lt (by decide) _),
      Radix.foldl_digits (by decide)]
  · obtain rfl : x = 0 := by omega
    rw [Nat.toDigits_zero]
    rfl

/-- Zeros before a number do not change it. -/
theorem foldl_zeros (n : Nat) (digits : List Char) :
    (List.replicate n '0' ++ digits).foldl (fun v c => 16 * v + hexValue c) 0 =
      digits.foldl (fun v c => 16 * v + hexValue c) 0 := by
  induction n with
  | zero => rfl
  | succ n ih => exact ih

theorem toDigits_not_blank (x : Nat) : ∀ c ∈ Nat.toDigits 16 x, c ≠ ' ' := by
  have hDigit (d : Nat) : d.digitChar ≠ ' ' := Nat.digitChar_ne ' ' (by decide)
  by_cases hPos : 0 < x
  · intro c hc
    rw [← Radix.map_digits (by decide) hPos, List.mem_map] at hc
    obtain ⟨d, -, rfl⟩ := hc
    exact hDigit d
  · obtain rfl : x = 0 := by omega
    simp

theorem dropWhile_blank {text : List Char} (h : ∀ c ∈ text, c ≠ ' ') :
    text.dropWhile (· = ' ') = text := by
  cases text with
  | nil => rfl
  | cons c text => simp [h c List.mem_cons_self]

/-- **The standard's text reads back as the value.** -/
theorem parseHex_standardX (flag : Bool) (w x : Nat) : parseHex (standardX flag w x) = x := by
  unfold parseHex standardX
  cases flag with
  | true =>
      rw [dropWhile_blank, paddingOf, if_pos rfl, foldl_zeros, foldl_toDigits]
      intro c hc
      rcases List.mem_append.1 hc with hZero | hDigit
      · rw [List.eq_of_mem_replicate hZero]
        decide
      · exact toDigits_not_blank x c hDigit
  | false =>
      rw [List.dropWhile_append_of_pos, dropWhile_blank (toDigits_not_blank x), foldl_toDigits]
      intro c hc
      rw [List.eq_of_mem_replicate hc]
      decide

/-! ### Writing -/

section Hex

variable (flag : Bool) (w : Nat) (x : Word)

/-- Where the code writes at least one digit and its padding does not wrap. -/
def WritesX (flag : Bool) (w : Nat) (x : Word) : Prop :=
  if x = 0#32 then flag = true ∧ 1 ≤ w ∧ w < 2 ^ 31 else w < 2 ^ 31 + u32HexLen x.toNat

instance : Decidable (WritesX flag w x) := by
  unfold WritesX
  infer_instance

theorem convertX_pos (hx : x ≠ 0#32) :
    convertX (paddingOf flag) (BitVec.ofNat 32 w) x = standardX flag w x.toNat ↔
      w < 2 ^ 31 + u32HexLen x.toNat := by
  have hPos := BitVec.toNat_pos_of_ne_zero hx
  have hLen := u32HexLen_le x.isLt
  have hStandard : standardX flag w x.toNat =
      List.replicate (w - u32HexLen x.toNat) (paddingOf flag) ++ hexDigits x.toNat := by
    rw [hexDigits_pos hPos, u32HexLen_eq hPos]
    rfl
  obtain ⟨hSmall, hExact⟩ := @pad_count w (u32HexLen x.toNat) (by omega)
  rw [hStandard, convertX, pad]
  refine ⟨fun h => ?_, fun hw => by rw [hExact hw]⟩
  have hLength := congrArg List.length h
  simp only [List.length_append, List.length_replicate] at hLength
  omega

/-- Zero has no digit: the padding has to be one. -/
theorem convertX_zero :
    convertX (paddingOf flag) (BitVec.ofNat 32 w) 0#32 = standardX flag w 0 ↔
      flag = true ∧ 1 ≤ w ∧ w < 2 ^ 31 := by
  obtain ⟨hSmall, hExact⟩ := @pad_count w 0 (by decide)
  have hText : convertX (paddingOf flag) (BitVec.ofNat 32 w) 0#32 =
      List.replicate (BitVec.ofNat 32 w - BitVec.ofNat 32 0).toInt.toNat (paddingOf flag) := by
    rw [convertX, show (0#32 : Word).toNat = 0 by rfl, hexDigits_zero, List.append_nil, u32HexLen,
      Radix.len_zero, pad]
  have hStandard : standardX flag w 0 = List.replicate (w - 1) (paddingOf flag) ++ ['0'] := by
    rw [standardX, Nat.toDigits_zero]
    rfl
  rw [hText, hStandard]
  constructor
  · intro h
    have hLength := congrArg List.length h
    simp only [List.length_append, List.length_replicate, List.length_singleton] at hLength
    have hMem : '0' ∈ List.replicate
        (BitVec.ofNat 32 w - BitVec.ofNat 32 0).toInt.toNat (paddingOf flag) := by
      rw [h]
      simp
    have hChar := List.eq_of_mem_replicate hMem
    cases flag with
    | true => exact ⟨rfl, by omega, by omega⟩
    | false => exact absurd hChar (by decide)
  · rintro ⟨rfl, hLow, hHigh⟩
    rw [hExact (by omega), show w - 0 = (w - 1) + 1 by omega, List.replicate_add]
    rfl

theorem convertX_iff :
    convertX (paddingOf flag) (BitVec.ofNat 32 w) x = standardX flag w x.toNat ↔
      WritesX flag w x := by
  unfold WritesX
  split_ifs with hx
  · rw [hx]
    exact convertX_zero flag w
  · exact convertX_pos flag w x hx

end Hex

/-- **`%x` formats as the standard says exactly where it writes a digit** and
the padding stays an `int`. -/
theorem formatsX_iff (flag : Bool) (w : Nat) (ap : VaList) :
    FormatsX flag w ap ↔ WritesX flag w ap.arg := by
  have hRun := vsprintf_directive flag w (show isWidthDigit 'x' = false by decide) ap
  have hOut : (convert (paddingOf flag) (BitVec.ofNat 32 w) 'x' ap).1 =
      convertX (paddingOf flag) (BitVec.ofNat 32 w) ap.arg := rfl
  rw [← convertX_iff]
  constructor
  · rintro ⟨r, hr, hText, -⟩
    obtain rfl := Option.some.inj (hRun.symm.trans hr)
    exact hOut.symm.trans hText
  · intro hText
    refine ⟨_, hRun, hOut.trans hText, ?_⟩
    show parseHex (convert (paddingOf flag) (BitVec.ofNat 32 w) 'x' ap).1 = ap.arg.toNat
    rw [hOut, hText, parseHex_standardX]

/-- `%x` of zero writes nothing. -/
theorem formatsX_not_zero : ¬ ∀ ap, FormatsX false 0 ap := by
  intro h
  obtain ⟨r, hRun, hText, -⟩ := h ⟨fun _ => 0#32, fun _ => []⟩
  rw [vsprintf_directive false 0 (by decide)] at hRun
  obtain rfl := Option.some.inj hRun
  exact absurd ((convertX_zero false 0).1 hText) (by decide)

end Riscv32.Klib
