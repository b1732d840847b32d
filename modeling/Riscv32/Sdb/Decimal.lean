import Riscv32.Sdb.Evaluation

/-!
# Decimal numerals

`strtol` picks the base itself and reads a numeral with a leading zero as an
octal one; `make_token` copies the digits modulo the length of `str`.  `Numeral`
leaves both kinds out; here a decimal numeral is any string of digits.

What is wrong with a numeral is decided by its text alone.  `Regular` asks of one
that fits into `str` that it has no leading zero or is below eight, where both
bases read it alike (`octal_reading`), and of a longer one that it is zero.

`decimal_evaluates_iff` says that a decimal numeral evaluates to its value in base
ten exactly where it is regular.
-/

namespace Riscv32.Sdb

open Riscv32.Data Riscv32.Rtl

/-- A decimal numeral of the rule `TK_DEC`, of the length `make_token` takes. -/
structure Decimal where
  digits : List Char
  suffix : Bool
  digits_ne : digits ≠ []
  digits_mem : ∀ c ∈ digits, c ∈ decDigits
  length_le : (digits ++ if suffix then ['u'] else []).length ≤ 32

namespace Decimal

variable (n : Decimal)

def text : List Char := n.digits ++ if n.suffix then ['u'] else []

/-- The value in base ten. -/
def value : Nat := digitsValue 10 n.digits

/-- A string of 31 digits at most that does not start with `0` or is a single
octal digit as a number; of the longer ones, zero. -/
def Regular : Prop :=
  if n.digits.length ≤ 31 then n.digits.head? ≠ some '0' ∨ n.value < 8 else n.value = 0

instance : Decidable n.Regular := by
  unfold Regular
  infer_instance

end Decimal

/-! ## Scanning -/

/-- Without `x` behind a zero there is no hexadecimal numeral. -/
theorem longest_hexRule_none {e : List Char}
    (h : ∀ x rest, e = '0' :: x :: rest → x ∉ ['x', 'X']) : Regex.longest hexRule e = none := by
  refine Regex.longest_eq_none fun m hm => ?_
  obtain ⟨x, hx, ds, -, -, hEq⟩ := mem_hexRule.1 hm
  obtain ⟨tail, hTail⟩ := hEq ▸ List.take_prefix m e
  exact h x (ds ++ tail) hTail.symm hx

section Scan

variable (n : Decimal)

theorem decimal_mem_decRule : n.text ∈ decRule.matches' := by
  refine mem_decRule.2 ⟨n.digits, n.digits_ne, n.digits_mem, ?_⟩
  unfold Decimal.text
  cases n.suffix with
  | false => exact .inl (List.append_nil _)
  | true => exact .inr rfl

theorem decimal_not_hex : Regex.longest hexRule n.text = none := by
  refine longest_hexRule_none fun x rest hText hx => ?_
  have hMem : ∀ c ∈ n.text, c ∈ decDigits ++ ['u'] := by
    intro c hc
    unfold Decimal.text at hc
    rcases List.mem_append.1 hc with hDigit | hSuffix
    · exact List.mem_append_left _ (n.digits_mem c hDigit)
    · split_ifs at hSuffix
      · exact List.mem_append_right _ hSuffix
      · simp at hSuffix
  have hNot : ∀ c ∈ ['x', 'X'], c ∉ decDigits ++ ['u'] :=
    List.forall_iff_forall_mem.1 (by decide)
  exact hNot x hx (hMem x (by rw [hText]; simp))

theorem firstMatch_decimal : firstMatch rules n.text = some (.dec, n.text.length) := by
  have hRules : rules = rules.take 1 ++ (decRule, .dec) :: rules.drop 2 := rfl
  have hLongest := Regex.longest_of_delimited [] (decimal_mem_decRule n) decRule_wordChars
    (fun c hc => by cases hc)
  rw [List.append_nil] at hLongest
  rw [hRules]
  refine firstMatch_append (fun x hx => ?_) hLongest
  rw [List.mem_singleton.1 hx]
  exact decimal_not_hex n

theorem recordToken_decimal :
    recordToken [] .dec n.text = some ⟨.dec, copyStr n.digits⟩ := by
  unfold Decimal.text
  cases n.suffix with
  | false =>
      have hLast : n.digits.getLast? ≠ some 'u' := by
        intro hLast
        exact absurd (n.digits_mem 'u' (List.mem_of_getLast? hLast)) (by decide)
      simp [recordToken, hLast]
  | true => simp [recordToken]

/-- A decimal numeral is one token. -/
theorem makeToken_decimal : makeToken n.text = .ok (some [⟨.dec, copyStr n.digits⟩]) := by
  have hPush : pushToken [] (recordToken [] .dec n.text) = .ok [⟨.dec, copyStr n.digits⟩] := by
    rw [recordToken_decimal]
    rfl
  have hMatch : firstMatch rules (n.text ++ []) = some (.dec, n.text.length) := by
    rw [List.append_nil, firstMatch_decimal]
  have hStep := scan_step hMatch n.length_le hPush
  rw [List.append_nil] at hStep
  rw [makeToken, hStep, scan_nil]

theorem expr_decimal {σ : Type} (t : Target σ) (success : Bool) (s : σ) :
    expr t n.text success s =
      .ok ((BitVec.ofNat 32 (strtol (copyStr n.digits)), success), s) := by
  rw [expr_of_makeToken t s (makeToken_decimal n), eval_singleton]
  rfl

end Scan

/-! ## Octal readings -/

theorem le_foldl (ds : List Char) (v : Nat) :
    v ≤ ds.foldl (fun v c => 10 * v + digitVal c) v := by
  induction ds generalizing v with
  | nil => exact Nat.le_refl v
  | cons c ds ih =>
      have hStep := ih (10 * v + digitVal c)
      rw [List.foldl_cons]
      omega

/-- Digits read in base eight from a smaller start stay below the decimal value. -/
theorem octal_lt {ds : List Char} {a v : Nat} (h : a < v) :
    strtolDigits 8 a ds < ds.foldl (fun v c => 10 * v + digitVal c) v := by
  induction ds generalizing a v with
  | nil => exact h
  | cons c ds ih =>
      rw [strtolDigits, List.foldl_cons]
      split_ifs with hc
      · exact ih (by omega)
      · have hStep := le_foldl ds (10 * v + digitVal c)
        omega

/-- The octal reading is the decimal one for a single octal digit, leading zeros
apart; every other numeral has a smaller one. -/
theorem octal_reading (ds : List Char) :
    strtolDigits 8 0 ds ≤ digitsValue 10 ds ∧
      (strtolDigits 8 0 ds = digitsValue 10 ds ↔ digitsValue 10 ds < 8) := by
  have hFold (cs : List Char) (v : Nat) : v ≤ cs.foldl (fun v c => 10 * v + digitVal c) v :=
    le_foldl cs v
  unfold digitsValue
  induction ds with
  | nil => simp [strtolDigits]
  | cons c ds ih =>
      simp only [strtolDigits, List.foldl_cons, Nat.mul_zero, Nat.zero_add]
      by_cases hZero : digitVal c = 0
      · rw [hZero, if_pos (by decide)]
        exact ih
      · cases ds with
        | nil =>
            simp only [strtolDigits, List.foldl_nil]
            split_ifs with hc <;> omega
        | cons d ds =>
            have hTen := hFold ds (10 * digitVal c + digitVal d)
            rw [List.foldl_cons]
            split_ifs with hc
            · have hLess : strtolDigits 8 (digitVal c) (d :: ds) <
                  ds.foldl (fun v c => 10 * v + digitVal c) (10 * digitVal c + digitVal d) := by
                rw [strtolDigits]
                split_ifs with hd
                · exact octal_lt (by omega)
                · omega
              omega
            · omega

/-- A leading zero makes base 0 octal: no digit is an `x`. -/
theorem strtol_leading_zero {ds : List Char} (hMem : ∀ c ∈ ds, c ∈ decDigits)
    (hHead : ds.head? = some '0') : strtol ds = min longMax (strtolDigits 8 0 ds) := by
  have hMark : ∀ c ∈ decDigits, ¬ (c = 'x' ∨ c = 'X') :=
    List.forall_iff_forall_mem.1 (by decide)
  unfold strtol
  split
  · rename_i x d cs
    rw [if_neg fun h => hMark x (hMem x (by simp)) h.1]
  · rfl
  · rename_i hShort hZero
    obtain ⟨c, cs, rfl⟩ := List.exists_cons_of_ne_nil (l := ds) (by rintro rfl; cases hHead)
    cases hHead
    exact absurd rfl (hZero cs)

/-! ## Readings -/

/-- Where a decimal numeral is read in base ten. -/
theorem strtol_decimal_iff (n : Decimal) (hValue : n.value < 2 ^ 32) :
    BitVec.ofNat 32 (strtol (copyStr n.digits)) = BitVec.ofNat 32 n.value ↔ n.Regular := by
  have hWord {x y : Nat} (hx : x < 2 ^ 32) (hy : y < 2 ^ 32) :
      BitVec.ofNat 32 x = BitVec.ofNat 32 y ↔ x = y := by
    refine ⟨fun h => ?_, fun h => by rw [h]⟩
    have hNat := congrArg BitVec.toNat h
    rwa [BitVec.toNat_ofNat, BitVec.toNat_ofNat, Nat.mod_eq_of_lt hx, Nat.mod_eq_of_lt hy] at hNat
  have hMax {x : Nat} (hx : x < 2 ^ 32) : min longMax x = x := by
    rw [Nat.min_eq_right]
    simp only [longMax]
    omega
  have hLength : n.digits.length ≤ 32 := by
    have hText := n.length_le
    rw [List.length_append] at hText
    omega
  unfold Decimal.Regular
  split_ifs with hShort
  · rw [copyStr_eq (by omega)]
    by_cases hHead : n.digits.head? = some '0'
    · obtain ⟨hLe, hEq⟩ := octal_reading n.digits
      have hLess : strtolDigits 8 0 n.digits < 2 ^ 32 := Nat.lt_of_le_of_lt hLe hValue
      rw [strtol_leading_zero n.digits_mem hHead, hMax hLess, hWord hLess hValue]
      simp only [hHead, ne_eq, not_true, false_or]
      exact hEq
    · have hRead : strtol n.digits = n.value := by
        rw [strtol_dec n.digits_mem fun h => absurd h hHead]
        exact hMax hValue
      simp [hRead, hHead]
  · -- `str` has no room for the 32nd digit and its length wraps to zero
    have hFull : n.digits.length = 32 := by omega
    have hEmpty : copyStr n.digits = [] := by rw [copyStr, hFull]; rfl
    rw [hEmpty, show strtol [] = 0 by rfl, hWord (by decide) hValue]
    exact eq_comm

/-- **A decimal numeral evaluates to its value in base ten exactly where it is
regular.** -/
theorem decimal_evaluates_iff {σ : Type} (t : Target σ) (n : Decimal) (hValue : n.value < 2 ^ 32)
    (success : Bool) (s : σ) :
    makeToken n.text = .ok (some [⟨.dec, copyStr n.digits⟩]) ∧
      (expr t n.text success s = .ok ((BitVec.ofNat 32 n.value, success), s) ↔ n.Regular) := by
  refine ⟨makeToken_decimal n, ?_⟩
  rw [expr_decimal, ← strtol_decimal_iff n hValue]
  refine ⟨fun h => ?_, fun h => by rw [h]⟩
  exact (Prod.mk.inj (Prod.mk.inj (Except.ok.inj h)).1).1

theorem ten_digits_mem : ∀ c ∈ ['1', '0'], c ∈ decDigits :=
  List.forall_iff_forall_mem.1 (by decide)

theorem ten_length_le : (['1', '0'] ++ ['u']).length ≤ 32 := by decide

/-- `10u`. -/
def tenNumeral : Decimal := ⟨['1', '0'], true, List.cons_ne_nil _ _, ten_digits_mem, ten_length_le⟩

theorem decimal_evaluates_ten :
    expr tenfold tenNumeral.text true () = .ok ((10#32, true), ()) :=
  (decimal_evaluates_iff tenfold tenNumeral (by decide) true ()).2.2 (by decide)

theorem octal_digits_mem : ∀ c ∈ ['0', '1', '0'], c ∈ decDigits :=
  List.forall_iff_forall_mem.1 (by decide)

theorem octal_length_le : (['0', '1', '0'] ++ []).length ≤ 32 := by decide

/-- `010`. -/
def octalNumeral : Decimal :=
  ⟨['0', '1', '0'], false, List.cons_ne_nil _ _, octal_digits_mem, octal_length_le⟩

/-- `010` is ten in base ten and evaluates to eight. -/
theorem octal_evaluates_eight :
    octalNumeral.value = 10 ∧
      ¬ ∀ success, expr tenfold octalNumeral.text success () = .ok ((10#32, success), ()) := by
  refine ⟨by decide, fun h => ?_⟩
  have hRead := h true
  rw [expr_decimal] at hRead
  exact absurd (Prod.mk.inj (Prod.mk.inj (Except.ok.inj hRead)).1).1 (by decide)

end Riscv32.Sdb
