import Riscv32.Sdb.GenExpr
import Riscv32.Sdb.Evaluation
import Mathlib.Tactic.Ring

/-!
# The generator against the evaluator

A run of `gen_rand_expr` leaves the text of the tree that its random numbers
select and returns the tree's value.  `gen_num` prints no digit for 0, so a
tree with a surviving 0 leaves a bare `u` behind `(` or at the start, where no
rule matches; every other tree is printed as an expression.

Termination and the size of the buffer come out of the same induction: a call
adds at most seven characters and makes at most two calls while `cnt` is below 99
(`GenRun`, `exists_genRun`).

`generator_agrees` says that for every sequence the generator returns, and that
its text and its number agree exactly if the sequence selects a clean tree.
-/

namespace Riscv32.Sdb

open Riscv32.Rtl

/-! ## Digits -/

theorem iterate_div_ten (i num : Nat) : (· / 10)^[i] num = num / 10 ^ i := by
  induction i generalizing num with
  | zero => simp
  | succ i ih => rw [Function.iterate_succ_apply, ih, Nat.div_div_eq_div_mul, Nat.pow_succ']

/-- A digit fold from an accumulator. -/
theorem foldl_digits (base : Nat) (ds : List Char) (acc : Nat) :
    ds.foldl (fun acc c => base * acc + digitVal c) acc =
      acc * base ^ ds.length + digitsValue base ds := by
  induction ds generalizing acc with
  | nil => simp [digitsValue]
  | cons c ds ih =>
    rw [digitsValue, List.foldl_cons, List.foldl_cons, ih, ih, List.length_cons, Nat.pow_succ']
    ring

theorem digitVal_digit : ∀ d < 10, digitVal (Char.ofNat (d + 48)) = d := by decide

theorem digit_mem : ∀ d < 10, Char.ofNat (d + 48) ∈ decDigits := by decide

theorem digit_eq_zero : ∀ d < 10, Char.ofNat (d + 48) = '0' → d = 0 := by decide

@[simp] theorem length_genDigits (num k : Nat) : (genDigits num k).length = k := by
  induction k with
  | zero => rfl
  | succ k ih => simp [genDigits, ih]

/-- What `gen_num` writes are decimal digits. -/
theorem genDigits_mem (num k : Nat) : ∀ c ∈ genDigits num k, c ∈ decDigits := by
  induction k with
  | zero => simp [genDigits]
  | succ k ih =>
    intro c hc
    rcases List.mem_cons.1 hc with rfl | hc
    · exact digit_mem _ (Nat.mod_lt _ (by decide))
    · exact ih c hc

/-- The digits below `10 ^ k`. -/
theorem digitsValue_genDigits (num k : Nat) :
    digitsValue 10 (genDigits num k) = num % 10 ^ k := by
  induction k with
  | zero => simp [genDigits, digitsValue, Nat.mod_one]
  | succ k ih =>
    rw [digitsValue, genDigits, List.foldl_cons, foldl_digits, ih, length_genDigits,
      digitVal_digit _ (Nat.mod_lt _ (by decide)), iterate_div_ten, Nat.mod_pow_succ]
    ring

/-- The digit count is large enough. -/
theorem lt_cntNum (num : Nat) : num < 10 ^ cntNum num := by
  induction num using cntNum.induct with
  | case1 => simp [cntNum]
  | case2 num hNe ih =>
    rw [cntNum, if_neg hNe, Nat.pow_succ]
    omega

/-- And not too large: the first digit is not zero. -/
theorem cntNum_le {num : Nat} (hNe : num ≠ 0) :
    0 < cntNum num ∧ 10 ^ (cntNum num - 1) ≤ num := by
  induction num using cntNum.induct with
  | case1 => exact absurd rfl hNe
  | case2 num _ ih =>
    rw [cntNum, if_neg hNe, Nat.add_sub_cancel]
    refine ⟨Nat.succ_pos _, ?_⟩
    by_cases hZero : num / 10 = 0
    · rw [hZero, cntNum]
      simp
      omega
    · obtain ⟨hPos, hLe⟩ := ih hZero
      obtain ⟨k, hk⟩ := Nat.exists_eq_succ_of_ne_zero (Nat.ne_of_gt hPos)
      rw [hk, Nat.succ_sub_one] at hLe
      rw [hk, Nat.pow_succ]
      omega

theorem cntNum_le_six {num : Nat} (hLt : num < 1000000) : cntNum num ≤ 6 := by
  by_cases hNe : num = 0
  · rw [hNe, cntNum]
    simp
  · obtain ⟨-, hLe⟩ := cntNum_le hNe
    have hPow : 10 ^ (cntNum num - 1) < 10 ^ 6 := by omega
    have hExp := (Nat.pow_lt_pow_iff_right (by decide)).1 hPow
    omega

/-- The numeral of a number other than 0. -/
def drawNumeral (num : Nat) (hNe : num ≠ 0) (hLt : num < 1000000) : Numeral where
  radix := .decU
  digits := genDigits num (cntNum num)
  digits_ne := by
    have hLen := length_genDigits num (cntNum num)
    intro hNil
    rw [hNil, List.length_nil] at hLen
    exact absurd hLen (Nat.ne_of_lt (cntNum_le hNe).1)
  digits_mem := genDigits_mem num (cntNum num)
  head_ne := by
    intro _ hHead
    -- the first digit is `num / 10 ^ (cnt - 1)`, which is not 0
    obtain ⟨hPos, hLe⟩ := cntNum_le hNe
    obtain ⟨k, hk⟩ := Nat.exists_eq_succ_of_ne_zero (Nat.ne_of_gt hPos)
    have hUpper := lt_cntNum num
    rw [hk] at hLe hHead hUpper
    rw [Nat.succ_sub_one] at hLe
    rw [genDigits, List.head?_cons, Option.some.injEq, iterate_div_ten] at hHead
    have hZero := digit_eq_zero _ (Nat.mod_lt _ (by decide)) hHead
    have hDivLt : num / 10 ^ k < 10 := by
      rw [Nat.div_lt_iff_lt_mul (Nat.pow_pos (by decide))]
      rwa [Nat.pow_succ'] at hUpper
    rw [Nat.mod_eq_of_lt hDivLt, Nat.div_eq_zero_iff] at hZero
    have hPow : 0 < 10 ^ k := Nat.pow_pos (by decide)
    omega
  value_lt := by
    rw [show Radix.base .decU = 10 from rfl, digitsValue_genDigits,
      Nat.mod_eq_of_lt (lt_cntNum num)]
    omega
  length_le := by
    have hLen := cntNum_le_six hLt
    simp only [Radix.lead, Radix.trail, List.length_append, length_genDigits, List.length_nil,
      List.length_cons]
    omega

/-- The digits written denote the number drawn. -/
theorem drawNumeral_value {num : Nat} (hNe : num ≠ 0) (hLt : num < 1000000) :
    (drawNumeral num hNe hLt).value = num := by
  rw [Numeral.value, drawNumeral, show Radix.base .decU = 10 from rfl, digitsValue_genDigits,
    Nat.mod_eq_of_lt (lt_cntNum num)]

/-! ## A run and its tree -/

namespace Draw

/-- The text a tree is printed to; a zero divisor is replaced by `1`. -/
def text : Draw → List Char
  | num n => genDigits n (cntNum n) ++ ['u']
  | op o l r =>
    '(' :: (l.text ++ ')' :: o.char ::
      (if o = .div ∧ r.value = 0 then ['1'] else '(' :: (r.text ++ [')'])))

/-- The range of `rand()%1000000`. -/
def Small : Draw → Prop
  | num n => n < 1000000
  | op _ l r => l.Small ∧ r.Small

end Draw

section Run

variable (rand : Nat → Nat) {i c fuel : Nat} {buf : List Char}

/-- A character with room for it is written. -/
theorem gen_eq (i c : Nat) (ch : Char) (h : buf.length < bufSize) :
    GenState.gen ⟨i, buf, c⟩ ch = some ⟨i, buf ++ [ch], c⟩ := by
  rw [GenState.gen, if_pos h]

/-- A text with room for it is written. -/
theorem genAll_eq {text : List Char} (h : buf.length + text.length ≤ bufSize) :
    GenState.genAll ⟨i, buf, c⟩ text = some ⟨i, buf ++ text, c⟩ := by
  induction text generalizing buf with
  | nil => simp [GenState.genAll]
  | cons ch text ih =>
    rw [List.length_cons] at h
    have hStep : GenState.genAll ⟨i, buf ++ [ch], c⟩ text = _ := ih (by simp; omega)
    rw [GenState.genAll, List.foldlM_cons, gen_eq i c ch (by omega)]
    simpa [GenState.genAll] using hStep

theorem text_num_length {n : Nat} (h : n < 1000000) : (Draw.num n).text.length ≤ 7 := by
  have hLen := cntNum_le_six h
  simpa [Draw.text] using Nat.succ_le_succ hLen

/-- `gen_num` with room for the longest number. -/
theorem genNum_eq (h : buf.length + 7 ≤ bufSize) :
    genNum rand ⟨i, buf, c⟩ =
      some ((Draw.num (rand i % 1000000)).value,
        ⟨i + 1, buf ++ (Draw.num (rand i % 1000000)).text, c⟩) := by
  have hLen := cntNum_le_six (show rand i % 1000000 < 1000000 from Nat.mod_lt _ (by decide))
  simp only [genNum, GenState.choose]
  rw [genAll_eq (by rw [length_genDigits]; omega), Option.bind_eq_bind, Option.bind_some,
    gen_eq _ _ _ (by simp; omega)]
  simp [Draw.value, Draw.text]

/-- What a call of `gen_rand_expr` does: it reads the tree `d`, appends its text
and returns its value.  Every call adds at most 7 characters and makes at most
two calls while `cnt` is below 99. -/
structure GenRun (fuel i : Nat) (buf : List Char) (c : Nat) (d : Draw) (i' c' : Nat) : Prop where
  tree : drawTree rand fuel i c = some (d, i', c')
  run : genRandExpr rand fuel ⟨i, buf, c⟩ = some (d.value, ⟨i', buf ++ d.text, c'⟩)
  small : d.Small
  cnt_lt : c < c'
  cnt_le : c' + 2 * (99 - c') ≤ c + 2 * (99 - c) + 1
  text_le : d.text.length ≤ 7 * (c' - c)

/-- The room a call may need. -/
def Room (buf : List Char) (c : Nat) : Prop := buf.length + 7 * (2 * (99 - c) + 1) ≤ bufSize

/-- At the hundredth call a number is written whatever the choice. -/
theorem genRun_leaf (hCnt : ¬ c + 1 < 100) (hRoom : Room buf c) :
    GenRun rand (fuel + 1) i buf c (.num (rand i % 1000000)) (i + 1) (c + 1) := by
  have hLt : rand i % 1000000 < 1000000 := Nat.mod_lt _ (by decide)
  unfold Room at hRoom
  exact {
    tree := by rw [drawTree, if_neg hCnt]
    run := by
      simp only [genRandExpr, if_neg hCnt]
      exact genNum_eq rand (by omega)
    small := hLt
    cnt_lt := Nat.lt_succ_self _
    cnt_le := by omega
    text_le := by simpa using text_num_length hLt }

/-- The first choice: a number. -/
theorem genRun_num (hCnt : c + 1 < 100) (hChoice : rand i % 3 = 0) (hRoom : Room buf c) :
    GenRun rand (fuel + 1) i buf c (.num (rand (i + 1) % 1000000)) (i + 2) (c + 1) := by
  have hLt : rand (i + 1) % 1000000 < 1000000 := Nat.mod_lt _ (by decide)
  unfold Room at hRoom
  exact {
    tree := by simp only [drawTree, if_pos hCnt, hChoice]
    run := by
      simp only [genRandExpr, if_pos hCnt, GenState.choose, hChoice]
      exact genNum_eq rand (by omega)
    small := hLt
    cnt_lt := Nat.lt_succ_self _
    cnt_le := by omega
    text_le := by simpa using text_num_length hLt }

/-- The second: the same again in its own call. -/
theorem genRun_nested {d : Draw} {i' c' : Nat} (hCnt : c + 1 < 100) (hChoice : rand i % 3 = 1)
    (h : GenRun rand fuel (i + 1) buf (c + 1) d i' c') :
    GenRun rand (fuel + 1) i buf c d i' c' := by
  have hLt := h.cnt_lt
  have hLe := h.cnt_le
  have hText := h.text_le
  exact {
    tree := by simpa only [drawTree, if_pos hCnt, hChoice] using h.tree
    run := by simpa only [genRandExpr, if_pos hCnt, GenState.choose, hChoice] using h.run
    small := h.small
    cnt_lt := by omega
    cnt_le := by omega
    text_le := by omega }

theorem text_op_length (o : GenOp) (l r : Draw) :
    (Draw.op o l r).text.length ≤ l.text.length + r.text.length + 5 := by
  simp only [Draw.text]
  split <;> simp <;> omega

/-- The third: two operands in brackets around an operator. -/
theorem genRun_op {l r : Draw} {i₁ c₁ i₂ c₂ : Nat} (hCnt : c + 1 < 100)
    (hChoice : rand i % 3 = 2) (hRoom : Room buf c)
    (hl : GenRun rand fuel (i + 1) (buf ++ ['(']) (c + 1) l i₁ c₁)
    (hr : GenRun rand fuel (i₁ + 1)
      (buf ++ ['('] ++ l.text ++ [')'] ++ [(GenOp.ofChoice (rand i₁ % 4)).char] ++ ['(']) c₁
      r i₂ c₂) :
    GenRun rand (fuel + 1) i buf c (.op (GenOp.ofChoice (rand i₁ % 4)) l r) i₂ c₂ := by
  have hlLt := hl.cnt_lt
  have hlLe := hl.cnt_le
  have hlText := hl.text_le
  have hrLt := hr.cnt_lt
  have hrLe := hr.cnt_le
  have hrText := hr.text_le
  unfold Room at hRoom
  set o := GenOp.ofChoice (rand i₁ % 4) with ho
  exact {
    tree := by
      simp only [drawTree, if_pos hCnt, hChoice, hl.tree, hr.tree, Option.bind_eq_bind,
        Option.bind_some, ← ho]
    run := by
      simp only [genRandExpr, if_pos hCnt, GenState.choose, hChoice, genRandOp]
      rw [gen_eq _ _ _ (by omega), Option.bind_eq_bind, Option.bind_some, hl.run]
      simp only [Option.bind_eq_bind, Option.bind_some]
      rw [gen_eq _ _ _ (by simp; omega), Option.bind_some, ← ho,
        gen_eq _ _ _ (by simp; omega), Option.bind_some, Option.bind_some,
        gen_eq _ _ _ (by simp; omega), Option.bind_some, hr.run, Option.bind_some,
        gen_eq _ _ _ (by simp; omega), Option.bind_some]
      clear_value o
      cases o with
      | add | sub | mul => simp [Draw.value, Draw.text, GenOp.binOp, BinOp.apply]
      | div =>
        dsimp only
        by_cases hZero : r.value = 0
        · -- the divisor's text is cut off again
          have hTake (a b c d : List Char) : (a ++ b ++ c ++ d).take a.length = a := by simp
          rw [if_pos hZero, hTake, gen_eq _ _ _ (by simp; omega)]
          simp [Draw.value, Draw.text, GenOp.binOp, BinOp.apply, hZero]
        · rw [if_neg hZero]
          simp [Draw.value, Draw.text, GenOp.binOp, BinOp.apply, show ¬ r.value = 0#32 from hZero]
    small := ⟨hl.small, hr.small⟩
    cnt_lt := by omega
    cnt_le := by omega
    text_le := Nat.le_trans (text_op_length o l r) (by omega) }

/-- Every call returns, whatever the random numbers are. -/
theorem exists_genRun (hPos : 0 < fuel) (hFuel : 100 ≤ fuel + c) (hRoom : Room buf c) :
    ∃ d i' c', GenRun rand fuel i buf c d i' c' := by
  induction fuel generalizing i buf c with
  | zero => exact absurd hPos (Nat.lt_irrefl 0)
  | succ fuel ih =>
    by_cases hCnt : c + 1 < 100
    · have hChoice : rand i % 3 = 0 ∨ rand i % 3 = 1 ∨ rand i % 3 = 2 := by omega
      rcases hChoice with hChoice | hChoice | hChoice
      · exact ⟨_, _, _, genRun_num rand hCnt hChoice hRoom⟩
      · obtain ⟨d, i', c', h⟩ := @ih (i + 1) (c + 1) buf (by omega) (by omega)
          (by unfold Room at hRoom ⊢; omega)
        exact ⟨d, i', c', genRun_nested rand hCnt hChoice h⟩
      · obtain ⟨l, i₁, c₁, hl⟩ := @ih (i + 1) (c + 1) (buf ++ ['(']) (by omega) (by omega)
          (by unfold Room at hRoom ⊢; simp; omega)
        have hlLt := hl.cnt_lt
        have hlLe := hl.cnt_le
        have hlText := hl.text_le
        obtain ⟨r, i₂, c₂, hr⟩ := @ih (i₁ + 1) c₁
          (buf ++ ['('] ++ l.text ++ [')'] ++ [(GenOp.ofChoice (rand i₁ % 4)).char] ++ ['('])
          (by omega) (by omega) (by unfold Room at hRoom ⊢; simp; omega)
        exact ⟨_, i₂, c₂, genRun_op rand hCnt hChoice hRoom hl hr⟩
    · exact ⟨_, _, _, genRun_leaf rand hCnt hRoom⟩

/-- A run of `main` prints the tree of its random numbers and returns its value. -/
theorem generate_eq : ∃ d, drawn rand = some d ∧ generate rand = some (d.value, d.text) ∧
    d.Small ∧ d.text.length ≤ 1393 := by
  obtain ⟨d, i', c', h⟩ := @exists_genRun rand 0 0 100 [] (by decide) (by decide) (by
    unfold Room
    decide)
  refine ⟨d, ?_, ?_, h.small, ?_⟩
  · rw [drawn, h.tree]
    rfl
  · rw [generate, h.run]
    rfl
  · have hLe := h.cnt_le
    have hText := h.text_le
    omega

end Run

/-! ## Lengths of texts -/

theorem length_le_spell (gaps : List (Nat × Lexeme)) : gaps.length ≤ (spell gaps).length := by
  induction gaps with
  | nil => exact Nat.le_refl _
  | cons g gaps ih =>
    obtain ⟨n, l⟩ := g
    have hText := List.length_pos_of_ne_nil (text_ne_nil l)
    simp only [spell, List.length_append, List.length_cons]
    omega

/-- A text has at least as many characters as lexemes. -/
theorem length_le_of_spells {ls : List Lexeme} {text : List Char} (h : Spells ls text) :
    ls.length ≤ text.length := by
  obtain ⟨gaps, rfl, -, n, -, rfl⟩ := h
  have hLen := length_le_spell gaps
  rw [List.length_map, List.length_append]
  omega

/-! ## Clean trees print expressions -/

theorem op_text (o : GenOp) : (Lexeme.op o.binOp).text = [o.char] := by cases o <;> rfl

/-- `1`. -/
def oneNumeral : Numeral := digitNumeral .dec '1' one_mem_decDigits

theorem text_paren (e : Exp) :
    (Exp.paren e).lexemes.flatMap Lexeme.text =
      '(' :: (e.lexemes.flatMap Lexeme.text ++ [')']) := by
  simp [Exp.lexemes, Lexeme.text]

theorem text_bin (o : GenOp) (l r : Exp) :
    (Exp.bin o.binOp l r).lexemes.flatMap Lexeme.text =
      l.lexemes.flatMap Lexeme.text ++ o.char :: r.lexemes.flatMap Lexeme.text := by
  simp [Exp.lexemes, op_text]

/-- An operation with an unsigned operand and no zero divisor. -/
theorem cValue_bin (o : GenOp) {l r : Exp} {ur : Bool} {x y : Word}
    (hl : l.cValue = some (true, x)) (hr : r.cValue = some (ur, y))
    (hDiv : ¬ (o.binOp = .div ∧ y = 0)) :
    (Exp.bin o.binOp l r).cValue = some (true, o.binOp.apply x y) := by
  have hType : (o.binOp != .eq && o.binOp != .and) = true := by cases o <;> decide
  simp only [Exp.cValue, hl, hr, Option.bind_eq_bind, Option.bind_some, Bool.true_or,
    Bool.true_eq_false, false_or, if_neg hDiv, hType]

/-- The expression that the text of a clean tree is. -/
def Prints (d : Draw) (e : Exp) : Prop :=
  e.Grammatical ∧ e.lexemes.flatMap Lexeme.text = d.text ∧ e.cValue = some (true, d.value) ∧
    ∀ pc gpr, e.value pc gpr = d.value

/-- A number prints as its numeral. -/
theorem prints_num {n : Nat} (hNe : n ≠ 0) (hLt : n < 1000000) :
    Prints (.num n) (.num (drawNumeral n hNe hLt)) := by
  have hValue := drawNumeral_value hNe hLt
  refine ⟨trivial, ?_, ?_, ?_⟩
  · simp [Exp.lexemes, Lexeme.text, Numeral.text, drawNumeral, Radix.lead, Radix.trail, Draw.text]
  · simp only [Exp.cValue, hValue]
    rfl
  · intro pc gpr
    rw [Exp.value, hValue, Draw.value]

/-- A zero divisor was replaced by `1`. -/
theorem prints_zero_div {l r : Draw} {el : Exp} (hl : Prints l el) (hr : r.value = 0) :
    Prints (.op .div l r) (.bin .div (.paren el) (.num oneNumeral)) := by
  obtain ⟨hGram, hText, hC, hVal⟩ := hl
  have hOne : BitVec.ofNat 32 oneNumeral.value = 1#32 := by decide
  have hOneC : (Exp.num oneNumeral).cValue = some (false, 1#32) := by decide
  have hValue : (Draw.op .div l r).value = l.value := by
    simp [Draw.value, GenOp.binOp, BinOp.apply, hr]
  have hApply : BinOp.div.apply l.value 1#32 = l.value := by simp [BinOp.apply]
  refine ⟨⟨⟨hGram, Nat.le_of_ble_eq_true rfl⟩, trivial, Nat.le_of_ble_eq_true rfl⟩, ?_, ?_, ?_⟩
  · rw [show BinOp.div = GenOp.div.binOp from rfl, text_bin, text_paren, hText, Draw.text,
      if_pos ⟨rfl, hr⟩]
    simp [Exp.lexemes, Lexeme.text, Numeral.text, oneNumeral, digitNumeral, Radix.lead, Radix.trail]
  · rw [hValue, ← hApply]
    exact cValue_bin .div hC hOneC (by decide)
  · intro pc gpr
    rw [Exp.value, Exp.value, Exp.value, hVal, hOne, hApply, hValue]

/-- An operator prints as the bracketed expression, unless it divides by zero. -/
theorem prints_op {o : GenOp} {l r : Draw} {el er : Exp} (hl : Prints l el) (hr : Prints r er)
    (hDiv : ¬ (o = .div ∧ r.value = 0)) :
    Prints (.op o l r) (.bin o.binOp (.paren el) (.paren er)) := by
  obtain ⟨hlGram, hlText, hlC, hlVal⟩ := hl
  obtain ⟨hrGram, hrText, hrC, hrVal⟩ := hr
  have hLevel : o.binOp.level < 100 := by cases o <;> decide
  have hBin : o.binOp = .div → o = .div := by cases o <;> decide
  refine ⟨⟨⟨hlGram, hLevel.le⟩, hrGram, hLevel⟩, ?_, ?_, ?_⟩
  · rw [text_bin, text_paren, text_paren, hlText, hrText, Draw.text, if_neg hDiv]
    simp
  · exact cValue_bin o hlC hrC fun h => hDiv ⟨hBin h.1, h.2⟩
  · intro pc gpr
    rw [Exp.value, Exp.value, Exp.value, hlVal, hrVal, Draw.value]

/-- A clean draw prints as an expression. -/
theorem clean_prints {d : Draw} (hClean : d.Clean) (hSmall : d.Small) : ∃ e, Prints d e := by
  induction d with
  | num n => exact ⟨_, prints_num hClean hSmall⟩
  | op o l r ihl ihr =>
    obtain ⟨el, hl⟩ := ihl hClean.1 hSmall.1
    by_cases hZero : o = .div ∧ r.value = 0
    · obtain ⟨rfl, hr⟩ := hZero
      exact ⟨_, prints_zero_div hl hr⟩
    · obtain ⟨er, hr⟩ := ihr (hClean.2.resolve_right hZero) hSmall.2
      exact ⟨_, prints_op hl hr hZero⟩

/-! ## The other trees leave a bare suffix -/

/-- A surviving 0 is a `u` where an operand should start. -/
theorem unclean_text {d : Draw} (hClean : ¬ d.Clean) (hSmall : d.Small) :
    ∃ ls rest, d.text = ls.flatMap Lexeme.text ++ 'u' :: rest ∧ follow false ls = some false := by
  induction d with
  | num n =>
    obtain rfl : n = 0 := not_not.1 hClean
    exact ⟨[], [], by simp [Draw.text, cntNum, genDigits], rfl⟩
  | op o l r ihl ihr =>
    by_cases hl : l.Clean
    · have hr : ¬ (r.Clean ∨ o = .div ∧ r.value = 0) := fun hr => hClean ⟨hl, hr⟩
      rw [not_or] at hr
      obtain ⟨el, -, hlText, -, -⟩ := clean_prints hl hSmall.1
      obtain ⟨ls, rest, hText, hFollow⟩ := ihr hr.1 hSmall.2
      refine ⟨.lparen :: (el.lexemes ++ .rparen :: .op o.binOp :: .lparen :: ls),
        rest ++ [')'], ?_, ?_⟩
      · have hOp := op_text o
        rw [Draw.text, if_neg hr.2, hText]
        simp only [List.flatMap_cons, List.flatMap_append, hlText, hOp]
        simp [Lexeme.text]
      · simp [follow, follow_append, follow_lexemes, Lexeme.opens, Lexeme.closes, hFollow]
    · obtain ⟨ls, rest, hText, hFollow⟩ := ihl hl hSmall.1
      refine ⟨.lparen :: ls, rest ++ ')' :: o.char ::
        (if o = .div ∧ r.value = 0 then ['1'] else '(' :: (r.text ++ [')'])), ?_, ?_⟩
      · simp [Draw.text, hText, Lexeme.text]
      · simpa [follow, Lexeme.opens, Lexeme.closes] using hFollow

/-- No rule matches there. -/
theorem makeToken_bare {ls : List Lexeme} {rest : List Char}
    (hFollow : follow false ls = some false) (hFits : ls.length ≤ maxTokens) :
    makeToken (ls.flatMap Lexeme.text ++ 'u' :: rest) = .ok none := by
  have hNone : firstMatch rules ('u' :: rest) = none := firstMatch_eq_none (by decide)
  rw [makeToken, ← spell_tight, scan_spell (tight_le ls) ((map_snd_tight ls).symm ▸ hFollow)
    (fun h => by cases h) (fun h => by cases h) (by simpa [tight] using hFits), scan_none hNone]

/-! ## Agreement -/

/-- The text is a C expression with value `ret`, and `expr` returns `ret` for it. -/
def Agrees (text : List Char) (ret : Word) : Prop :=
  (∃ e : Expression, e.PrintsTo text ∧ e.tree.cValue = some (true, ret)) ∧
    ∀ {σ : Type} (t : Target σ) (s : σ), expr t text true s = .ok ((ret, true), s)

/-- And the debugger computes its value. -/
theorem agrees_of_clean {d : Draw} (hClean : d.Clean) (hSmall : d.Small)
    (hFits : d.text.length ≤ maxTokens) : Agrees d.text d.value := by
  obtain ⟨e, hGram, hText, hC, hVal⟩ := clean_prints hClean hSmall
  have hSpells : Spells e.lexemes d.text := hText ▸ spells_flatMap e.lexemes
  refine ⟨⟨⟨e, hGram⟩, hSpells, hC⟩, ?_⟩
  intro σ t s
  have hLen := length_le_of_spells hSpells
  rw [expr_spells t s hGram hSpells (by omega), hVal]

/-- The other direction: with a zero number in the text the scanner refuses it. -/
theorem clean_of_agrees {d : Draw} (hSmall : d.Small) (hFits : d.text.length ≤ maxTokens)
    (h : Agrees d.text d.value) : d.Clean := by
  by_contra hClean
  obtain ⟨⟨e, hPrint, -⟩, -⟩ := h
  obtain ⟨ls, rest, hText, hFollow⟩ := unclean_text hClean hSmall
  have hLen := length_le_of_spells (spells_flatMap ls)
  have hNone : makeToken d.text = .ok none := by
    rw [hText]
    refine makeToken_bare hFollow ?_
    rw [hText, List.length_append] at hFits
    omega
  have hLexemes := length_le_of_spells hPrint
  have hSome := makeToken_spells hPrint (follow_lexemes e.tree) (by omega)
  rw [hNone] at hSome
  cases hSome

/-- For every sequence of random numbers the generator returns, and its text and
its number agree exactly if the sequence selects a clean tree. -/
theorem generator_agrees (rand : Nat → Nat) :
    ∃ d ret text, drawn rand = some d ∧ generate rand = some (ret, text) ∧
      (Agrees text ret ↔ d.Clean) := by
  obtain ⟨d, hDrawn, hGenerate, hSmall, hLen⟩ := generate_eq rand
  have hFits : d.text.length ≤ maxTokens := Nat.le_trans hLen (by decide)
  exact ⟨d, d.value, d.text, hDrawn, hGenerate, clean_of_agrees hSmall hFits,
    fun hClean => agrees_of_clean hClean hSmall hFits⟩

/-- A draw of 0 alone leaves `u`. -/
theorem zero_draw_disagrees :
    ∃ ret text, generate (fun _ => 0) = some (ret, text) ∧ ¬ Agrees text ret := by
  obtain ⟨d, hDrawn, hGenerate, hSmall, hLen⟩ := generate_eq fun _ => 0
  have hZero : drawn (fun _ => 0) = some (.num 0) := by decide
  obtain rfl : d = .num 0 := Option.some.inj (hDrawn.symm.trans hZero)
  refine ⟨_, _, hGenerate, fun h => ?_⟩
  exact clean_of_agrees hSmall (Nat.le_trans hLen (by decide)) h rfl

end Riscv32.Sdb
