import Riscv32.Sdb.Scanning
import Riscv32.Sdb.Split

/-!
# Evaluating printed expressions

The grammar puts weaker operators and right operands of the same precedence in
parentheses, so `eval` splits the tokens of a tree where the tree splits and
comes to its value.

`Exp.shape` connects the trees with `Sdb.Split`, and `strtol_numeral` the numerals
with `strtol`; after that `eval_tokens` is an induction over the tree in which
each case is one split.

`expr_evaluates` is the result: every printed expression is scanned and evaluates
to its value, in any machine.
-/

namespace Riscv32.Sdb

open Riscv32.Rtl

/-- The tokens an expression is scanned into. -/
def Exp.tokens (e : Exp) : List Token := e.lexemes.map Lexeme.token

section Tokens

variable (n : Numeral) (i : Fin 31) (op : BinOp) (e l r : Exp)

@[simp] theorem tokens_num : (Exp.num n).tokens = [(Lexeme.num n).token] := rfl

@[simp] theorem tokens_pc : Exp.pc.tokens = [Lexeme.pc.token] := rfl

@[simp] theorem tokens_reg : (Exp.reg i).tokens = [(Lexeme.reg i).token] := rfl

@[simp] theorem tokens_paren :
    (Exp.paren e).tokens = Lexeme.lparen.token :: (e.tokens ++ [Lexeme.rparen.token]) := by
  simp [Exp.tokens, Exp.lexemes]

@[simp] theorem tokens_bin :
    (Exp.bin op l r).tokens = l.tokens ++ (Lexeme.op op).token :: r.tokens := by
  simp [Exp.tokens, Exp.lexemes]

end Tokens

theorem type_num (n : Numeral) :
    (Lexeme.num n).token.type = .dec ∨ (Lexeme.num n).token.type = .hex := by
  have hType : ∀ r : Radix, r.tokenType = .dec ∨ r.tokenType = .hex := by
    rintro (_ | _) <;> simp [Radix.tokenType]
  exact hType n.radix

/-- The precedence the debugger gives an operator is its level. -/
theorem prec_op (op : BinOp) : prec (Lexeme.op op).token.type = op.level := by
  cases op <;> rfl

theorem level_le_five (op : BinOp) : op.level ≤ 5 := by cases op <;> decide

/-- The tokens of a tree split where the tree does. -/
theorem Exp.shape {e : Exp} (hGram : e.Grammatical) : Shape e.level e.tokens := by
  induction e with
  | num n => exact .operand ((type_num n).imp_right .inl)
  | pc => exact .operand (.inr (.inr rfl))
  | reg i => exact .operand (.inr (.inr rfl))
  | paren e ih =>
    rw [tokens_paren]
    exact .paren rfl rfl (ih hGram)
  | bin op l r ihl ihr =>
    obtain ⟨⟨hl, hlLevel⟩, hr, hrLevel⟩ := hGram
    rw [← prec_op] at hlLevel hrLevel
    rw [tokens_bin, Exp.level, ← prec_op]
    exact .binary (prec_op op ▸ level_le_five op) (ihl hl) hlLevel (ihr hr) hrLevel

/-! ## Operands -/

/-- The digits' value, when every digit belongs to the base. -/
theorem strtolDigits_eq {base : Nat} {ds : List Char} (h : ∀ c ∈ ds, digitVal c < base)
    (acc : Nat) :
    strtolDigits base acc ds = ds.foldl (fun acc c => base * acc + digitVal c) acc := by
  induction ds generalizing acc with
  | nil => rfl
  | cons c ds ih =>
    rw [strtolDigits, if_pos (h c (by simp)), ih fun d hd => h d (by simp [hd])]
    rfl

theorem decDigits_lt : ∀ c ∈ decDigits, digitVal c < 10 :=
  List.forall_iff_forall_mem.1 (by decide)

theorem hexDigits_lt : ∀ c ∈ hexDigits, digitVal c < 16 :=
  List.forall_iff_forall_mem.1 (by decide)

/-- Base 0 reads a decimal numeral without leading zero in base 10. -/
theorem strtol_dec {ds : List Char} (hMem : ∀ c ∈ ds, c ∈ decDigits)
    (hHead : ds.head? = some '0' → ds.length = 1) :
    strtol ds = min longMax (digitsValue 10 ds) := by
  have hDigits := strtolDigits_eq (fun c hc => decDigits_lt c (hMem c hc)) 0
  unfold strtol
  split
  · simp at hHead
  · rename_i tail _
    have hTail : tail = [] := List.eq_nil_of_length_eq_zero (by simpa using hHead rfl)
    rw [hTail]
    rfl
  · rw [hDigits, digitsValue]

theorem strtol_hex {x : Char} {ds : List Char} (hx : x ∈ ['x', 'X']) (hNe : ds ≠ [])
    (hMem : ∀ c ∈ ds, c ∈ hexDigits) :
    strtol ('0' :: x :: ds) = min longMax (digitsValue 16 ds) := by
  obtain ⟨d, ds, rfl⟩ := List.exists_cons_of_ne_nil hNe
  have hDigits := strtolDigits_eq (fun c hc => hexDigits_lt c (hMem c hc)) 0
  have hx : x = 'x' ∨ x = 'X' := by simpa using hx
  simp only [strtol]
  rw [if_pos ⟨hx, hexDigits_lt d (hMem d (by simp))⟩, hDigits, digitsValue]

/-- A numeral's token has the numeral's value. -/
theorem strtol_numeral (n : Numeral) : strtol (Lexeme.num n).token.str = n.value := by
  have hMax : min longMax n.value = n.value := by
    have hLt := n.value_lt
    rw [Nat.min_eq_right]
    simp only [Numeral.value, longMax]
    omega
  rw [← hMax]
  obtain ⟨radix, ds, hNe, hMem, hHead, hLt, -⟩ := n
  cases radix with
  | dec => exact strtol_dec hMem (hHead rfl)
  | decU => exact strtol_dec hMem (hHead rfl)
  | hex => exact strtol_hex (by simp) hNe hMem
  | hexX => exact strtol_hex (by simp) hNe hMem

variable {σ : Type} (t : Target σ) (s : σ)

/-- A numeral evaluates to its value modulo `2 ^ 32`. -/
theorem single_num (n : Numeral) :
    t.single (Lexeme.num n).token s = BitVec.ofNat 32 n.value := by
  rw [← strtol_numeral]
  unfold Target.single
  rcases type_num n with h | h <;> rw [h]

theorem single_pc : t.single Lexeme.pc.token s = t.pc s := rfl

theorem single_reg (i : Fin 31) : t.single (Lexeme.reg i).token s = t.gpr s (i + 1) := by
  have hName : ∀ i : Fin 31, regName i ≠ ['p', 'c'] := by decide
  have hIdx : ∀ i : Fin 31, regs.findIdx? (· = regName i) = some (i.val + 1) := by decide
  simp [Target.single, Lexeme.token, hName i, hIdx i]

/-- The operators compute what they say. -/
theorem apply_op (op : BinOp) (x y : Word) :
    t.apply (Lexeme.op op).token.type x y s = .ok (op.apply x y, s) := by
  cases op with
  | div => by_cases h : y = 0 <;> simp [Target.apply, Lexeme.token, BinOp.tokenType, BinOp.apply, h]
  | add | sub | mul | eq | and => rfl

/-! ## Trees -/

/-- `eval` on the tokens of a tree. -/
theorem eval_tokens {e : Exp} (hGram : e.Grammatical) :
    eval t e.tokens s = .ok (e.value (t.pc s) (t.gpr s), s) := by
  induction e with
  | num n => rw [tokens_num, eval_singleton, single_num, Exp.value]
  | pc => rw [tokens_pc, eval_singleton, single_pc, Exp.value]
  | reg i => rw [tokens_reg, eval_singleton, single_reg, Exp.value]
  | paren e ih =>
    rw [tokens_paren, eval_paren t s rfl rfl (Exp.shape (e := e) hGram), ih hGram, Exp.value]
  | bin op l r ihl ihr =>
    obtain ⟨⟨hl, hlLevel⟩, hr, hrLevel⟩ := hGram
    rw [← prec_op] at hlLevel hrLevel
    rw [tokens_bin, eval_binary t s (prec_op op ▸ level_le_five op) (Exp.shape hl) hlLevel
      (Exp.shape hr) hrLevel, ihl hl]
    simp only [Except.bind, ihr hr, apply_op, Exp.value]

/-- `expr` where scanning succeeds. -/
theorem expr_of_makeToken {text : List Char} {tokens : List Token}
    (h : makeToken text = .ok (some tokens)) (success : Bool) :
    expr t text success s = (eval t tokens s).map fun r => ((r.1, success), r.2) := by
  rw [expr, h]
  simp only [bind, Except.bind]
  cases eval t tokens s <;> rfl

/-- A printed tree goes through `expr` with its own value. -/
theorem expr_spells {e : Exp} (hGram : e.Grammatical) {text : List Char}
    (hSpells : Spells e.lexemes text) (hFits : e.lexemes.length ≤ maxTokens) (success : Bool) :
    expr t text success s = .ok ((e.value (t.pc s) (t.gpr s), success), s) := by
  have hTokens := makeToken_spells hSpells (follow_lexemes e) hFits
  rw [expr_of_makeToken t s hTokens, show e.lexemes.map Lexeme.token = e.tokens from rfl,
    eval_tokens t s hGram]
  rfl

/-- Every printed expression is scanned and evaluates to its value, in any machine. -/
theorem expr_evaluates (e : Expression) (text : List Char) (hPrint : e.PrintsTo text)
    (hFits : e.Fits) :
    ∃ tokens, makeToken text = .ok (some tokens) ∧
      eval t tokens s = .ok (e.tree.value (t.pc s) (t.gpr s), s) ∧
      ∀ success, expr t text success s = .ok ((e.tree.value (t.pc s) (t.gpr s), success), s) :=
  ⟨e.tree.tokens, makeToken_spells hPrint (follow_lexemes e.tree) hFits,
    eval_tokens t s e.grammatical, expr_spells t s e.grammatical hPrint hFits⟩

/-- A machine for evaluating by hand: register `i` holds `10 * i`. -/
def tenfold : Target Unit where
  pc _ := 0x80000000#32
  gpr _ i := BitVec.ofNat 32 (10 * i)
  load _ _ := .error .access

/-- A one-digit numeral. -/
def digitNumeral (radix : Radix) (c : Char) (h : c ∈ decDigits) : Numeral where
  radix := radix
  digits := [c]
  digits_ne := by simp
  digits_mem := by
    have hSub : ∀ r : Radix, ∀ c ∈ decDigits, c ∈ r.alphabet := by
      rintro (_ | _) <;> exact List.forall_iff_forall_mem.1 (by decide)
    intro d hd
    exact List.mem_singleton.1 hd ▸ hSub radix c h
  head_ne _ _ := rfl
  value_lt := by
    have hVal := decDigits_lt c h
    simp only [digitsValue, List.foldl_cons, List.foldl_nil]
    omega
  length_le := by cases radix <;> simp [Radix.lead, Radix.trail]

theorem zero_mem_decDigits : '0' ∈ decDigits := by decide

theorem one_mem_decDigits : '1' ∈ decDigits := by decide

theorem two_mem_decDigits : '2' ∈ decDigits := by decide

theorem three_mem_decDigits : '3' ∈ decDigits := by decide

/-- `(1) + (0x2)/0u == $ra - 7 && ($pc)`. -/
def sampleExpression : Expression where
  tree :=
    .bin .and
      (.bin .eq
        (.bin .add (.paren (.num (digitNumeral .dec '1' (by decide))))
          (.bin .div (.paren (.num (digitNumeral .hex '2' (by decide))))
            (.num (digitNumeral .decU '0' (by decide)))))
        (.bin .sub (.reg 0) (.num (digitNumeral .dec '7' (by decide)))))
      (.paren .pc)
  grammatical := by simp [Exp.Grammatical, Exp.level, BinOp.level]

/-- Its text. -/
def sampleText : List Char :=
  ['(', '1', ')', ' ', '+', ' ', '(', '0', 'x', '2', ')', '/', '0', 'u', ' ', '=', '=', ' ',
   '$', 'r', 'a', ' ', '-', ' ', '7', ' ', '&', '&', ' ', '(', '$', 'p', 'c', ')']

theorem sampleExpression_printsTo : sampleExpression.PrintsTo sampleText :=
  ⟨[0, 0, 0, 1, 1, 0, 0, 0, 0, 1, 1, 1, 1, 1, 1, 0, 0].zip sampleExpression.tree.lexemes,
    rfl, by decide, 0, by decide, rfl⟩

theorem sampleExpression_fits : sampleExpression.Fits := by
  unfold Expression.Fits
  decide

/-- A sentence with all four operators, blanks, both radices, a register and `$pc`. -/
theorem expr_evaluates_sample :
    sampleExpression.PrintsTo sampleText ∧ sampleExpression.Fits ∧
      ∃ tokens, makeToken sampleText = .ok (some tokens) ∧
        eval tenfold tokens () = .ok (1, ()) ∧
        ∀ success, expr tenfold sampleText success () = .ok ((1, success), ()) :=
  ⟨sampleExpression_printsTo, sampleExpression_fits,
    expr_evaluates tenfold () sampleExpression sampleText sampleExpression_printsTo
      sampleExpression_fits⟩

end Riscv32.Sdb
