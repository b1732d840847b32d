import Riscv32.Sdb.Expression

/-!
# Scanning printed expressions

`make_token` on a printed expression stores one token for each lexeme, in
order.  A number or a register ends where its rule's letters end, so what
follows an operand must not start with one of them; a `*` multiplies because
an operand stands before it.  Both come from the alternation of operands and
operators, which `follow` checks.

The rules are tried in order, and the first match wins: `firstMatch_at` is the one
lemma about this order, and each kind of lexeme has its own on top of it.

## Main results

* `firstMatch_lexeme` — every lexeme is found by its own rule and scanned whole.
* `scan_spell`, `makeToken_spells` — the text of a lexeme list is scanned to its
  tokens.
-/

namespace Riscv32.Sdb

open Riscv32.Data

/-! ## The words of the rules -/

/-- The letters of numbers and registers. -/
def wordChars : List Char := '$' :: (letters ++ decDigits)

/-- `rest` does not go on with a number or a register. -/
def Delimited (rest : List Char) : Prop := ∀ c, rest.head? = some c → c ∉ wordChars

/-- The words of the hexadecimal rule, spelled out. -/
theorem mem_hexRule {w : List Char} :
    w ∈ hexRule.matches' ↔
      ∃ x ∈ ['x', 'X'], ∃ ds, ds ≠ [] ∧ (∀ c ∈ ds, c ∈ hexDigits) ∧ w = '0' :: x :: ds := by
  simp only [hexRule, RegularExpression.matches'_mul, Language.mem_mul, Regex.mem_lit,
    Regex.mem_cls, Regex.mem_many]
  constructor
  · rintro ⟨_, rfl, _, ⟨_, ⟨x, hx, rfl⟩, ds, ⟨hNe, hAll⟩, rfl⟩, rfl⟩
    exact ⟨x, hx, ds, hNe, hAll, rfl⟩
  · rintro ⟨x, hx, ds, hNe, hAll, rfl⟩
    exact ⟨['0'], rfl, x :: ds, ⟨[x], ⟨x, hx, rfl⟩, ds, ⟨hNe, hAll⟩, rfl⟩, rfl⟩

/-- The words of the decimal rule; a `u` may follow. -/
theorem mem_decRule {w : List Char} :
    w ∈ decRule.matches' ↔
      ∃ ds, ds ≠ [] ∧ (∀ c ∈ ds, c ∈ decDigits) ∧ (w = ds ∨ w = ds ++ ['u']) := by
  simp only [decRule, RegularExpression.matches'_mul, Language.mem_mul, Regex.mem_many,
    Regex.mem_between (Nat.zero_le 1)]
  constructor
  · rintro ⟨ds, ⟨hNe, hAll⟩, u, ⟨⟨-, hLen⟩, hu⟩, rfl⟩
    refine ⟨ds, hNe, hAll, ?_⟩
    match u, hLen, hu with
    | [], _, _ => exact .inl (List.append_nil ds)
    | [c], _, hu => exact .inr (by rw [List.mem_singleton.1 (hu c (by simp))])
    | _ :: _ :: _, hLen, _ => simp at hLen
  · rintro ⟨ds, hNe, hAll, rfl | rfl⟩
    · exact ⟨w, ⟨hNe, hAll⟩, [], by simp, by simp⟩
    · exact ⟨ds, ⟨hNe, hAll⟩, ['u'], by simp, rfl⟩

/-- The words of the register rule. -/
theorem mem_regRule {w : List Char} :
    w ∈ regRule.matches' ↔
      ∃ ls ds, ((1 ≤ ls.length ∧ ls.length ≤ 2) ∧ ∀ c ∈ ls, c ∈ letters) ∧
        (ds.length ≤ 2 ∧ ∀ c ∈ ds, c ∈ decDigits) ∧ w = '$' :: (ls ++ ds) := by
  simp only [regRule, RegularExpression.matches'_mul, Language.mem_mul, Regex.mem_lit,
    Regex.mem_between (show 1 ≤ 2 by omega), Regex.mem_between (Nat.zero_le 2)]
  constructor
  · rintro ⟨_, rfl, _, ⟨ls, hls, ds, ⟨⟨-, hLen⟩, hds⟩, rfl⟩, rfl⟩
    exact ⟨ls, ds, hls, ⟨hLen, hds⟩, rfl⟩
  · rintro ⟨ls, ds, hls, ⟨hLen, hds⟩, rfl⟩
    exact ⟨['$'], rfl, ls ++ ds, ⟨ls, hls, ds, ⟨⟨Nat.zero_le _, hLen⟩, hds⟩, rfl⟩, rfl⟩

theorem decDigits_wordChars : ∀ c ∈ decDigits, c ∈ wordChars :=
  List.forall_iff_forall_mem.1 (by decide)

theorem hexDigits_wordChars : ∀ c ∈ hexDigits, c ∈ wordChars :=
  List.forall_iff_forall_mem.1 (by decide)

theorem letters_wordChars : ∀ c ∈ letters, c ∈ wordChars :=
  List.forall_iff_forall_mem.1 (by decide)

theorem hexMark_wordChars : ∀ c ∈ ['x', 'X'], c ∈ wordChars :=
  List.forall_iff_forall_mem.1 (by decide)

/-- A hexadecimal word holds word characters only, so a delimiter ends it. -/
theorem hexRule_wordChars : ∀ w ∈ hexRule.matches', ∀ c ∈ w, c ∈ wordChars := by
  intro w hw c hc
  obtain ⟨x, hx, ds, -, hAll, rfl⟩ := mem_hexRule.1 hw
  rcases List.mem_cons.1 hc with rfl | hc
  · decide
  rcases List.mem_cons.1 hc with rfl | hc
  · exact hexMark_wordChars c hx
  · exact hexDigits_wordChars c (hAll c hc)

theorem decRule_wordChars : ∀ w ∈ decRule.matches', ∀ c ∈ w, c ∈ wordChars := by
  intro w hw c hc
  obtain ⟨ds, -, hAll, rfl | rfl⟩ := mem_decRule.1 hw
  · exact decDigits_wordChars c (hAll c hc)
  · rcases List.mem_append.1 hc with hc | hc
    · exact decDigits_wordChars c (hAll c hc)
    · rw [List.mem_singleton.1 hc]
      decide

theorem regRule_wordChars : ∀ w ∈ regRule.matches', ∀ c ∈ w, c ∈ wordChars := by
  intro w hw c hc
  obtain ⟨ls, ds, ⟨-, hls⟩, ⟨-, hds⟩, rfl⟩ := mem_regRule.1 hw
  rcases List.mem_cons.1 hc with rfl | hc
  · decide
  rcases List.mem_append.1 hc with hc | hc
  · exact letters_wordChars c (hls c hc)
  · exact decDigits_wordChars c (hds c hc)

/-! ## Which rule matches -/

/-- The characters a rule's words start with. -/
def heads : TokenType → List Char
  | .hex => ['0']
  | .dec => decDigits
  | .notype => [' ']
  | .plus => ['+']
  | .minus => ['-']
  | .times => ['*']
  | .divide => ['/']
  | .lparen => ['(']
  | .rparen => [')']
  | .eq => ['=']
  | .le => ['<']
  | .ge => ['>']
  | .lt => ['>']
  | .gt => ['<']
  | .and => ['&']
  | .dollar => ['$']
  | .deref => []

theorem lit_head {c : Char} {v : List Char} :
    ∀ w ∈ (Regex.lit (c :: v)).matches', ∃ d ∈ [c], w.head? = some d := by
  intro w hw
  rw [Regex.mem_lit.1 hw]
  exact ⟨c, by simp, rfl⟩

theorem many_head {cs : List Char} :
    ∀ w ∈ (Regex.many cs).matches', ∃ d ∈ cs, w.head? = some d := by
  intro w hw
  obtain ⟨hNe, hAll⟩ := Regex.mem_many.1 hw
  obtain ⟨c, w, rfl⟩ := List.exists_cons_of_ne_nil hNe
  exact ⟨c, hAll c (by simp), rfl⟩

theorem hexRule_head : ∀ w ∈ hexRule.matches', ∃ d ∈ ['0'], w.head? = some d := by
  intro w hw
  obtain ⟨x, -, ds, -, -, rfl⟩ := mem_hexRule.1 hw
  exact ⟨'0', by simp, rfl⟩

theorem decRule_head : ∀ w ∈ decRule.matches', ∃ d ∈ decDigits, w.head? = some d := by
  intro w hw
  obtain ⟨ds, hNe, hAll, hw⟩ := mem_decRule.1 hw
  obtain ⟨c, ds, rfl⟩ := List.exists_cons_of_ne_nil hNe
  refine ⟨c, hAll c (by simp), ?_⟩
  rcases hw with rfl | rfl <;> rfl

theorem regRule_head : ∀ w ∈ regRule.matches', ∃ d ∈ ['$'], w.head? = some d := by
  intro w hw
  obtain ⟨ls, ds, -, -, rfl⟩ := mem_regRule.1 hw
  exact ⟨'$', by simp, rfl⟩

/-- With which characters a word of each rule can begin. -/
theorem rules_head :
    ∀ r ∈ rules, ∀ w ∈ r.1.matches', ∃ d ∈ heads r.2, w.head? = some d := by
  simp only [rules, List.forall_mem_cons, heads]
  refine ⟨hexRule_head, decRule_head, many_head, lit_head, lit_head, lit_head, lit_head,
    lit_head, lit_head, lit_head, lit_head, lit_head, lit_head, lit_head, lit_head,
    regRule_head, ?_⟩
  simp

/-- No rule starts with `c`. -/
theorem firstMatch_eq_none {c : Char} {cs : List Char} (hc : ∀ r ∈ rules, c ∉ heads r.2) :
    firstMatch rules (c :: cs) = none := by
  rw [firstMatch, List.findSome?_eq_none_iff]
  intro r hr
  rw [Regex.longest_eq_none_of_head (rules_head r hr) (hc r hr), Option.map_none]

/-- The rule behind `pre` matches and no rule of `pre` does. -/
theorem firstMatch_append {pre post : List (RegularExpression Char × TokenType)}
    {r : RegularExpression Char} {ty : TokenType} {e : List Char} {n : Nat}
    (hPre : ∀ x ∈ pre, Regex.longest x.1 e = none) (hr : Regex.longest r e = some n) :
    firstMatch (pre ++ (r, ty) :: post) e = some (ty, n) := by
  have hNone : pre.findSome? (fun x => (Regex.longest x.1 e).map fun n => (x.2, n)) = none := by
    rw [List.findSome?_eq_none_iff]
    intro x hx
    rw [hPre x hx, Option.map_none]
  simp [firstMatch, List.findSome?_append, hNone, hr]

/-- The `k`-th rule matches and its first character keeps the rules before it out. -/
theorem firstMatch_at (k : Nat) {r : RegularExpression Char} {ty : TokenType} {c : Char}
    {cs : List Char} {n : Nat} (hRules : rules = rules.take k ++ (r, ty) :: rules.drop (k + 1))
    (hPre : ∀ x ∈ rules.take k, c ∉ heads x.2) (hr : Regex.longest r (c :: cs) = some n) :
    firstMatch rules (c :: cs) = some (ty, n) := by
  rw [hRules]
  refine firstMatch_append (fun x hx => ?_) hr
  exact Regex.longest_eq_none_of_head (rules_head x (List.mem_of_mem_take hx)) (hPre x hx)

/-! ## Lexemes -/

def BinOp.tokenType : BinOp → TokenType
  | .add => .plus
  | .sub => .minus
  | .mul => .times
  | .div => .divide
  | .eq => .eq
  | .and => .and

def Radix.tokenType : Radix → TokenType
  | .dec | .decU => .dec
  | .hex | .hexX => .hex

/-- The token a lexeme is stored as. -/
def Lexeme.token : Lexeme → Token
  | num n => ⟨n.radix.tokenType, n.radix.lead ++ n.digits⟩
  | pc => ⟨.dollar, ['$', 'p', 'c']⟩
  | reg i => ⟨.dollar, '$' :: regName i⟩
  | op o => ⟨o.tokenType, []⟩
  | lparen => ⟨.lparen, []⟩
  | rparen => ⟨.rparen, []⟩

/-- An operand may start here. -/
def Lexeme.opens : Lexeme → Bool
  | num _ | pc | reg _ | lparen => true
  | op _ | rparen => false

/-- An operand may end here. -/
def Lexeme.closes : Lexeme → Bool
  | num _ | pc | reg _ | rparen => true
  | op _ | lparen => false

/-- Whether an operand has just ended behind the lexemes; `none` if operands
and operators do not alternate. -/
def follow : Bool → List Lexeme → Option Bool
  | st, [] => some st
  | st, l :: ls => if l.opens = !st then follow l.closes ls else none

/-- What may follow what, over two lists. -/
theorem follow_append (st : Bool) (ls ls' : List Lexeme) :
    follow st (ls ++ ls') = (follow st ls).bind fun st => follow st ls' := by
  induction ls generalizing st with
  | nil => rfl
  | cons l ls ih =>
    simp only [List.cons_append, follow]
    split
    · exact ih l.closes
    · rfl

/-- An expression is one operand. -/
theorem follow_lexemes (e : Exp) : follow false e.lexemes = some true := by
  induction e with
  | num n => rfl
  | pc => rfl
  | reg i => rfl
  | paren e ih => simp [Exp.lexemes, follow, Lexeme.opens, Lexeme.closes, follow_append, ih]
  | bin op l r ihl ihr =>
    simp [Exp.lexemes, follow, Lexeme.opens, Lexeme.closes, follow_append, ihl, ihr]

/-! ## One lexeme -/

/-- A literal rule is the first to match where none before it can begin so. -/
theorem firstMatch_lit (k : Nat) {w : List Char} {ty : TokenType} {c : Char} (rest : List Char)
    (hRules : rules = rules.take k ++ (Regex.lit (c :: w), ty) :: rules.drop (k + 1))
    (hPre : ∀ x ∈ rules.take k, c ∉ heads x.2) :
    firstMatch rules (c :: w ++ rest) = some (ty, (c :: w).length) :=
  firstMatch_at k hRules hPre (Regex.longest_lit (c :: w) rest)

/-- So it is for the operators. -/
theorem firstMatch_op (o : BinOp) (rest : List Char) :
    firstMatch rules (o.text ++ rest) = some (o.tokenType, o.text.length) := by
  cases o with
  | add => exact firstMatch_lit 3 rest rfl (by decide)
  | sub => exact firstMatch_lit 4 rest rfl (by decide)
  | mul => exact firstMatch_lit 5 rest rfl (by decide)
  | div => exact firstMatch_lit 6 rest rfl (by decide)
  | eq => exact firstMatch_lit 9 rest rfl (by decide)
  | and => exact firstMatch_lit 14 rest rfl (by decide)

/-- The rule of registers ends in front of a delimiter. -/
theorem firstMatch_dollar {w rest : List Char} (hw : '$' :: w ∈ regRule.matches')
    (hRest : Delimited rest) :
    firstMatch rules ('$' :: w ++ rest) = some (.dollar, ('$' :: w).length) :=
  firstMatch_at 15 rfl (by decide) (Regex.longest_of_delimited rest hw regRule_wordChars hRest)

/-- A hexadecimal numeral is matched to its end, before the decimal rule can take its
zero. -/
theorem firstMatch_hex {w rest : List Char} (hw : '0' :: w ∈ hexRule.matches')
    (hRest : Delimited rest) :
    firstMatch rules ('0' :: w ++ rest) = some (.hex, ('0' :: w).length) :=
  firstMatch_at 0 rfl (by decide) (Regex.longest_of_delimited rest hw hexRule_wordChars hRest)

/-- A decimal numeral is no hexadecimal one: behind a leading zero there is no `x`. -/
theorem longest_hexRule_dec {c : Char} {w rest : List Char} (hZero : c = '0' → w = [] ∨ w = ['u'])
    (hRest : Delimited rest) : Regex.longest hexRule (c :: w ++ rest) = none := by
  refine Regex.longest_eq_none fun m hm => ?_
  obtain ⟨x, hx, ds, -, -, hEq⟩ := mem_hexRule.1 hm
  have hPre : '0' :: x :: ds <+: c :: (w ++ rest) := hEq ▸ List.take_prefix m _
  rw [List.cons_prefix_cons] at hPre
  obtain ⟨rfl, tail, hTail⟩ := hPre
  rcases hZero rfl with rfl | rfl
  · exact hRest x (congrArg List.head? hTail).symm
      (hexMark_wordChars x hx)
  · simp only [List.cons_append, List.nil_append, List.cons.injEq] at hTail
    rw [hTail.1] at hx
    exact absurd hx (by decide)

/-- A decimal numeral is matched to its end. -/
theorem firstMatch_dec {c : Char} {w rest : List Char} (hw : c :: w ∈ decRule.matches')
    (hZero : c = '0' → w = [] ∨ w = ['u']) (hRest : Delimited rest) :
    firstMatch rules (c :: w ++ rest) = some (.dec, (c :: w).length) := by
  have hRules : rules = rules.take 1 ++ (decRule, .dec) :: rules.drop 2 := rfl
  rw [hRules]
  refine firstMatch_append (fun x hx => ?_)
    (Regex.longest_of_delimited rest hw decRule_wordChars hRest)
  rw [List.mem_singleton.1 hx]
  exact longest_hexRule_dec hZero hRest

/-- The register rule covers every name of the table. -/
theorem regName_mem_regRule : ∀ i : Fin 31, '$' :: regName i ∈ regRule.matches' := by decide

/-- A numeral is scanned whole, by the rule of its radix. -/
theorem firstMatch_numeral (n : Numeral) {rest : List Char} (hRest : Delimited rest) :
    firstMatch rules (n.text ++ rest) = some (n.radix.tokenType, n.text.length) := by
  obtain ⟨radix, digits, hNe, hMem, hHead, -, -⟩ := n
  obtain ⟨c, ds, rfl⟩ := List.exists_cons_of_ne_nil hNe
  have hZero (hBase : radix.base = 10) (hc : c = '0') : ds = [] := by
    have hLen := hHead hBase (by rw [hc]; rfl)
    exact List.eq_nil_of_length_eq_zero (by simpa using hLen)
  cases radix with
  | dec =>
    simp only [Numeral.text, Radix.lead, Radix.trail, List.nil_append, List.append_nil]
    exact firstMatch_dec (mem_decRule.2 ⟨_, hNe, hMem, .inl rfl⟩)
      (fun hc => .inl (hZero rfl hc)) hRest
  | decU =>
    simp only [Numeral.text, Radix.lead, Radix.trail, List.nil_append, List.cons_append]
    exact firstMatch_dec (mem_decRule.2 ⟨_, hNe, hMem, .inr rfl⟩)
      (fun hc => .inr (by simp [hZero rfl hc])) hRest
  | hex =>
    simp only [Numeral.text, Radix.lead, Radix.trail, List.append_nil]
    exact firstMatch_hex (mem_hexRule.2 ⟨'x', by simp, _, hNe, hMem, rfl⟩) hRest
  | hexX =>
    simp only [Numeral.text, Radix.lead, Radix.trail, List.append_nil]
    exact firstMatch_hex (mem_hexRule.2 ⟨'X', by simp, _, hNe, hMem, rfl⟩) hRest

/-- A text under 32 characters is copied whole. -/
theorem copyStr_eq {text : List Char} (h : text.length < 32) : copyStr text = text := by
  rw [copyStr, Nat.mod_eq_of_lt h, List.take_length]

/-- A numeral is recorded with its text. -/
theorem recordToken_numeral (n : Numeral) (tokens : List Token) :
    recordToken tokens n.radix.tokenType n.text = some (Lexeme.num n).token := by
  obtain ⟨radix, digits, hNe, hMem, -, -, hLen⟩ := n
  have hDigits : digits.length < 32 := by
    simp only [List.length_append] at hLen
    omega
  cases radix with
  | dec =>
    -- the last character is a digit, so no suffix is cut off
    have hLast : digits.getLast? ≠ some 'u' := by
      intro hLast
      exact absurd (hMem 'u' (List.mem_of_getLast? hLast)) (by decide)
    simp [recordToken, Radix.tokenType, Numeral.text, Radix.lead, Radix.trail, Lexeme.token,
      hLast, copyStr_eq hDigits]
  | decU =>
    simp [recordToken, Radix.tokenType, Numeral.text, Radix.lead, Radix.trail, Lexeme.token,
      copyStr_eq hDigits]
  | hex =>
    have hStr := copyStr_eq (Nat.lt_succ_of_le hLen)
    simp only [recordToken, Radix.tokenType, Numeral.text, Lexeme.token, hStr]
    simp [Radix.trail]
  | hexX =>
    have hStr := copyStr_eq (Nat.lt_succ_of_le hLen)
    simp only [recordToken, Radix.tokenType, Numeral.text, Lexeme.token, hStr]
    simp [Radix.trail]

def Lexeme.tokenType : Lexeme → TokenType
  | num n => n.radix.tokenType
  | pc | reg _ => .dollar
  | op o => o.tokenType
  | lparen => .lparen
  | rparen => .rparen

/-- Every lexeme is found by its own rule and scanned whole. -/
theorem firstMatch_lexeme (l : Lexeme) {rest : List Char}
    (hRest : l.closes = true → Delimited rest) :
    firstMatch rules (l.text ++ rest) = some (l.tokenType, l.text.length) := by
  cases l with
  | num n => exact firstMatch_numeral n (hRest rfl)
  | pc => exact firstMatch_dollar (by decide) (hRest rfl)
  | reg i => exact firstMatch_dollar (regName_mem_regRule i) (hRest rfl)
  | op o => exact firstMatch_op o rest
  | lparen => exact firstMatch_lit 7 rest rfl (by decide)
  | rparen => exact firstMatch_lit 8 rest rfl (by decide)

/-- A lexeme is recorded as its token; an operator only behind an operand. -/
theorem recordToken_lexeme (l : Lexeme) {tokens : List Token}
    (hDeref : l.opens = false → isDeref tokens = false) :
    recordToken tokens l.tokenType l.text = some l.token := by
  cases l with
  | num n => exact recordToken_numeral n tokens
  | pc => rfl
  | reg i =>
    have hName : ∀ i : Fin 31, copyStr ('$' :: regName i) = '$' :: regName i := by decide
    simp [Lexeme.tokenType, Lexeme.text, recordToken, Lexeme.token, hName i]
  | op o =>
    cases o with
    | mul => simp [Lexeme.tokenType, BinOp.tokenType, recordToken, Lexeme.token, hDeref rfl]
    | add | sub | div | eq | and => rfl
  | lparen => rfl
  | rparen => rfl

theorem text_length_le (l : Lexeme) : l.text.length ≤ 32 := by
  cases l with
  | num n => exact Nat.le_succ_of_le n.length_le
  | pc => decide
  | reg i => exact (show ∀ i : Fin 31, ('$' :: regName i).length ≤ 32 by decide) i
  | op o => cases o <;> decide
  | lparen => decide
  | rparen => decide

/-! ## Whole texts -/

theorem scan_nil (tokens : List Token) : scan [] tokens = .ok (some tokens) := by
  rw [scan, if_pos rfl]

/-- A text that no rule matches is not accepted. -/
theorem scan_none {c : Char} {cs : List Char} (h : firstMatch rules (c :: cs) = none)
    (tokens : List Token) : scan (c :: cs) tokens = .ok none := by
  rw [scan, if_neg (List.cons_ne_nil c cs)]
  split
  next => rfl
  next hSome => cases h.symm.trans hSome

/-- One round of the scanner. -/
theorem scan_step {e rest : List Char} {tokens tokens' : List Token} {ty : TokenType}
    (hMatch : firstMatch rules (e ++ rest) = some (ty, e.length)) (hLen : e.length ≤ 32)
    (hPush : pushToken tokens (recordToken tokens ty e) = .ok tokens') :
    scan (e ++ rest) tokens = scan rest tokens' := by
  have hPos := firstMatch_pos hMatch
  have hNe : e ++ rest ≠ [] := by
    intro hNil
    rw [hNil, List.length_nil] at hPos
    omega
  rw [scan, if_neg hNe]
  split
  next hNone => simp [hMatch] at hNone
  next ty' n hSome =>
    rw [hMatch] at hSome
    cases hSome
    rw [if_neg (by omega), List.take_left, List.drop_left, hPush]
    rfl

/-- Up to 32 blanks are one word of the blank rule, and leave no token. -/
theorem scan_blanks {n : Nat} (hn : n ≤ 32) {rest : List Char} (hRest : rest.head? ≠ some ' ')
    (tokens : List Token) : scan (blanks n ++ rest) tokens = scan rest tokens := by
  cases n with
  | zero => rfl
  | succ n =>
    have hWord : blanks (n + 1) ∈ (Regex.many [' ']).matches' := by
      rw [Regex.mem_many]
      exact ⟨by simp [blanks], fun c hc => List.mem_singleton.2 (List.eq_of_mem_replicate hc)⟩
    have hLongest := Regex.longest_of_delimited rest hWord
      (fun v hv => (Regex.mem_many.1 hv).2) (by
        intro c hc hMem
        exact hRest (List.mem_singleton.1 hMem ▸ hc))
    refine scan_step (firstMatch_at 2 rfl (by decide) hLongest) ?_ rfl
    simpa [blanks] using hn

theorem head_append {w : List Char} (h : w ≠ []) (rest : List Char) :
    ∃ c ∈ w, (w ++ rest).head? = some c := by
  obtain ⟨c, cs, rfl⟩ := List.exists_cons_of_ne_nil h
  exact ⟨c, List.mem_cons_self, rfl⟩

/-- What starts with a word, or with a blank before it. -/
theorem head_word {P : Char → Prop} {n : Nat} {w rest : List Char} (hNe : w ≠ [])
    (hBlank : P ' ') (hWord : ∀ c ∈ w, P c) :
    ∀ c, (blanks n ++ (w ++ rest)).head? = some c → P c := by
  intro c hc
  cases n with
  | zero =>
    obtain ⟨d, hd, hHead⟩ := head_append hNe rest
    exact Option.some.inj (hHead.symm.trans hc) ▸ hWord d hd
  | succ n => exact Option.some.inj hc ▸ hBlank

/-- A word and the blanks before it. -/
theorem scan_word {n : Nat} {w rest : List Char} {tokens tokens' : List Token} {ty : TokenType}
    (hn : n ≤ 32) (hBlank : ' ' ∉ w)
    (hMatch : firstMatch rules (w ++ rest) = some (ty, w.length)) (hLen : w.length ≤ 32)
    (hPush : pushToken tokens (recordToken tokens ty w) = .ok tokens') :
    scan (blanks n ++ (w ++ rest)) tokens = scan rest tokens' := by
  have hNe : w ≠ [] := List.ne_nil_of_length_pos (firstMatch_pos hMatch).1
  have hHead : (w ++ rest).head? ≠ some ' ' := by
    obtain ⟨c, hc, hEq⟩ := head_append hNe rest
    rw [hEq]
    rintro ⟨⟩
    exact hBlank hc
  rw [scan_blanks hn hHead, scan_step hMatch hLen hPush]

/-- After a lexeme that ends an operand `*` is a multiplication. -/
theorem isDeref_append (tokens : List Token) (l : Lexeme) (h : l.closes = true) :
    isDeref (tokens ++ [l.token]) = false := by
  have hPrec : 5 < prec l.token.type := by
    cases l with
    | num n => exact (show ∀ r : Radix, 5 < prec r.tokenType by rintro (_ | _) <;> decide) n.radix
    | pc | reg | rparen => simp [Lexeme.token, prec]
    | op | lparen => cases h
  simpa [isDeref] using hPrec

theorem text_ne_nil (l : Lexeme) : l.text ≠ [] := by
  cases l with
  | num n =>
    intro h
    simp only [Lexeme.text, Numeral.text, List.append_eq_nil_iff] at h
    exact n.digits_ne h.1.2
  | pc | reg | lparen | rparen => simp [Lexeme.text]
  | op o => cases o <;> simp [Lexeme.text, BinOp.text]

theorem numeral_text_wordChars (n : Numeral) : ∀ c ∈ n.text, c ∈ wordChars := by
  intro c hc
  have hAlphabet : ∀ r : Radix, ∀ c ∈ r.alphabet, c ∈ wordChars := by
    rintro (_ | _) <;> exact List.forall_iff_forall_mem.1 (by decide)
  have hLead : ∀ r : Radix, ∀ c ∈ r.lead, c ∈ wordChars := by
    rintro (_ | _) <;> exact List.forall_iff_forall_mem.1 (by decide)
  have hTrail : ∀ r : Radix, ∀ c ∈ r.trail, c ∈ wordChars := by
    rintro (_ | _) <;> exact List.forall_iff_forall_mem.1 (by decide)
  rcases List.mem_append.1 hc with hc | hc
  · rcases List.mem_append.1 hc with hc | hc
    · exact hLead _ c hc
    · exact hAlphabet _ c (n.digits_mem c hc)
  · exact hTrail _ c hc

/-- No lexeme has a blank in it. -/
theorem blank_notMem_text (l : Lexeme) : ' ' ∉ l.text := by
  cases l with
  | num n =>
    intro h
    exact absurd (numeral_text_wordChars n ' ' h) (by decide)
  | pc => decide
  | reg i => exact (show ∀ i : Fin 31, ' ' ∉ '$' :: regName i by decide) i
  | op o => cases o <;> decide
  | lparen => decide
  | rparen => decide

theorem delimited_op (l : Lexeme) (h : l.opens = false) : ∀ c ∈ l.text, c ∉ wordChars := by
  cases l with
  | op o => cases o <;> exact List.forall_iff_forall_mem.1 (by decide)
  | rparen => exact List.forall_iff_forall_mem.1 (by decide)
  | num | pc | reg | lparen => cases h

/-- Behind an operand no letter of an operand follows. -/
theorem delimited_spell {gaps : List (Nat × Lexeme)} {st : Bool} {rest : List Char}
    (hFollow : follow true (gaps.map Prod.snd) = some st) (hRest : st = true → Delimited rest) :
    Delimited (spell gaps ++ rest) := by
  cases gaps with
  | nil =>
    cases hFollow
    exact hRest rfl
  | cons g gaps =>
    obtain ⟨n, l⟩ := g
    simp only [List.map_cons, follow, Bool.not_true] at hFollow
    split at hFollow
    case isFalse => cases hFollow
    case isTrue hOpens =>
      have hText : spell ((n, l) :: gaps) ++ rest =
          blanks n ++ (l.text ++ (spell gaps ++ rest)) := by simp [spell]
      rw [hText]
      exact head_word (text_ne_nil l) (by decide) (delimited_op l hOpens)

/-- The text of a lexeme list, whatever follows it, is scanned to the list's tokens. -/
theorem scan_spell {gaps : List (Nat × Lexeme)} {st st' : Bool} {rest : List Char}
    {tokens : List Token} (hGaps : ∀ g ∈ gaps, g.1 ≤ 32)
    (hFollow : follow st (gaps.map Prod.snd) = some st') (hRest : st' = true → Delimited rest)
    (hDeref : st = true → isDeref tokens = false)
    (hFits : tokens.length + gaps.length ≤ maxTokens) :
    scan (spell gaps ++ rest) tokens =
      scan rest (tokens ++ gaps.map fun g => g.2.token) := by
  induction gaps generalizing st tokens with
  | nil => simp [spell]
  | cons g gaps ih =>
    obtain ⟨n, l⟩ := g
    simp only [List.map_cons, follow] at hFollow
    split at hFollow
    case isFalse => cases hFollow
    case isTrue hOpens =>
      have hDelim : l.closes = true → Delimited (spell gaps ++ rest) := by
        intro hCloses
        exact delimited_spell (hCloses ▸ hFollow) hRest
      have hRecord : recordToken tokens l.tokenType l.text = some l.token := by
        refine recordToken_lexeme l fun hOp => hDeref ?_
        simpa [hOp] using hOpens
      have hPush : pushToken tokens (some l.token) = .ok (tokens ++ [l.token]) := by
        rw [pushToken, if_pos]
        simp only [List.length_cons] at hFits
        omega
      calc scan (spell ((n, l) :: gaps) ++ rest) tokens
          = scan (blanks n ++ (l.text ++ (spell gaps ++ rest))) tokens := by simp [spell]
        _ = scan (spell gaps ++ rest) (tokens ++ [l.token]) :=
            scan_word (hGaps (n, l) (by simp)) (blank_notMem_text l) (firstMatch_lexeme l hDelim)
              (text_length_le l) (hRecord ▸ hPush)
        _ = scan rest (tokens ++ [l.token] ++ gaps.map fun g => g.2.token) := by
            refine ih (fun g hg => hGaps g (by simp [hg])) hFollow (isDeref_append tokens l) ?_
            simp only [List.length_append, List.length_cons, List.length_nil] at hFits ⊢
            omega
        _ = scan rest (tokens ++ ((n, l) :: gaps).map fun g => g.2.token) := by simp

/-- No blanks anywhere. -/
def tight (ls : List Lexeme) : List (Nat × Lexeme) := ls.map fun l => (0, l)

theorem map_snd_tight (ls : List Lexeme) : (tight ls).map Prod.snd = ls := by
  simp [tight, Function.comp_def]

theorem tight_le (ls : List Lexeme) : ∀ g ∈ tight ls, g.1 ≤ 32 := by
  intro g hg
  obtain ⟨l, -, rfl⟩ := List.mem_map.1 hg
  exact Nat.zero_le _

theorem spell_tight (ls : List Lexeme) : spell (tight ls) = ls.flatMap Lexeme.text := by
  induction ls with
  | nil => rfl
  | cons l ls ih =>
    rw [List.flatMap_cons, ← ih]
    rfl

/-- Lexemes written without a blank. -/
theorem spells_flatMap (ls : List Lexeme) : Spells ls (ls.flatMap Lexeme.text) :=
  ⟨tight ls, map_snd_tight ls, tight_le ls, 0, Nat.zero_le _, by simp [spell_tight, blanks]⟩

theorem spells_singleton (l : Lexeme) : Spells [l] l.text :=
  ⟨[(0, l)], rfl, by simp, 0, by simp, by simp [spell, blanks]⟩

/-- A printed operand is scanned to its tokens. -/
theorem makeToken_spells {ls : List Lexeme} {s : List Char} (hSpells : Spells ls s)
    (hFollow : follow false ls = some true) (hFits : ls.length ≤ maxTokens) :
    makeToken s = .ok (some (ls.map Lexeme.token)) := by
  obtain ⟨gaps, rfl, hGaps, n, hn, rfl⟩ := hSpells
  have hBlank : Delimited (blanks n) := by
    intro c hc
    rw [List.eq_of_mem_replicate (List.mem_of_head? hc)]
    decide
  rw [makeToken, scan_spell hGaps hFollow (fun _ => hBlank) (fun h => by cases h)
    (by simpa using hFits), ← List.append_nil (blanks n), scan_blanks hn (by simp), scan_nil]
  simp

end Riscv32.Sdb
