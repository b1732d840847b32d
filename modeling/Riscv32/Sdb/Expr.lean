import Riscv32.Data.Regex
import Riscv32.Rtl.Params

/-!
# Expressions of the debugger

`monitor/sdb/expr.c`: the rules, `make_token`, and `eval` with
`check_parentheses` and `find_op_position`.  The simulator's `expr.cpp` is the
same text with other ways to reach the pc, the registers and memory; these are
the fields of `Target`.  The tokens `p..q` of a call are the list `eval` gets.

Where the C code does not return there is a `Fault`, one for each way it ends: a
panic with its message, an assertion, a store behind the token array, a
dereference that does not return.  `eval` recurses over the length of its range,
which `findOpPosition_lt` makes shorter with every call; the same functions on
positions of the token array, as the source has them, are in `Sdb.Ranges`.
-/

namespace Riscv32.Sdb

open Riscv32.Data Riscv32.Rtl

/-- `TK_*` and the character types. -/
inductive TokenType
  | notype | deref | eq | hex | dec | lt | gt | le | ge | and
  | plus | minus | times | divide | lparen | rparen | dollar
deriving DecidableEq, Repr

/-- How the C code ends without returning. -/
inductive Fault
  /-- `Too long substr_len`. -/
  | tooLong
  /-- A store behind `tokens[65535]`. -/
  | overflow
  /-- `Bad expression`. -/
  | badExpression
  /-- `Parentheses not match`. -/
  | parentheses
  /-- `assert(0)`. -/
  | assertion
  /-- A dereference that does not return. -/
  | access
deriving DecidableEq, Repr

/-! ## Rules -/

def decDigits : List Char := ['0', '1', '2', '3', '4', '5', '6', '7', '8', '9']

def hexDigits : List Char :=
  decDigits ++ ['a', 'b', 'c', 'd', 'e', 'f', 'A', 'B', 'C', 'D', 'E', 'F']

/-- `[a-zA-Z]`. -/
def letters : List Char :=
  ['a', 'b', 'c', 'd', 'e', 'f', 'g', 'h', 'i', 'j', 'k', 'l', 'm',
   'n', 'o', 'p', 'q', 'r', 's', 't', 'u', 'v', 'w', 'x', 'y', 'z',
   'A', 'B', 'C', 'D', 'E', 'F', 'G', 'H', 'I', 'J', 'K', 'L', 'M',
   'N', 'O', 'P', 'Q', 'R', 'S', 'T', 'U', 'V', 'W', 'X', 'Y', 'Z']

/-- `0[xX][0-9a-fA-F]+`. -/
def hexRule : RegularExpression Char :=
  Regex.lit ['0'] * (Regex.cls ['x', 'X'] * Regex.many hexDigits)

/-- `[0-9]+u?`. -/
def decRule : RegularExpression Char := Regex.many decDigits * Regex.between ['u'] 0 1

/-- `\$[a-zA-Z]{1,2}[0-9]{0,2}`. -/
def regRule : RegularExpression Char :=
  Regex.lit ['$'] * (Regex.between letters 1 2 * Regex.between decDigits 0 2)

/-- `rules`; `>` is `TK_LT` and `<` is `TK_GT`. -/
def rules : List (RegularExpression Char × TokenType) :=
  [(hexRule, .hex),
   (decRule, .dec),
   (Regex.many [' '], .notype),
   (Regex.lit ['+'], .plus),
   (Regex.lit ['-'], .minus),
   (Regex.lit ['*'], .times),
   (Regex.lit ['/'], .divide),
   (Regex.lit ['('], .lparen),
   (Regex.lit [')'], .rparen),
   (Regex.lit ['=', '='], .eq),
   (Regex.lit ['<', '='], .le),
   (Regex.lit ['>', '='], .ge),
   (Regex.lit ['>'], .lt),
   (Regex.lit ['<'], .gt),
   (Regex.lit ['&', '&'], .and),
   (regRule, .dollar)]

/-- The first of `rs` that matches at the start of `e`: `token_type` and `rm_eo`. -/
def firstMatch (rs : List (RegularExpression Char × TokenType)) (e : List Char) :
    Option (TokenType × Nat) :=
  rs.findSome? fun r => (Regex.longest r.1 e).map fun n => (r.2, n)

def prec : TokenType → Nat
  | .and => 1
  | .eq => 2
  | .lt | .gt | .le | .ge => 3
  | .plus | .minus => 4
  | .times | .divide => 5
  | .deref => 6
  | .dollar => 7
  | _ => 100

/-! ## Tokens -/

/-- `Token`; `str` is set for numbers and registers. -/
structure Token where
  type : TokenType
  str : List Char
deriving DecidableEq, Repr

/-- `ARRLEN(tokens)`. -/
abbrev maxTokens : Nat := 65536

/-- `strncpy(str, text, n % 32)` with the terminator behind it. -/
def copyStr (text : List Char) : List Char := text.take (text.length % 32)

/-- A `*` after `tokens` dereferences. -/
def isDeref (tokens : List Token) : Bool :=
  match tokens.getLast? with
  | none => true
  | some tok => decide (prec tok.type ≤ 5)

/-- The `switch` of `make_token`: what is stored for a matched `text`. -/
def recordToken (tokens : List Token) (ty : TokenType) (text : List Char) : Option Token :=
  match ty with
  | .notype | .le | .ge => none
  | .hex => some ⟨.hex, copyStr text⟩
  | .dec => some ⟨.dec, copyStr (if text.getLast? = some 'u' then text.dropLast else text)⟩
  | .times => some ⟨if isDeref tokens then .deref else .times, []⟩
  | .dollar => some ⟨.dollar, copyStr text⟩
  | ty => some ⟨ty, []⟩

/-- `tokens[nr_token++] = tok`. -/
def pushToken (tokens : List Token) : Option Token → Except Fault (List Token)
  | none => .ok tokens
  | some tok => if tokens.length < maxTokens then .ok (tokens ++ [tok]) else .error .overflow

theorem rules_matchEpsilon : ∀ r ∈ rules, r.1.matchEpsilon = false := by decide

/-- No rule matches the empty text, so `position` advances. -/
theorem firstMatch_pos {e : List Char} {ty : TokenType} {n : Nat}
    (h : firstMatch rules e = some (ty, n)) : 0 < n ∧ n ≤ e.length := by
  obtain ⟨r, hr, hMatch⟩ := List.exists_of_findSome?_eq_some h
  obtain ⟨m, hm, hPair⟩ := Option.map_eq_some_iff.1 hMatch
  cases hPair
  obtain ⟨hLe, hWord⟩ := Regex.longest_spec hm
  refine ⟨Nat.pos_of_ne_zero ?_, hLe⟩
  rintro rfl
  rw [List.take_zero, ← RegularExpression.rmatch_iff_matches'] at hWord
  simp [RegularExpression.rmatch, rules_matchEpsilon r hr] at hWord

/-- `make_token` from `position` on; `none` if it returns `false`. -/
def scan (e : List Char) (tokens : List Token) : Except Fault (Option (List Token)) :=
  if e = [] then .ok (some tokens)
  else
    match _h : firstMatch rules e with
    | none => .ok none
    | some (ty, n) =>
      if 32 < n then .error .tooLong
      else do
        let tokens ← pushToken tokens (recordToken tokens ty (e.take n))
        scan (e.drop n) tokens
termination_by e.length
decreasing_by
  have hPos := firstMatch_pos _h
  rw [List.length_drop]
  omega

def makeToken (e : List Char) : Except Fault (Option (List Token)) := scan e []

/-! ## Parentheses and operators -/

/-- `cnt` after `tok`. -/
def nest (cnt : Int) (tok : Token) : Int :=
  match tok.type with
  | .lparen => cnt + 1
  | .rparen => cnt - 1
  | _ => cnt

/-- The loop of `check_parentheses`; `none` if it returns `false`. -/
def parenScan : List Token → Int → Option Int
  | [], cnt => some cnt
  | tok :: ts, cnt => if nest cnt tok = 0 then none else parenScan ts (nest cnt tok)

def checkParentheses (ts : List Token) : Except Fault Bool :=
  if ts.head?.map Token.type ≠ some .lparen ∨ ts.getLast?.map Token.type ≠ some .rparen then
    .ok false
  else
    match parenScan ts.dropLast 0 with
    | none => .ok false
    | some cnt => if cnt = 1 then .ok true else .error .parentheses

/-- The locals of `find_op_position`; `op` is `none` for `-1`. -/
structure OpScan where
  i : Nat
  cnt : Int
  position : Nat
  op : Option TokenType

/-- `prec(op)`. -/
def OpScan.prec (st : OpScan) : Nat := st.op.elim 100 Sdb.prec

/-- One turn of the loop. -/
def OpScan.step (st : OpScan) (tok : Token) : OpScan :=
  let st' := { st with i := st.i + 1, cnt := nest st.cnt tok }
  if st.cnt = 0 ∧ Sdb.prec tok.type ≤ st.prec then
    { st' with op := some tok.type, position := st.i }
  else st'

def opStart : OpScan := ⟨0, 0, 0, none⟩

def findOpPosition (ts : List Token) : Nat := (ts.foldl OpScan.step opStart).position

/-! ## Values -/

/-- The value of a digit of `strtol`. -/
def digitVal (c : Char) : Nat :=
  if '0' ≤ c ∧ c ≤ '9' then c.toNat - 48
  else if 'a' ≤ c ∧ c ≤ 'z' then c.toNat - 87
  else if 'A' ≤ c ∧ c ≤ 'Z' then c.toNat - 55
  else 36

/-- The digits of a base, up to the first other character. -/
def strtolDigits (base : Nat) : Nat → List Char → Nat
  | acc, [] => acc
  | acc, c :: cs =>
    if digitVal c < base then strtolDigits base (base * acc + digitVal c) cs else acc

/-- `LONG_MAX`. -/
abbrev longMax : Nat := 9223372036854775807

/-- `strtol(str, NULL, 0)` on a text without blanks and sign. -/
def strtol (s : List Char) : Nat :=
  min longMax <|
    match s with
    | '0' :: x :: d :: cs =>
      if (x = 'x' ∨ x = 'X') ∧ digitVal d < 16 then strtolDigits 16 0 (d :: cs)
      else strtolDigits 8 0 s
    | '0' :: _ => strtolDigits 8 0 s
    | _ => strtolDigits 10 0 s

/-- `regs`. -/
def regs : List (List Char) :=
  [['$', '0'], ['r', 'a'], ['s', 'p'], ['g', 'p'], ['t', 'p'], ['t', '0'], ['t', '1'], ['t', '2'],
   ['s', '0'], ['s', '1'], ['a', '0'], ['a', '1'], ['a', '2'], ['a', '3'], ['a', '4'], ['a', '5'],
   ['a', '6'], ['a', '7'], ['s', '2'], ['s', '3'], ['s', '4'], ['s', '5'], ['s', '6'], ['s', '7'],
   ['s', '8'], ['s', '9'], ['s', '1', '0'], ['s', '1', '1'],
   ['t', '3'], ['t', '4'], ['t', '5'], ['t', '6']]

/-- What a debugger reads the machine with. -/
structure Target (σ : Type) where
  pc : σ → Word
  gpr : σ → Nat → Word
  /-- The word a dereference yields and the state it leaves. -/
  load : Word → σ → Except Fault (Word × σ)

variable {σ : Type}

/-- A range of one token. -/
def Target.single (t : Target σ) (tok : Token) (s : σ) : Word :=
  match tok.type with
  | .dec | .hex => BitVec.ofNat 32 (strtol tok.str)
  | .dollar =>
    if tok.str.drop 1 = ['p', 'c'] then t.pc s
    else (regs.findIdx? (· = tok.str.drop 1)).elim 0 (t.gpr s)
  | _ => 0

/-- The `switch` of `eval`. -/
def Target.apply (t : Target σ) (op : TokenType) (val1 val2 : Word) (s : σ) :
    Except Fault (Word × σ) :=
  match op with
  | .plus => .ok (val1 + val2, s)
  | .minus => .ok (val1 - val2, s)
  | .times => .ok (val1 * val2, s)
  | .divide => .ok (if val2 ≠ 0 then val1 / val2 else val1, s)
  | .eq => .ok (if val1 = val2 then 1 else 0, s)
  | .lt => .ok (if val1 ≤ val2 then 1 else 0, s)
  | .and => .ok (if val1 ≠ 0 ∧ val2 ≠ 0 then 1 else 0, s)
  | .deref => t.load val2 s
  | _ => .error .assertion

/-- The type of the token at a position. -/
def typeAt (ts : List Token) (i : Nat) : TokenType := (ts[i]?).elim .notype Token.type

@[simp] theorem step_i (st : OpScan) (tok : Token) : (st.step tok).i = st.i + 1 := by
  unfold OpScan.step
  split <;> rfl

theorem foldl_step_i (ts : List Token) (st : OpScan) :
    (ts.foldl OpScan.step st).i = st.i + ts.length := by
  induction ts generalizing st with
  | nil => rfl
  | cons tok ts ih =>
    rw [List.foldl_cons, ih, step_i, List.length_cons]
    omega

theorem foldl_step_position (ts : List Token) (st : OpScan) (h : st.position ≤ st.i) :
    (ts.foldl OpScan.step st).position < st.i + ts.length ∨
      (ts.foldl OpScan.step st).position = st.position := by
  induction ts generalizing st with
  | nil => exact .inr rfl
  | cons tok ts ih =>
    have hStep : (st.step tok).i = st.i + 1 ∧
        ((st.step tok).position = st.i ∨ (st.step tok).position = st.position) := by
      simp only [OpScan.step]
      split <;> simp
    rw [List.foldl_cons, List.length_cons]
    rcases ih (st.step tok) (by omega) with hIn | hEq <;> omega

/-- The operator lies in the range. -/
theorem findOpPosition_lt {ts : List Token} (h : 0 < ts.length) :
    findOpPosition ts < ts.length := by
  have hPos := foldl_step_position ts opStart (Nat.le_refl _)
  simp only [opStart, findOpPosition] at hPos ⊢
  omega

/-- `eval`; `val1` is left unset for a dereference. -/
def eval (t : Target σ) (ts : List Token) (s : σ) : Except Fault (Word × σ) :=
  if hNil : ts.length = 0 then .error .badExpression
  else if ts.length = 1 then .ok (ts.head?.elim 0 fun tok => t.single tok s, s)
  else do
    let enclosed ← checkParentheses ts
    if enclosed then eval t (ts.drop 1).dropLast s
    else
      let op := findOpPosition ts
      let val1 ← (if typeAt ts op = .deref then .ok (0, s) else eval t (ts.take op) s)
      let val2 ← eval t (ts.drop (op + 1)) val1.2
      t.apply (typeAt ts op) val1.1 val2.1 val2.2
termination_by ts.length
decreasing_by
  · rw [List.length_dropLast, List.length_drop]
    omega
  · rw [List.length_take]
    have hLt : findOpPosition ts < ts.length := findOpPosition_lt (by omega)
    omega
  · rw [List.length_drop]
    omega

/-- `expr`: the value and `*success`. -/
def expr (t : Target σ) (e : List Char) (success : Bool) (s : σ) :
    Except Fault ((Word × Bool) × σ) := do
  match ← makeToken e with
  | none => .ok ((0, false), s)
  | some tokens =>
    let (val, s) ← eval t tokens s
    .ok ((val, success), s)

end Riscv32.Sdb
