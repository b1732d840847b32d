import Riscv32.Sdb.BigStep
import Riscv32.Sdb.Decimal

/-!
# Malformed input

Which strings are expressions of the debugger, and on which strings `expr`
returns.  `eval` takes a range of tokens apart by `check_parentheses` and
`find_op_position` alone, so how it splits is known before any value is: a
`Plan`.  Nothing on the way ever sets `*success`.

`Finishes` is the condition in the code's own terms: `make_token` rejects the
text, or its tokens come apart all the way down (`Splits`) and every dereference is
answered.

`discerned_iff` says that `expr` tells expressions from other strings exactly on
the malformed ones that it gets to the end of.
-/

namespace Riscv32.Sdb

open Riscv32.Rtl

/-! ## The language -/

/-- The texts of the binary operators. -/
def operatorTexts : List (List Char) :=
  [['+'], ['-'], ['*'], ['/'], ['=', '='], ['<', '='], ['>', '='], ['>'], ['<'], ['&', '&']]

/-- The expressions of the debugger: numbers, `$pc` and the registers, under
parentheses, prefix `*` and binary operators, with blanks anywhere between. -/
inductive WellFormed : List Char → Prop
  | hex {x : Char} {ds : List Char} : x ∈ ['x', 'X'] → ds ≠ [] → (∀ c ∈ ds, c ∈ hexDigits) →
      WellFormed ('0' :: x :: ds)
  | dec {ds : List Char} : ds ≠ [] → (∀ c ∈ ds, c ∈ decDigits) → WellFormed ds
  | decU {ds : List Char} : ds ≠ [] → (∀ c ∈ ds, c ∈ decDigits) → WellFormed (ds ++ ['u'])
  | pc : WellFormed ['$', 'p', 'c']
  | reg (i : Fin 31) : WellFormed ('$' :: regName i)
  | paren {e : List Char} : WellFormed e → WellFormed ('(' :: (e ++ [')']))
  | deref {e : List Char} : WellFormed e → WellFormed ('*' :: e)
  | binary {l op r : List Char} : WellFormed l → op ∈ operatorTexts → WellFormed r →
      WellFormed (l ++ op ++ r)
  | before {e : List Char} : WellFormed e → WellFormed (' ' :: e)
  | behind {e : List Char} : WellFormed e → WellFormed (e ++ [' '])

variable {σ : Type}

/-- What a command needs of `expr`: it returns, and `*success` tells expressions
from other strings. -/
def Discerned (t : Target σ) (e : List Char) (s : σ) : Prop :=
  ∃ v b s', expr t e false s = .ok ((v, b), s') ∧ (b = true ↔ WellFormed e)

/-! ## Plans -/

/-- How a range of tokens is taken apart. -/
inductive Plan
  | single (tok : Token)
  | paren (p : Plan)
  | deref (p : Plan)
  | binary (op : TokenType) (l r : Plan)

/-- The operators the switch of `eval` knows, apart from `TK_DEREF`. -/
def Known (op : TokenType) : Prop :=
  op ∈ [.plus, .minus, .times, .divide, .eq, .lt, .and]

/-- A range that comes apart all the way down: no part is empty, the parentheses
match, and every split is at an operator the switch knows. -/
inductive Splits : List Token → Plan → Prop
  | single (tok : Token) : Splits [tok] (.single tok)
  | paren {ts : List Token} {p : Plan} : 2 ≤ ts.length → checkParentheses ts = .ok true →
      Splits (ts.drop 1).dropLast p → Splits ts (.paren p)
  | deref {ts : List Token} {p : Plan} : 2 ≤ ts.length → checkParentheses ts = .ok false →
      typeAt ts (findOpPosition ts) = .deref → Splits (ts.drop (findOpPosition ts + 1)) p →
        Splits ts (.deref p)
  | binary {ts : List Token} {l r : Plan} : 2 ≤ ts.length → checkParentheses ts = .ok false →
      Known (typeAt ts (findOpPosition ts)) → Splits (ts.take (findOpPosition ts)) l →
        Splits (ts.drop (findOpPosition ts + 1)) r →
          Splits ts (.binary (typeAt ts (findOpPosition ts)) l r)

namespace Plan

/-- The value of a plan, from left to right. -/
def run (t : Target σ) : Plan → σ → Except Fault (Word × σ)
  | single tok, s => .ok (t.single tok s, s)
  | paren p, s => p.run t s
  | deref p, s => do
    let (addr, s) ← p.run t s
    t.load addr s
  | binary op l r, s => do
    let (x, s) ← l.run t s
    let (y, s) ← r.run t s
    t.apply op x y s

/-- Every address a plan dereferences is answered. -/
def Answered (t : Target σ) : Plan → σ → Prop
  | single _, _ => True
  | paren p, s => p.Answered t s
  | deref p, s => p.Answered t s ∧
      ∀ addr s', p.run t s = .ok (addr, s') → ∃ r, t.load addr s' = .ok r
  | binary _ l r, s => l.Answered t s ∧ ∀ x s', l.run t s = .ok (x, s') → r.Answered t s'

end Plan

section Plans

variable {t : Target σ} {ts : List Token} {s s' : σ} {v : Word}

theorem known_of_apply {op : TokenType} {x y : Word} (hOp : op ≠ .deref)
    (h : t.apply op x y s = .ok (v, s')) : Known op := by
  cases op with
  | deref => exact absurd rfl hOp
  | plus | minus | times | divide | eq | lt | and => simp [Known]
  | notype | hex | dec | gt | le | ge | lparen | rparen | dollar => cases h

theorem apply_known {op : TokenType} (h : Known op) (x y : Word) (s : σ) :
    op ≠ .deref ∧ ∃ v, t.apply op x y s = .ok (v, s) := by
  cases op with
  | plus | minus | times | divide | eq | lt | and => exact ⟨by decide, _, rfl⟩
  | notype | hex | dec | deref | gt | le | ge | lparen | rparen | dollar => simp [Known] at h

/-- An evaluation that returns follows a plan. -/
theorem splits_of_evals (h : Evals t ts s v s') :
    ∃ p, Splits ts p ∧ p.Answered t s ∧ p.run t s = .ok (v, s') := by
  induction h with
  | single tok s => exact ⟨_, .single tok, trivial, rfl⟩
  | paren hLen hParen _ ih =>
      obtain ⟨p, hSplit, hAnswered, hRun⟩ := ih
      exact ⟨_, .paren hLen hParen hSplit, hAnswered, hRun⟩
  | deref hLen hParen hOp _ hLoad ih =>
      obtain ⟨p, hSplit, hAnswered, hRun⟩ := ih
      refine ⟨_, .deref hLen hParen hOp hSplit, ⟨hAnswered, ?_⟩, ?_⟩
      · intro addr r hRun'
        obtain ⟨rfl, rfl⟩ := Prod.mk.inj (Except.ok.inj (hRun.symm.trans hRun'))
        exact ⟨_, hLoad⟩
      · simpa [Plan.run, hRun, bind, Except.bind] using hLoad
  | binary hLen hParen hOp _ _ hApply ihl ihr =>
      obtain ⟨l, hSplitL, hAnsweredL, hRunL⟩ := ihl
      obtain ⟨r, hSplitR, hAnsweredR, hRunR⟩ := ihr
      refine ⟨_, .binary hLen hParen (known_of_apply hOp hApply) hSplitL hSplitR,
        ⟨hAnsweredL, ?_⟩, ?_⟩
      · intro x s₁ hRun
        obtain ⟨rfl, rfl⟩ := Prod.mk.inj (Except.ok.inj (hRunL.symm.trans hRun))
        exact hAnsweredR
      · simpa [Plan.run, hRunL, hRunR, bind, Except.bind] using hApply

/-- A plan whose dereferences are answered is evaluated. -/
theorem evals_of_splits {p : Plan} (h : Splits ts p) (hAnswered : p.Answered t s) :
    ∃ v s', Evals t ts s v s' ∧ p.run t s = .ok (v, s') := by
  induction h generalizing s with
  | single tok => exact ⟨_, _, .single tok s, rfl⟩
  | paren hLen hParen _ ih =>
      obtain ⟨v, s', hEvals, hRun⟩ := ih hAnswered
      exact ⟨v, s', .paren hLen hParen hEvals, hRun⟩
  | deref hLen hParen hOp _ ih =>
      obtain ⟨addr, s₁, hEvals, hRun⟩ := ih hAnswered.1
      obtain ⟨⟨v, s'⟩, hLoad⟩ := hAnswered.2 addr s₁ hRun
      refine ⟨v, s', .deref hLen hParen hOp hEvals hLoad, ?_⟩
      simpa [Plan.run, hRun, bind, Except.bind] using hLoad
  | binary hLen hParen hOp _ _ ihl ihr =>
      obtain ⟨x, s₁, hEvalsL, hRunL⟩ := ihl hAnswered.1
      obtain ⟨y, s₂, hEvalsR, hRunR⟩ := ihr (hAnswered.2 x s₁ hRunL)
      obtain ⟨hNe, v, hApply⟩ := apply_known hOp x y s₂
      refine ⟨v, s₂, .binary hLen hParen hNe hEvalsL hEvalsR hApply, ?_⟩
      simpa [Plan.run, hRunL, hRunR, bind, Except.bind] using hApply

end Plans

/-! ## Calls that return -/

/-- `expr` gets to its end: `make_token` rejects the text, or its tokens come
apart and every dereference is answered. -/
def Finishes (t : Target σ) (e : List Char) (s : σ) : Prop :=
  makeToken e = .ok none ∨
    ∃ tokens p, makeToken e = .ok (some tokens) ∧ Splits tokens p ∧ p.Answered t s

section Calls

variable (t : Target σ) (e : List Char) (s : σ)

theorem expr_returns_iff (b : Bool) : (∃ r, expr t e b s = .ok r) ↔ Finishes t e s := by
  constructor
  · rintro ⟨⟨⟨v, b'⟩, s'⟩, h⟩
    rcases expr_ok h with ⟨hTok, -⟩ | ⟨tokens, hTok, -, hEvals⟩
    · exact .inl hTok
    · obtain ⟨p, hSplit, hAnswered, -⟩ := splits_of_evals hEvals
      exact .inr ⟨tokens, p, hTok, hSplit, hAnswered⟩
  · rintro (hTok | ⟨tokens, p, hTok, hSplit, hAnswered⟩)
    · exact ⟨_, expr_of_makeToken_none hTok⟩
    · obtain ⟨v, s', hEvals, -⟩ := evals_of_splits hSplit hAnswered
      exact ⟨_, expr_of_evals hTok hEvals b⟩

/-- `*success` is never set. -/
theorem success_false {r : (Word × Bool) × σ} (h : expr t e false s = .ok r) :
    r.1.2 = false := by
  obtain ⟨⟨v, b⟩, s'⟩ := r
  rcases expr_ok h with ⟨-, -, hb, -⟩ | ⟨-, -, hb, -⟩ <;> exact hb

/-- **`expr` tells expressions from other strings exactly on the malformed ones
that it gets to the end of.** -/
theorem discerned_iff : Discerned t e s ↔ ¬ WellFormed e ∧ Finishes t e s := by
  rw [← expr_returns_iff t e s false]
  constructor
  · rintro ⟨v, b, s', hExpr, hSuccess⟩
    refine ⟨fun hForm => ?_, _, hExpr⟩
    have hFalse : b = false := success_false t e s hExpr
    rw [hSuccess.2 hForm] at hFalse
    cases hFalse
  · rintro ⟨hForm, ⟨⟨v, b⟩, s'⟩, hExpr⟩
    have hFalse : b = false := success_false t e s hExpr
    refine ⟨v, b, s', hExpr, ?_⟩
    rw [hFalse]
    exact iff_of_false (by simp) hForm

end Calls

/-! ## Two failures -/

theorem expr_dangling (t : Target σ) (s : σ) :
    expr t ['1', '+'] false s = .error .badExpression := by
  have hScan := @scan_spell [(0, .num (digitNumeral .dec '1' one_mem_decDigits)), (0, .op .add)]
    false false [] [] (by simp) rfl (fun h => by cases h) (fun h => by cases h)
    (by simp [maxTokens])
  have hTok : makeToken ['1', '+'] = .ok (some [⟨.dec, ['1']⟩, ⟨.plus, []⟩]) := by
    rw [scan_nil] at hScan
    exact hScan
  have hRight : eval t [] s = .error .badExpression := by
    rw [eval, dif_pos List.length_nil]
  have hPosition : findOpPosition [⟨.dec, ['1']⟩, ⟨.plus, []⟩] = 1 := rfl
  have hParen : checkParentheses [⟨.dec, ['1']⟩, ⟨.plus, []⟩] = .ok false := rfl
  rw [expr_of_makeToken t s hTok, eval, dif_neg (by simp), if_neg (by simp), hParen]
  simp [bind, Except.bind, Except.map, hPosition, typeAt, eval_singleton, hRight]

/-- `1` is an expression and not reported as one; `1+` is none and ends the
debugger. -/
theorem one_not_discerned :
    WellFormed ['1'] ∧ ¬ Discerned tenfold ['1'] () ∧
      expr tenfold ['1', '+'] false () = .error .badExpression := by
  have hForm : WellFormed ['1'] :=
    .dec (List.cons_ne_nil _ _) fun c hc => List.mem_singleton.1 hc ▸ one_mem_decDigits
  refine ⟨hForm, ?_, expr_dangling tenfold ()⟩
  rintro ⟨v, b, s', hExpr, hSuccess⟩
  have hFalse : b = false := success_false tenfold _ _ hExpr
  rw [hSuccess.2 hForm] at hFalse
  cases hFalse

end Riscv32.Sdb
