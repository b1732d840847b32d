import Riscv32.Sdb.Evaluation

/-!
# Evaluations that return

The calls of `eval` that return, as rules: one for a single token, one for
enclosing parentheses, one for a dereference and one for the other operators.
What an evaluation does to the machine is then shown rule by rule; only
`Evals.deref` reaches memory.  `derefs` lists the addresses it reads.

The rules are read off `eval`, and `eval_eq_ok_iff` says that they are exactly
the calls that return.  Two machines are compared by `Evals.simulate`, which asks
only that they read tokens and load alike.

## Main results

* `Evals.invariant`, `derefs_invariant` — what every load keeps is kept, and holds
  of the addresses read.
* `Evals.agree`, `Evals.simulateOn` — machines that differ where an evaluation
  does not look.
-/

namespace Riscv32.Sdb

open Riscv32.Rtl

variable {σ τ : Type}

/-- `eval` on `ts` returns `v` and leaves the state `s'`. -/
inductive Evals (t : Target σ) : List Token → σ → Word → σ → Prop
  | single (tok : Token) (s : σ) : Evals t [tok] s (t.single tok s) s
  | paren {ts : List Token} {s s' : σ} {v : Word} (hLen : 2 ≤ ts.length)
      (hParen : checkParentheses ts = .ok true)
      (h : Evals t (ts.drop 1).dropLast s v s') : Evals t ts s v s'
  | deref {ts : List Token} {s s' s'' : σ} {v addr : Word} (hLen : 2 ≤ ts.length)
      (hParen : checkParentheses ts = .ok false)
      (hOp : typeAt ts (findOpPosition ts) = .deref)
      (h : Evals t (ts.drop (findOpPosition ts + 1)) s addr s')
      (hLoad : t.load addr s' = .ok (v, s'')) : Evals t ts s v s''
  | binary {ts : List Token} {s s₁ s₂ s' : σ} {v val1 val2 : Word} (hLen : 2 ≤ ts.length)
      (hParen : checkParentheses ts = .ok false)
      (hOp : typeAt ts (findOpPosition ts) ≠ .deref)
      (hl : Evals t (ts.take (findOpPosition ts)) s val1 s₁)
      (hr : Evals t (ts.drop (findOpPosition ts + 1)) s₁ val2 s₂)
      (hApply : t.apply (typeAt ts (findOpPosition ts)) val1 val2 s₂ = .ok (v, s')) :
      Evals t ts s v s'

/-- An operator other than `*` leaves the state and does not look at it. -/
theorem apply_ok {t : Target σ} {op : TokenType} {x y v : Word} {s s' : σ} (hOp : op ≠ .deref)
    (h : t.apply op x y s = .ok (v, s')) :
    s' = s ∧ ∀ {τ : Type} (u : Target τ) (r : τ), u.apply op x y r = .ok (v, r) := by
  cases op with
  | deref => exact absurd rfl hOp
  | plus | minus | times | divide | eq | lt | and =>
    cases h
    exact ⟨rfl, fun u r => rfl⟩
  | notype | hex | dec | gt | le | ge | lparen | rparen | dollar => cases h

section Rules

variable {t : Target σ} {ts : List Token} {s s' : σ} {v : Word}

/-- A step of the evaluator that returned: the first part did, and the rest after it. -/
theorem bind_ok {α β : Type} {x : Except Fault α} {f : α → Except Fault β} {b : β}
    (h : (x >>= f) = .ok b) : ∃ a, x = .ok a ∧ f a = .ok b := by
  cases x with
  | error e => cases h
  | ok a => exact ⟨a, rfl, h⟩

/-- What `eval` did on two or more tokens. -/
theorem eval_ok (hLen : 2 ≤ ts.length) (h : eval t ts s = .ok (v, s')) :
    (checkParentheses ts = .ok true ∧ eval t (ts.drop 1).dropLast s = .ok (v, s')) ∨
      checkParentheses ts = .ok false ∧ ∃ val1 val2,
        (if typeAt ts (findOpPosition ts) = .deref then .ok (0, s)
          else eval t (ts.take (findOpPosition ts)) s) = .ok val1 ∧
        eval t (ts.drop (findOpPosition ts + 1)) val1.2 = .ok val2 ∧
        t.apply (typeAt ts (findOpPosition ts)) val1.1 val2.1 val2.2 = .ok (v, s') := by
  rw [eval, dif_neg (by omega), if_neg (by omega)] at h
  obtain ⟨enclosed, hParen, h⟩ := bind_ok h
  cases enclosed with
  | true => exact .inl ⟨hParen, h⟩
  | false =>
    obtain ⟨val1, hLeft, h⟩ := bind_ok h
    obtain ⟨val2, hRight, h⟩ := bind_ok h
    exact .inr ⟨hParen, val1, val2, hLeft, hRight, h⟩

theorem evals_of_eval (h : eval t ts s = .ok (v, s')) : Evals t ts s v s' := by
  induction hn : ts.length using Nat.strongRecOn generalizing ts s v s' with
  | _ n ih =>
    subst hn
    match hTs : ts with
    | [] =>
      rw [eval, dif_pos List.length_nil] at h
      cases h
    | [tok] =>
      rw [eval_singleton] at h
      cases h
      exact .single tok s
    | x :: y :: rest =>
      rw [← hTs] at h ih ⊢
      have hLen : 2 ≤ ts.length := by simp [hTs]
      have hLt := findOpPosition_lt (show 0 < ts.length by omega)
      have hDrop : (ts.drop (findOpPosition ts + 1)).length < ts.length := by
        rw [List.length_drop]
        omega
      rcases eval_ok hLen h with ⟨hParen, h⟩ | ⟨hParen, ⟨val1, s₁⟩, ⟨val2, s₂⟩, hLeft, hRight, h⟩
      · refine .paren hLen hParen (ih _ ?_ h rfl)
        rw [List.length_dropLast, List.length_drop]
        omega
      · by_cases hOp : typeAt ts (findOpPosition ts) = .deref
        · rw [if_pos hOp] at hLeft
          cases hLeft
          rw [hOp] at h
          exact .deref hLen hParen hOp (ih _ hDrop hRight rfl) h
        · rw [if_neg hOp] at hLeft
          have hTake : (ts.take (findOpPosition ts)).length < ts.length := by
            rw [List.length_take]
            omega
          exact .binary hLen hParen hOp (ih _ hTake hLeft rfl) (ih _ hDrop hRight rfl) h

theorem eval_of_evals (h : Evals t ts s v s') : eval t ts s = .ok (v, s') := by
  induction h with
  | single tok s => exact eval_singleton t s tok
  | paren hLen hParen h ih =>
    rw [eval, dif_neg (by omega), if_neg (by omega), hParen]
    simpa [bind, Except.bind] using ih
  | deref hLen hParen hOp h hLoad ih =>
    rw [eval, dif_neg (by omega), if_neg (by omega), hParen]
    simp only [bind, Except.bind, hOp, if_true, ih, Bool.false_eq_true, if_false]
    exact hLoad
  | binary hLen hParen hOp hl hr hApply ihl ihr =>
    rw [eval, dif_neg (by omega), if_neg (by omega), hParen]
    simp only [bind, Except.bind, if_neg hOp, ihl, ihr, Bool.false_eq_true, if_false]
    exact hApply

/-- The rules are the code's. -/
theorem eval_eq_ok_iff : eval t ts s = .ok (v, s') ↔ Evals t ts s v s' :=
  ⟨evals_of_eval, eval_of_evals⟩

/-- What every load keeps, an evaluation keeps. -/
theorem Evals.invariant {I : σ → Prop}
    (hLoad : ∀ {addr v : Word} {s s' : σ}, t.load addr s = .ok (v, s') → I s → I s')
    (h : Evals t ts s v s') (hs : I s) : I s' := by
  induction h with
  | single => exact hs
  | paren _ _ _ ih => exact ih hs
  | deref _ _ _ _ hl ih => exact hLoad hl (ih hs)
  | binary _ _ hOp _ _ hApply ihl ihr =>
    rw [(apply_ok hOp hApply).1]
    exact ihr (ihl hs)

end Rules

/-! ## Machines that answer alike -/

/-- A machine that follows `t` step by step. -/
theorem Evals.simulate {t : Target σ} {u : Target τ} {R : σ → τ → Prop} {ts : List Token}
    {s s' : σ} {r : τ} {v : Word} (h : Evals t ts s v s')
    (hTok : ∀ tok ∈ ts, ∀ s r, R s r → t.single tok s = u.single tok r)
    (hLoad : ∀ {addr v : Word} {s s' : σ} {r : τ}, t.load addr s = .ok (v, s') → R s r →
      ∃ r', u.load addr r = .ok (v, r') ∧ R s' r')
    (hR : R s r) : ∃ r', Evals u ts r v r' ∧ R s' r' := by
  induction h generalizing r with
  | single tok s =>
    rw [hTok tok (by simp) s r hR]
    exact ⟨r, .single tok r, hR⟩
  | paren hLen hParen h ih =>
    obtain ⟨r', hEval, hR'⟩ := ih
      (fun tok hMem => hTok tok (List.mem_of_mem_drop (List.mem_of_mem_dropLast hMem))) hR
    exact ⟨r', .paren hLen hParen hEval, hR'⟩
  | deref hLen hParen hOp h hl ih =>
    obtain ⟨r', hEval, hR'⟩ := ih (fun tok hMem => hTok tok (List.mem_of_mem_drop hMem)) hR
    obtain ⟨r'', hl', hR''⟩ := hLoad hl hR'
    exact ⟨r'', .deref hLen hParen hOp hEval hl', hR''⟩
  | binary hLen hParen hOp hl hr hApply ihl ihr =>
    obtain ⟨r₁, hEval₁, hR₁⟩ := ihl (fun tok hMem => hTok tok (List.mem_of_mem_take hMem)) hR
    obtain ⟨r₂, hEval₂, hR₂⟩ := ihr (fun tok hMem => hTok tok (List.mem_of_mem_drop hMem)) hR₁
    obtain ⟨rfl, hAll⟩ := apply_ok hOp hApply
    exact ⟨r₂, .binary hLen hParen hOp hEval₁ hEval₂ (hAll u r₂), hR₂⟩

/-- Two machines that read tokens alike and can load no address both: if both
return, they return the same value and load nothing. -/
theorem Evals.agree {t : Target σ} {u : Target τ} {ts : List Token} {s s' : σ} {r r' : τ}
    {v w : Word} (h : Evals t ts s v s') (h' : Evals u ts r w r')
    (hTok : ∀ tok ∈ ts, t.single tok s = u.single tok r)
    (hLoad : ∀ addr p q, t.load addr s = .ok p → u.load addr r = .ok q → False) :
    v = w ∧ s' = s ∧ r' = r := by
  induction h generalizing w r' with
  | single tok s =>
    cases h' with
    | single => exact ⟨hTok tok (by simp), rfl, rfl⟩
    | paren hLen | deref hLen | binary hLen => simp at hLen
  | paren hLen hParen h ih =>
    cases h' with
    | single => simp at hLen
    | paren _ _ h' =>
      exact ih h' (fun tok hMem =>
        hTok tok (List.mem_of_mem_drop (List.mem_of_mem_dropLast hMem))) hLoad
    | deref _ hParen' | binary _ hParen' => simp [hParen] at hParen'
  | deref hLen hParen hOp h hl ih =>
    cases h' with
    | single => simp at hLen
    | paren _ hParen' => simp [hParen] at hParen'
    | deref _ _ _ h' hl' =>
      obtain ⟨rfl, rfl, rfl⟩ := ih h' (fun tok hMem => hTok tok (List.mem_of_mem_drop hMem)) hLoad
      exact absurd (hLoad _ _ _ hl hl') id
    | binary _ _ hOp' => exact absurd hOp hOp'
  | binary hLen hParen hOp hl hr hApply ihl ihr =>
    cases h' with
    | single => simp at hLen
    | paren _ hParen' => simp [hParen] at hParen'
    | deref _ _ hOp' => exact absurd hOp' hOp
    | binary _ _ _ hl' hr' hApply' =>
      obtain ⟨rfl, rfl, rfl⟩ := ihl hl' (fun tok hMem => hTok tok (List.mem_of_mem_take hMem)) hLoad
      obtain ⟨rfl, rfl, rfl⟩ := ihr hr' (fun tok hMem => hTok tok (List.mem_of_mem_drop hMem)) hLoad
      obtain ⟨rfl, hAll⟩ := apply_ok hOp hApply
      rw [hAll] at hApply'
      cases hApply'
      exact ⟨rfl, rfl, rfl⟩

/-! ## The addresses an expression reads -/

/-- `t`, keeping a list of the addresses it loads. -/
def Target.logged (t : Target σ) : Target (σ × List Word) where
  pc s := t.pc s.1
  gpr s := t.gpr s.1
  load addr s := (t.load addr s.1).map fun r => (r.1, r.2, s.2 ++ [addr])

theorem logged_load_ok {t : Target σ} {addr v : Word} {r r' : σ × List Word}
    (h : t.logged.load addr r = .ok (v, r')) :
    t.load addr r.1 = .ok (v, r'.1) ∧ r'.2 = r.2 ++ [addr] := by
  simp only [Target.logged] at h
  cases hl : t.load addr r.1 with
  | error f =>
    rw [hl] at h
    cases h
  | ok p =>
    rw [hl] at h
    cases h
    exact ⟨rfl, rfl⟩

/-- The log only grows. -/
theorem Evals.log_grows {t : Target σ} {ts : List Token} {x y : σ × List Word} {v : Word}
    (h : Evals t.logged ts x v y) : x.2 <+: y.2 := by
  refine h.invariant (I := fun z => x.2 <+: z.2) ?_ (List.prefix_refl _)
  intro addr v z z' hl hI
  rw [(logged_load_ok hl).2]
  exact hI.trans (List.prefix_append _ _)

/-- A machine that follows `t` at the addresses in `P` follows an evaluation
that reads no others. -/
theorem Evals.simulateOn {t : Target σ} {u : Target τ} {P : Word → Prop}
    {R : σ × List Word → τ → Prop} {ts : List Token} {x y : σ × List Word} {r : τ} {v : Word}
    (h : Evals t.logged ts x v y) (hLog : ∀ a ∈ y.2, P a)
    (hTok : ∀ tok ∈ ts, ∀ x r, R x r → t.single tok x.1 = u.single tok r)
    (hLoad : ∀ {addr v : Word} {x : σ × List Word} {s' : σ} {r : τ}, P addr →
      t.load addr x.1 = .ok (v, s') → R x r →
      ∃ r', u.load addr r = .ok (v, r') ∧ R (s', x.2 ++ [addr]) r')
    (hR : R x r) : ∃ r', Evals u ts r v r' ∧ R y r' := by
  induction h generalizing r with
  | single tok x =>
    have hSame : t.logged.single tok x = u.single tok r := hTok tok (by simp) x r hR
    rw [hSame]
    exact ⟨r, .single tok r, hR⟩
  | paren hLen hParen h ih =>
    obtain ⟨r', hEval, hR'⟩ := ih hLog
      (fun tok hMem => hTok tok (List.mem_of_mem_drop (List.mem_of_mem_dropLast hMem))) hR
    exact ⟨r', .paren hLen hParen hEval, hR'⟩
  | @deref ts x x' y v addr hLen hParen hOp h hl ih =>
    obtain ⟨hl, hEq⟩ := logged_load_ok hl
    rw [hEq] at hLog
    obtain ⟨r', hEval, hR'⟩ := ih (fun a ha => hLog a (by simp [ha]))
      (fun tok hMem => hTok tok (List.mem_of_mem_drop hMem)) hR
    obtain ⟨r'', hl', hR''⟩ := hLoad (hLog addr (by simp)) hl hR'
    rw [← hEq] at hR''
    exact ⟨r'', .deref hLen hParen hOp hEval hl', hR''⟩
  | binary hLen hParen hOp hl hr hApply ihl ihr =>
    obtain ⟨rfl, hAll⟩ := apply_ok hOp hApply
    obtain ⟨r₁, hEval₁, hR₁⟩ := ihl (fun a ha => hLog a (hr.log_grows.subset ha))
      (fun tok hMem => hTok tok (List.mem_of_mem_take hMem)) hR
    obtain ⟨r₂, hEval₂, hR₂⟩ := ihr hLog
      (fun tok hMem => hTok tok (List.mem_of_mem_drop hMem)) hR₁
    exact ⟨r₂, .binary hLen hParen hOp hEval₁ hEval₂ (hAll u r₂), hR₂⟩

/-- The addresses that `expr` dereferences, in order. -/
def derefs (t : Target σ) (e : List Char) (s : σ) : List Word :=
  match expr t.logged e false (s, []) with
  | .ok r => r.2.2
  | .error _ => []

section Expr

variable {t : Target σ} {e : List Char} {b b' : Bool} {s s' : σ} {v : Word}

theorem expr_ok (h : expr t e b s = .ok ((v, b'), s')) :
    (makeToken e = .ok none ∧ v = 0 ∧ b' = false ∧ s' = s) ∨
      ∃ tokens, makeToken e = .ok (some tokens) ∧ b' = b ∧ Evals t tokens s v s' := by
  obtain ⟨res, hTok, h⟩ := bind_ok h
  cases res with
  | none =>
    cases h
    exact .inl ⟨hTok, rfl, rfl, rfl⟩
  | some tokens =>
    obtain ⟨r, hEval, h⟩ := bind_ok h
    cases h
    exact .inr ⟨tokens, hTok, rfl, eval_eq_ok_iff.1 hEval⟩

theorem expr_of_evals {tokens : List Token} (hTok : makeToken e = .ok (some tokens))
    (h : Evals t tokens s v s') (b : Bool) : expr t e b s = .ok ((v, b), s') := by
  rw [expr_of_makeToken t s hTok, eval_eq_ok_iff.2 h]
  rfl

theorem expr_of_makeToken_none (hTok : makeToken e = .ok none) :
    expr t e b s = .ok ((0, false), s) := by
  rw [expr, hTok]
  rfl

/-- `derefs` is the log of the evaluation. -/
theorem evals_logged {tokens : List Token} (hTok : makeToken e = .ok (some tokens))
    (h : Evals t tokens s v s') : Evals t.logged tokens (s, []) v (s', derefs t e s) := by
  obtain ⟨⟨s'', l⟩, hLogged, hEq⟩ := h.simulate (u := t.logged) (r := (s, []))
    (R := fun s r => r.1 = s) (fun tok _ s r hR => by subst hR; rfl) (by
      rintro addr v s s' r hl rfl
      exact ⟨(s', r.2 ++ [addr]), by simp [Target.logged, hl, Except.map], rfl⟩) rfl
  obtain rfl : s'' = s' := hEq
  have hDerefs : derefs t e s = l := by rw [derefs, expr_of_evals hTok hLogged]
  rw [hDerefs]
  exact hLogged

theorem derefs_of_makeToken_none (hTok : makeToken e = .ok none) : derefs t e s = [] := by
  rw [derefs, expr_of_makeToken_none hTok]

/-- What holds of the state and the addresses so far, and goes on holding with
every load, holds of the final state and `derefs`. -/
theorem derefs_invariant {I : σ → List Word → Prop} (h : expr t e b s = .ok ((v, b'), s'))
    (hLoad : ∀ {addr v : Word} {s s' : σ} {l : List Word}, t.load addr s = .ok (v, s') → I s l →
      I s' (l ++ [addr]))
    (hs : I s []) : I s' (derefs t e s) := by
  rcases expr_ok h with ⟨hTok, -, -, rfl⟩ | ⟨tokens, hTok, -, hEval⟩
  · rw [derefs_of_makeToken_none hTok]
    exact hs
  · refine (evals_logged hTok hEval).invariant (I := fun r => I r.1 r.2) ?_ hs
    intro addr v r r' hl hI
    obtain ⟨hl, hLog⟩ := logged_load_ok hl
    rw [hLog]
    exact hLoad hl hI

end Expr

/-! ## One dereference -/

theorem makeToken_star (n : Numeral) :
    makeToken ('*' :: n.text) = .ok (some [⟨.deref, []⟩, (Lexeme.num n).token]) := by
  have hText : n.text = spell [(0, .num n)] ++ [] := by simp [spell, blanks, Lexeme.text]
  have hStar : scan (['*'] ++ n.text) [] = scan n.text [⟨.deref, []⟩] :=
    scan_step (firstMatch_op .mul n.text) (by decide) rfl
  have hNum : scan (spell [(0, .num n)] ++ []) [⟨.deref, []⟩] =
      scan [] ([⟨.deref, []⟩] ++ [(Lexeme.num n).token]) :=
    @scan_spell _ false true _ _ (by simp) rfl (fun _ c hc => by cases hc) (fun h => by cases h)
      (by simp [maxTokens])
  rw [makeToken, ← List.singleton_append, hStar, hText, hNum, scan_nil]
  rfl

/-- `*` in front of a numeral reads the word there. -/
theorem expr_star (t : Target σ) (n : Numeral) (b : Bool) (s : σ) :
    expr t ('*' :: n.text) b s =
      (t.load (BitVec.ofNat 32 n.value) s).map fun r => ((r.1, b), r.2) := by
  have hShape : Shape 100 [(Lexeme.num n).token] := .operand ((type_num n).imp_right .inl)
  rw [expr_of_makeToken t s (makeToken_star n), eval_deref t s rfl hShape (by decide),
    eval_singleton, single_num]
  rfl

theorem derefs_star {t : Target σ} {n : Numeral} {s s' : σ} {v : Word}
    (h : t.load (BitVec.ofNat 32 n.value) s = .ok (v, s')) :
    derefs t ('*' :: n.text) s = [BitVec.ofNat 32 n.value] := by
  rw [derefs, expr_star]
  simp [Target.logged, h, Except.map]

end Riscv32.Sdb
