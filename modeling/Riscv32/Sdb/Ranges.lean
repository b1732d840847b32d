import Riscv32.Sdb.Evaluation

/-!
# Evaluation over the token array

`check_parentheses`, `find_op_position` and `eval` on positions of the token
array, with the recursive calls written down as they are made.  Whatever the
tokens are, the operator lies in the range, every call is on a shorter part of
its caller's range, and the run ends as `eval` on the list of the tokens does.

`evalAt` has fuel and a log of its calls (`EvalRun`), so termination can be stated:
with fuel for the length of the range the run ends, after at most two calls for
each token (`evalAt_ends`).

`eval_terminates` collects this for every array and range; the list evaluator of
`Sdb.Expr` is thereby the code's.
-/

namespace Riscv32.Sdb

open Riscv32.Rtl

/-- `tokens`; positions are far from the ends of `int`. -/
abbrev TokenArray := Int → Token

variable (tokens : TokenArray)

/-! ## Functions over positions -/

/-- The loop of `check_parentheses` from `i` on, `n` turns; `none` if it returns `false`. -/
def parenScanAt : Nat → Int → Int → Option Int
  | 0, _, cnt => some cnt
  | n + 1, i, cnt =>
    if nest cnt (tokens i) = 0 then none else parenScanAt n (i + 1) (nest cnt (tokens i))

/-- `check_parentheses`. -/
def checkParenthesesAt (p q : Int) : Except Fault Bool :=
  if (tokens p).type ≠ .lparen ∨ (tokens q).type ≠ .rparen then .ok false
  else
    match parenScanAt tokens (q - p).toNat p 0 with
    | none => .ok false
    | some cnt =>
      if (tokens q).type ≠ .rparen then .error .parentheses
      else if cnt = 1 then .ok true
      else .error .parentheses

/-- The locals of `find_op_position`; `op` is `none` for `-1`. -/
structure OpSearch where
  cnt : Int
  position : Int
  op : Option TokenType

/-- One turn of the loop of `find_op_position`. -/
def OpSearch.turn (i : Int) (st : OpSearch) : OpSearch :=
  let found := st.cnt = 0 ∧ prec (tokens i).type ≤ st.op.elim 100 prec
  { cnt := nest st.cnt (tokens i)
    position := if found then i else st.position
    op := if found then some (tokens i).type else st.op }

/-- The loop from `i` on, `n` turns. -/
def opScanAt : Nat → Int → OpSearch → OpSearch
  | 0, _, st => st
  | n + 1, i, st => opScanAt n (i + 1) (st.turn tokens i)

/-- `find_op_position`. -/
def findOpPositionAt (p q : Int) : Int :=
  (opScanAt tokens (q - p + 1).toNat p ⟨0, 0, none⟩).position

/-- A recursive call of `eval`: the range of the caller and the range it passes. -/
structure Call where
  caller : Int × Int
  callee : Int × Int

/-- A run on limited fuel: how it ends, and its recursive calls in order;
`none` if the fuel does not last. -/
abbrev EvalRun (α : Type) := Option (Except Fault α × List Call)

namespace EvalRun

variable {α β : Type}

/-- No call. -/
def done (r : Except Fault α) : EvalRun α := some (r, [])

/-- `x` is the run of a call. -/
def ofCall (c : Call) (x : EvalRun α) : EvalRun α := x.map fun r => (r.1, c :: r.2)

/-- `x`, and then what depends on its value. -/
def andThen (x : EvalRun α) (f : α → EvalRun β) : EvalRun β :=
  match x with
  | none => none
  | some (.error e, calls) => some (.error e, calls)
  | some (.ok a, calls) => (f a).map fun r => (r.1, calls ++ r.2)

end EvalRun

section Evaluator

variable {σ : Type} (t : Target σ)

/-- `eval`; `val1` is left unset for a dereference. -/
def evalAt : Nat → Int → Int → σ → EvalRun (Word × σ)
  | 0, _, _, _ => none
  | fuel + 1, p, q, s =>
    if p > q then .done (.error .badExpression)
    else if p = q then .done (.ok (t.single (tokens p) s, s))
    else
      (EvalRun.done (checkParenthesesAt tokens p q)).andThen fun enclosed =>
        if enclosed then .ofCall ⟨(p, q), (p + 1, q - 1)⟩ (evalAt fuel (p + 1) (q - 1) s)
        else
          let op := findOpPositionAt tokens p q
          let opType := (tokens op).type
          (if opType = .deref then .done (.ok (0, s))
            else EvalRun.ofCall ⟨(p, q), (p, op - 1)⟩ (evalAt fuel p (op - 1) s)).andThen
          fun val1 =>
          (EvalRun.ofCall ⟨(p, q), (op + 1, q)⟩ (evalAt fuel (op + 1) q val1.2)).andThen fun val2 =>
          .done (t.apply opType val1.1 val2.1 val2.2)

end Evaluator

/-! ## Ranges as lists -/

/-- `n` tokens from `p` on. -/
def window : Int → Nat → List Token
  | _, 0 => []
  | p, n + 1 => tokens p :: window (p + 1) n

/-- The tokens `p..q`. -/
def tokenRange (p q : Int) : List Token := window tokens p (q - p + 1).toNat

@[simp] theorem length_window (p : Int) (n : Nat) : (window tokens p n).length = n := by
  induction n generalizing p with
  | zero => rfl
  | succ n ih => rw [window, List.length_cons, ih]

theorem getElem?_window (p : Int) {n k : Nat} (hk : k < n) :
    (window tokens p n)[k]? = some (tokens (p + k)) := by
  induction n generalizing p k with
  | zero => exact absurd hk (Nat.not_lt_zero k)
  | succ n ih =>
      cases k with
      | zero => rw [window, List.getElem?_cons_zero, Nat.cast_zero, Int.add_zero]
      | succ k =>
          rw [window, List.getElem?_cons_succ, ih (p + 1) (by omega)]
          congr 2
          push_cast
          omega

theorem take_window (p : Int) {n k : Nat} (hk : k ≤ n) :
    (window tokens p n).take k = window tokens p k := by
  induction n generalizing p k with
  | zero => rw [Nat.le_zero.1 hk, List.take_zero, window]
  | succ n ih =>
      cases k with
      | zero => rfl
      | succ k => rw [window, window, List.take_succ_cons, ih (p + 1) (by omega)]

theorem drop_window (p : Int) (n k : Nat) :
    (window tokens p n).drop k = window tokens (p + k) (n - k) := by
  induction n generalizing p k with
  | zero => rw [window, List.drop_nil, Nat.zero_sub, window]
  | succ n ih =>
      cases k with
      | zero => rw [List.drop_zero, Nat.cast_zero, Int.add_zero, Nat.sub_zero]
      | succ k =>
          rw [window, List.drop_succ_cons, ih, Nat.succ_sub_succ]
          congr 1
          push_cast
          omega

theorem length_tokenRange (p q : Int) : (tokenRange tokens p q).length = (q - p + 1).toNat :=
  length_window tokens p _

section Loops

variable {tokens} {p q : Int}

theorem getElem?_tokenRange {i : Int} (hLow : p ≤ i) (hHigh : i ≤ q) :
    (tokenRange tokens p q)[(i - p).toNat]? = some (tokens i) := by
  rw [tokenRange, getElem?_window tokens p (by omega)]
  congr 2
  omega

theorem take_tokenRange {i : Int} (hLow : p ≤ i) (hHigh : i ≤ q) :
    (tokenRange tokens p q).take (i - p).toNat = tokenRange tokens p (i - 1) := by
  rw [tokenRange, take_window tokens p (by omega), tokenRange]
  congr 2
  omega

theorem drop_tokenRange {i : Int} (hLow : p ≤ i) :
    (tokenRange tokens p q).drop (i - p).toNat = tokenRange tokens i q := by
  rw [tokenRange, drop_window, tokenRange]
  congr 1 <;> omega

theorem dropLast_tokenRange (h : p ≤ q) :
    (tokenRange tokens p q).dropLast = tokenRange tokens p (q - 1) := by
  rw [List.dropLast_eq_take, length_tokenRange, ← take_tokenRange h (Int.le_refl q)]
  congr 1
  omega

theorem head?_tokenRange (h : p ≤ q) : (tokenRange tokens p q).head? = some (tokens p) := by
  rw [List.head?_eq_getElem?, ← getElem?_tokenRange (Int.le_refl p) h]
  congr 1
  omega

theorem getLast?_tokenRange (h : p ≤ q) : (tokenRange tokens p q).getLast? = some (tokens q) := by
  rw [List.getLast?_eq_getElem?, length_tokenRange, ← getElem?_tokenRange h (Int.le_refl q)]
  congr 1
  omega

theorem parenScanAt_eq (n : Nat) (i cnt : Int) :
    parenScanAt tokens n i cnt = parenScan (window tokens i n) cnt := by
  induction n generalizing i cnt with
  | zero => rfl
  | succ n ih => rw [parenScanAt, window, parenScan, ih]

theorem checkParenthesesAt_eq (h : p ≤ q) :
    checkParenthesesAt tokens p q = checkParentheses (tokenRange tokens p q) := by
  have hScan : parenScanAt tokens (q - p).toNat p 0 =
      parenScan (tokenRange tokens p q).dropLast 0 := by
    rw [dropLast_tokenRange h, tokenRange, parenScanAt_eq]
    congr 2
    omega
  rw [checkParenthesesAt, checkParentheses, head?_tokenRange h, getLast?_tokenRange h, hScan]
  by_cases hEnds : (tokens p).type ≠ .lparen ∨ (tokens q).type ≠ .rparen
  · rw [if_pos hEnds, if_pos (by simpa using hEnds)]
  · -- the second look at `tokens[q]` finds what the first one found
    rw [if_neg hEnds, if_neg (by simpa using hEnds)]
    cases parenScan (tokenRange tokens p q).dropLast 0 with
    | none => rfl
    | some cnt => exact if_neg fun hBad => hEnds (.inr hBad)

/-- A search at the place of a list search that began at `p`. -/
def OpScan.at (st : OpScan) (p : Int) : OpSearch := ⟨st.cnt, p + st.position, st.op⟩

theorem turn_at (st : OpScan) {i : Int} (hi : i = p + st.i) :
    (st.at p).turn tokens i = (st.step (tokens i)).at p := by
  subst hi
  by_cases hFound : st.cnt = 0 ∧ prec (tokens (p + st.i)).type ≤ st.op.elim 100 prec
  · simp [OpSearch.turn, OpScan.at, OpScan.step, OpScan.prec, hFound]
  · simp [OpSearch.turn, OpScan.at, OpScan.step, OpScan.prec, hFound]

theorem opScanAt_at (n : Nat) (st : OpScan) {i : Int} (hi : i = p + st.i) :
    opScanAt tokens n i (st.at p) = ((window tokens i n).foldl OpScan.step st).at p := by
  induction n generalizing i st with
  | zero => rfl
  | succ n ih =>
      have hNext : i + 1 = p + ((st.step (tokens i)).i : Nat) := by
        rw [step_i, hi]
        push_cast
        omega
      rw [opScanAt, turn_at st hi, ih _ hNext, window, List.foldl_cons]

theorem prec_le (ty : TokenType) : prec ty ≤ 100 := by cases ty <;> decide

/-- The first turn takes the first token, so the default 0 is never returned. -/
theorem turn_first (p : Int) :
    OpSearch.turn tokens p ⟨0, 0, none⟩ = (opStart.step (tokens p)).at p := by
  simp [OpSearch.turn, OpScan.at, OpScan.step, OpScan.prec, opStart, prec_le]

theorem findOpPositionAt_eq (h : p ≤ q) :
    findOpPositionAt tokens p q = p + findOpPosition (tokenRange tokens p q) := by
  obtain ⟨n, hn⟩ : ∃ n, (q - p + 1).toNat = n + 1 := ⟨(q - p).toNat, by omega⟩
  have hRest : opScanAt tokens n (p + 1) ((opStart.step (tokens p)).at p) = _ :=
    opScanAt_at n (opStart.step (tokens p)) (by rw [step_i]; rfl)
  rw [findOpPositionAt, findOpPosition, tokenRange, hn, opScanAt, turn_first, hRest]
  rfl

/-- The operator lies in the range, whatever the tokens are. -/
theorem findOpPositionAt_mem (tokens : TokenArray) (h : p ≤ q) :
    p ≤ findOpPositionAt tokens p q ∧ findOpPositionAt tokens p q ≤ q := by
  have hLength := length_tokenRange tokens p q
  have hLt : findOpPosition (tokenRange tokens p q) < (tokenRange tokens p q).length :=
    findOpPosition_lt (by omega)
  rw [findOpPositionAt_eq h]
  omega

end Loops

/-! ## Runs that end -/

/-- The call passes a shorter part of the caller's range. -/
def Call.Shrinks (c : Call) : Prop :=
  c.caller.1 ≤ c.callee.1 ∧ c.callee.2 ≤ c.caller.2 ∧
    c.callee.2 - c.callee.1 < c.caller.2 - c.caller.1

namespace EvalRun

variable {α β : Type} {m n : Nat}

/-- The run ends as `r` does, after at most `n` calls, each on a shorter range. -/
def Ends (x : EvalRun α) (r : Except Fault α) (n : Nat) : Prop :=
  ∃ calls, x = some (r, calls) ∧ (∀ c ∈ calls, c.Shrinks) ∧ calls.length ≤ n

theorem done_ends (r : Except Fault α) : (done r).Ends r n := ⟨[], rfl, by simp, Nat.zero_le n⟩

theorem Ends.mono {x : EvalRun α} {r : Except Fault α} (h : x.Ends r m) (hLe : m ≤ n) :
    x.Ends r n := by
  obtain ⟨calls, hRun, hShrinks, hLen⟩ := h
  exact ⟨calls, hRun, hShrinks, Nat.le_trans hLen hLe⟩

theorem Ends.ofCall {x : EvalRun α} {r : Except Fault α} {c : Call} (h : x.Ends r n)
    (hCall : c.Shrinks) : (ofCall c x).Ends r (n + 1) := by
  obtain ⟨calls, rfl, hShrinks, hLen⟩ := h
  exact ⟨c :: calls, rfl, List.forall_mem_cons.2 ⟨hCall, hShrinks⟩, Nat.succ_le_succ hLen⟩

/-- A run in two parts: the second is run only if the first returns. -/
theorem Ends.andThen {x : EvalRun α} {r : Except Fault α} {f : α → EvalRun β}
    {g : α → Except Fault β} (h : x.Ends r m) (hNext : ∀ a, r = .ok a → (f a).Ends (g a) n) :
    (x.andThen f).Ends (r >>= g) (m + n) := by
  obtain ⟨calls, rfl, hShrinks, hLen⟩ := h
  cases r with
  | error e => exact ⟨calls, rfl, hShrinks, Nat.le_add_right_of_le hLen⟩
  | ok a =>
      obtain ⟨later, hRun, hLater, hMore⟩ := hNext a rfl
      refine ⟨calls ++ later, ?_, ?_, ?_⟩
      · show (f a).map _ = _
        rw [hRun]
        rfl
      · intro c hc
        exact (List.mem_append.1 hc).elim (hShrinks c) (hLater c)
      · rw [List.length_append]
        omega

end EvalRun

section Evaluator

variable {σ : Type} (t : Target σ)

/-- The parts `eval` takes of a range, on the list and on the array. -/
theorem parts_tokenRange {p q : Int} (h : p < q) :
    ((tokenRange tokens p q).drop 1).dropLast = tokenRange tokens (p + 1) (q - 1) ∧
      typeAt (tokenRange tokens p q) (findOpPosition (tokenRange tokens p q)) =
        (tokens (findOpPositionAt tokens p q)).type ∧
      (tokenRange tokens p q).take (findOpPosition (tokenRange tokens p q)) =
        tokenRange tokens p (findOpPositionAt tokens p q - 1) ∧
      (tokenRange tokens p q).drop (findOpPosition (tokenRange tokens p q) + 1) =
        tokenRange tokens (findOpPositionAt tokens p q + 1) q := by
  obtain ⟨hLow, hHigh⟩ := findOpPositionAt_mem tokens (Int.le_of_lt h)
  have hAt : findOpPosition (tokenRange tokens p q) = (findOpPositionAt tokens p q - p).toNat := by
    rw [findOpPositionAt_eq (Int.le_of_lt h)]
    omega
  refine ⟨?_, ?_, ?_, ?_⟩
  · have hTail : (tokenRange tokens p q).drop (p + 1 - p).toNat = tokenRange tokens (p + 1) q :=
      drop_tokenRange (by omega)
    rw [show (p + 1 - p).toNat = 1 by omega] at hTail
    rw [hTail, dropLast_tokenRange (by omega)]
  · rw [typeAt, hAt, getElem?_tokenRange hLow hHigh]
    rfl
  · rw [hAt, take_tokenRange hLow hHigh]
  · have hTail : (tokenRange tokens p q).drop (findOpPositionAt tokens p q + 1 - p).toNat =
        tokenRange tokens (findOpPositionAt tokens p q + 1) q := drop_tokenRange (by omega)
    rw [← hTail, hAt]
    congr 1
    omega

/-- A split at `op`: both calls shrink, and so few calls are made around them. -/
theorem split_ends {fuel : Nat} {p q op : Int} (s : σ) (hLow : p ≤ op) (hHigh : op ≤ q)
    (hLeft : (evalAt tokens t fuel p (op - 1) s).Ends (eval t (tokenRange tokens p (op - 1)) s)
      (2 * (op - p).toNat))
    (hRight : ∀ r, (evalAt tokens t fuel (op + 1) q r).Ends
      (eval t (tokenRange tokens (op + 1) q) r) (2 * (q - op).toNat)) :
    ((if (tokens op).type = .deref then EvalRun.done (.ok (0, s))
      else EvalRun.ofCall ⟨(p, q), (p, op - 1)⟩ (evalAt tokens t fuel p (op - 1) s)).andThen
        fun val1 => (EvalRun.ofCall ⟨(p, q), (op + 1, q)⟩
          (evalAt tokens t fuel (op + 1) q val1.2)).andThen
          fun val2 => .done (t.apply (tokens op).type val1.1 val2.1 val2.2)).Ends
      (do
        let val1 ← (if (tokens op).type = .deref then .ok (0, s)
          else eval t (tokenRange tokens p (op - 1)) s)
        let val2 ← eval t (tokenRange tokens (op + 1) q) val1.2
        t.apply (tokens op).type val1.1 val2.1 val2.2)
      (2 * (q - p + 1).toNat) := by
  have hFirst : Call.Shrinks ⟨(p, q), (p, op - 1)⟩ := by
    show p ≤ p ∧ op - 1 ≤ q ∧ op - 1 - p < q - p
    omega
  have hSecond : Call.Shrinks ⟨(p, q), (op + 1, q)⟩ := by
    show p ≤ op + 1 ∧ q ≤ q ∧ q - (op + 1) < q - p
    omega
  have hVal1 : EvalRun.Ends (if (tokens op).type = .deref then .done (.ok (0, s))
      else .ofCall ⟨(p, q), (p, op - 1)⟩ (evalAt tokens t fuel p (op - 1) s))
      (if (tokens op).type = .deref then .ok (0, s) else eval t (tokenRange tokens p (op - 1)) s)
      (2 * (op - p).toNat + 1) := by
    split
    · exact EvalRun.done_ends _
    · exact hLeft.ofCall hFirst
  exact (hVal1.andThen fun val1 _ => ((hRight val1.2).ofCall hSecond).andThen (n := 0) fun _ _ =>
    EvalRun.done_ends _).mono (by omega)

/-- With fuel for the length of the range, a run ends as the list evaluator
does, after at most two calls for each token. -/
theorem evalAt_ends (fuel : Nat) {p q : Int} (s : σ) (hRange : p ≤ q + 1)
    (hFuel : (q - p + 1).toNat < fuel) :
    (evalAt tokens t fuel p q s).Ends (eval t (tokenRange tokens p q) s)
      (2 * (q - p + 1).toNat) := by
  induction fuel generalizing p q s with
  | zero => exact absurd hFuel (Nat.not_lt_zero _)
  | succ fuel ih =>
      have hLength := length_tokenRange tokens p q
      rw [evalAt, eval]
      by_cases hNone : p > q
      · rw [if_pos hNone, dif_pos (by omega)]
        exact EvalRun.done_ends _
      · by_cases hOne : p = q
        · subst hOne
          rw [if_neg hNone, if_pos rfl, dif_neg (by omega), if_pos (by omega),
            head?_tokenRange (Int.le_refl p)]
          exact EvalRun.done_ends _
        · obtain ⟨hInner, hType, hLeft, hRight⟩ := parts_tokenRange tokens (show p < q by omega)
          obtain ⟨hLow, hHigh⟩ := findOpPositionAt_mem tokens (show p ≤ q by omega)
          rw [if_neg hNone, if_neg hOne, dif_neg (by omega), if_neg (by omega),
            checkParenthesesAt_eq (by omega), hInner]
          -- no call is made before `check_parentheses` has returned
          refine EvalRun.Ends.mono (m := 0 + 2 * (q - p + 1).toNat)
            ((EvalRun.done_ends _).andThen fun enclosed _ => ?_) (by omega)
          cases enclosed with
          | true =>
              have hCall : Call.Shrinks ⟨(p, q), (p + 1, q - 1)⟩ := by
                show p ≤ p + 1 ∧ q - 1 ≤ q ∧ q - 1 - (p + 1) < q - p
                omega
              exact ((ih s (by omega) (by omega)).ofCall hCall).mono (by omega)
          | false =>
              rw [if_neg Bool.false_ne_true, if_neg Bool.false_ne_true]
              dsimp only
              rw [hType, hLeft, hRight]
              generalize findOpPositionAt tokens p q = op at hLow hHigh
              exact split_ends tokens t s hLow hHigh ((ih s (by omega) (by omega)).mono (by omega))
                fun r => (ih r (by omega) (by omega)).mono (by omega)

/--
**Evaluation terminates**: whatever the tokens are, the operator lies in the
range, and `eval` ends, as the list evaluator does, after at most two calls
for each token, each on a shorter part of its caller's range.
-/
theorem eval_terminates (s : σ) {p q : Int} (h : p ≤ q) :
    (p ≤ findOpPositionAt tokens p q ∧ findOpPositionAt tokens p q ≤ q) ∧
      ∀ fuel, (q - p + 1).toNat < fuel →
        (evalAt tokens t fuel p q s).Ends (eval t (tokenRange tokens p q) s)
          (2 * (q - p + 1).toNat) :=
  ⟨findOpPositionAt_mem tokens h, fun fuel hFuel => evalAt_ends tokens t fuel s (by omega) hFuel⟩

end Evaluator

/-- Closing parentheses only: the counter of `find_op_position` goes negative. -/
def closers : TokenArray := fun _ => ⟨.rparen, []⟩

theorem eval_terminates_closers :
    (3 ≤ findOpPositionAt closers 3 7 ∧ findOpPositionAt closers 3 7 ≤ 7) ∧
      (evalAt closers tenfold 6 3 7 ()).Ends (eval tenfold (tokenRange closers 3 7) ()) 10 :=
  have hEnds := eval_terminates closers tenfold () (show (3 : Int) ≤ 7 by decide)
  ⟨hEnds.1, hEnds.2 6 (by decide)⟩

end Riscv32.Sdb
