import Riscv32.Sdb.Expr

/-!
# Where a range splits

Token lists in the shape of an expression: weaker operators, and right operands
of the same precedence, stand in parentheses.  The scan of `check_parentheses`
returns to nesting zero inside `(a)+(b)` but not inside `(a)`, and the last
operator of least precedence outside parentheses is the root, so `eval` takes
such a list apart the way it was put together.

`Shape` is about tokens and knows no trees; the two languages of the debugger, with
and without relations, both produce lists of this shape.  Its number is the least
precedence outside parentheses, which is all that `find_op_position` compares.

`eval_binary` is what the languages use.
-/

namespace Riscv32.Sdb

open Riscv32.Rtl

/-- An expression's tokens; the number is the least precedence outside
parentheses, 100 without an operator there. -/
inductive Shape : Nat → List Token → Prop
  | operand {tok : Token}
      (hType : tok.type = .dec ∨ tok.type = .hex ∨ tok.type = .dollar) : Shape 100 [tok]
  | paren {k : Nat} {ts : List Token} {first last : Token} (hFirst : first.type = .lparen)
      (hLast : last.type = .rparen) (h : Shape k ts) : Shape 100 (first :: (ts ++ [last]))
  | deref {k : Nat} {ts : List Token} {tok : Token} (hType : tok.type = .deref) (h : Shape k ts)
      (hk : 6 < k) : Shape 6 (tok :: ts)
  | binary {j k : Nat} {l r : List Token} {tok : Token} (hPrec : prec tok.type ≤ 5)
      (hl : Shape j l) (hj : prec tok.type ≤ j) (hr : Shape k r) (hk : prec tok.type < k) :
      Shape (prec tok.type) (l ++ tok :: r)

section Shape

variable {k : Nat} {ts : List Token}

theorem Shape.length_pos (h : Shape k ts) : 0 < ts.length := by
  cases h with
  | operand | paren | deref => simp
  | binary => simp only [List.length_append, List.length_cons]; omega

/-! ## Nesting -/

/-- Operands and operators leave the nesting alone. -/
theorem nest_eq {tok : Token} (hl : tok.type ≠ .lparen) (hr : tok.type ≠ .rparen) (cnt : Int) :
    nest cnt tok = cnt := by
  unfold nest
  split
  · exact absurd ‹_› hl
  · exact absurd ‹_› hr
  · rfl

/-- Operands leave the nesting as it is. -/
theorem nest_operand {tok : Token} (h : tok.type = .dec ∨ tok.type = .hex ∨ tok.type = .dollar)
    (cnt : Int) : nest cnt tok = cnt := by
  rcases h with h | h | h <;> exact nest_eq (by simp [h]) (by simp [h]) cnt

/-- So do operators. -/
theorem nest_of_prec_lt {tok : Token} (h : prec tok.type < 100) (cnt : Int) :
    nest cnt tok = cnt := by
  refine nest_eq ?_ ?_ cnt
  · intro hType
    simp [hType, prec] at h
  · intro hType
    simp [hType, prec] at h

theorem nest_open {tok : Token} (h : tok.type = .lparen) (cnt : Int) :
    nest cnt tok = cnt + 1 := by
  simp [nest, h]

theorem nest_close {tok : Token} (h : tok.type = .rparen) (cnt : Int) :
    nest cnt tok = cnt - 1 := by
  simp [nest, h]

/-- The parentheses are balanced. -/
theorem Shape.foldl_nest (h : Shape k ts) (cnt : Int) : ts.foldl nest cnt = cnt := by
  induction h generalizing cnt with
  | operand hType => exact nest_operand hType cnt
  | paren hFirst hLast _ ih =>
    simp [nest_open hFirst, nest_close hLast, ih]
  | deref hType _ _ ih =>
    rw [List.foldl_cons, ih]
    exact nest_of_prec_lt (by simp [hType, prec]) cnt
  | binary hPrec _ _ _ _ ihl ihr =>
    rw [List.foldl_append, List.foldl_cons, ihl, ihr]
    exact nest_of_prec_lt (by omega) cnt

/-- The bracket scan over two lists. -/
theorem parenScan_append (ts us : List Token) (cnt : Int) :
    parenScan (ts ++ us) cnt = (parenScan ts cnt).bind (parenScan us) := by
  induction ts generalizing cnt with
  | nil => rfl
  | cons tok ts ih =>
    simp only [List.cons_append, parenScan]
    split
    · rfl
    · exact ih _

/-- A scan that is not cut short counts the parentheses and ends away from zero. -/
theorem parenScan_some {ts : List Token} {cnt d : Int} (h : parenScan ts cnt = some d) :
    d = ts.foldl nest cnt ∧ (0 < ts.length → d ≠ 0) := by
  induction ts generalizing cnt with
  | nil =>
    cases h
    simp
  | cons tok ts ih =>
    simp only [parenScan] at h
    split at h
    case isTrue => cases h
    case isFalse hNe =>
      obtain ⟨hFold, hEnd⟩ := ih h
      refine ⟨hFold, fun _ => ?_⟩
      cases ts with
      | nil =>
        rw [hFold]
        exact hNe
      | cons => exact hEnd (by simp)

/-- Behind the first operand of `(a)+(b)` the nesting is zero. -/
theorem Shape.parenScan_operand (h : Shape k ts) (us : List Token) :
    parenScan (ts ++ us) 0 = none := by
  rw [parenScan_append]
  cases hScan : parenScan ts 0 with
  | none => rfl
  | some d =>
    obtain ⟨hFold, hEnd⟩ := parenScan_some hScan
    rw [h.foldl_nest] at hFold
    exact absurd hFold (hEnd h.length_pos)

/-- Inside parentheses the scan goes through. -/
theorem Shape.parenScan_nested (h : Shape k ts) {cnt : Int} (hCnt : 0 < cnt) :
    parenScan ts cnt = some cnt := by
  have hNe : cnt ≠ 0 := by omega
  induction h generalizing cnt with
  | operand hType => simp [parenScan, nest_operand hType, hNe]
  | paren hFirst hLast _ ih =>
    have hOpen : cnt + 1 ≠ 0 := by omega
    have hInner := ih (show 0 < cnt + 1 by omega) hOpen
    simp [parenScan, parenScan_append, nest_open hFirst, nest_close hLast, hOpen, hInner, hNe]
  | @deref _ _ tok hType _ _ ih =>
    have hNest : nest cnt tok = cnt := nest_of_prec_lt (by simp [hType, prec]) cnt
    simp [parenScan, hNest, hNe, ih hCnt hNe]
  | @binary _ _ _ _ tok hPrec _ _ _ _ ihl ihr =>
    have hNest : nest cnt tok = cnt := nest_of_prec_lt (by omega) cnt
    simp [parenScan, parenScan_append, ihl hCnt hNe, hNest, hNe, ihr hCnt hNe]

/-- A bracketed shape is stripped. -/
theorem checkParentheses_paren {first last : Token} (hFirst : first.type = .lparen)
    (hLast : last.type = .rparen) (h : Shape k ts) :
    checkParentheses (first :: (ts ++ [last])) = .ok true := by
  have hScan : parenScan (first :: (ts ++ [last])).dropLast 0 = some 1 := by
    rw [← List.cons_append, List.dropLast_concat]
    simp [parenScan, nest_open hFirst, h.parenScan_nested]
  have hEnd : (first :: (ts ++ [last])).getLast?.map Token.type = some .rparen := by
    rw [← List.cons_append, List.getLast?_concat, Option.map_some, hLast]
  rw [checkParentheses, hEnd, hScan]
  simp [hFirst]

/-- A binary one is not, even if it begins and ends with a bracket. -/
theorem checkParentheses_binary (h : Shape k ts) (tok : Token) (us : List Token) :
    checkParentheses (ts ++ tok :: us) = .ok false := by
  have hScan : parenScan (ts ++ tok :: us).dropLast 0 = none := by
    rw [List.dropLast_append_of_ne_nil (by simp)]
    exact h.parenScan_operand _
  unfold checkParentheses
  split
  · rfl
  · rw [hScan]

theorem checkParentheses_deref {tok : Token} (hType : tok.type = .deref) (us : List Token) :
    checkParentheses (tok :: us) = .ok false := by
  simp [checkParentheses, hType]

/-! ## The root operator -/

/-- Moves on without choosing. -/
def OpScan.pass (st : OpScan) (n : Nat) : OpScan := { st with i := st.i + n }

variable {st : OpScan}

@[simp] theorem step_cnt (st : OpScan) (tok : Token) : (st.step tok).cnt = nest st.cnt tok := by
  unfold OpScan.step
  split <;> rfl

/-- Inside brackets nothing is a candidate. -/
theorem step_of_nested (tok : Token) (h : st.cnt ≠ 0) :
    st.step tok = { st with i := st.i + 1, cnt := nest st.cnt tok } := by
  simp [OpScan.step, h]

/-- A token that binds tighter than the candidate is passed over. -/
theorem step_of_prec_lt {tok : Token} (h : st.prec < prec tok.type) :
    st.step tok = { st with i := st.i + 1, cnt := nest st.cnt tok } := by
  have hNot : ¬ (st.cnt = 0 ∧ prec tok.type ≤ st.prec) := by omega
  simp only [OpScan.step, if_neg hNot]

/-- One that binds no tighter becomes the candidate. -/
theorem step_of_prec_le (tok : Token) (hCnt : st.cnt = 0) (h : prec tok.type ≤ st.prec) :
    st.step tok = ⟨st.i + 1, nest 0 tok, st.i, some tok.type⟩ := by
  simp [OpScan.step, hCnt, h]

theorem seven_le_prec_operand {tok : Token}
    (h : tok.type = .dec ∨ tok.type = .hex ∨ tok.type = .dollar) : 7 ≤ prec tok.type := by
  rcases h with h | h | h <;> simp [h, prec]

/-- Tokens in parentheses that are passed over leave what their `(` left. -/
theorem scan_paren {first last : Token} (hFirst : first.type = .lparen)
    (hLast : last.type = .rparen) (hCnt : 0 ≤ st.cnt)
    (hInner : ∀ {st : OpScan}, 0 < st.cnt → ts.foldl OpScan.step st = st.pass ts.length) :
    (first :: (ts ++ [last])).foldl OpScan.step st =
      { (st.step first).pass (ts.length + 1) with cnt := st.cnt } := by
  have hOpen : 0 < (st.step first).cnt := by
    rw [step_cnt, nest_open hFirst]
    omega
  have hClose : ((st.step first).pass ts.length).cnt ≠ 0 := Int.ne_of_gt hOpen
  rw [List.foldl_cons, List.foldl_append, List.foldl_cons, List.foldl_nil, hInner hOpen,
    step_of_nested _ hClose]
  simp [OpScan.pass, nest_open hFirst, nest_close hLast]
  omega

/-- Nothing inside parentheses is chosen. -/
theorem Shape.scan_nested (h : Shape k ts) (hCnt : 0 < st.cnt) :
    ts.foldl OpScan.step st = st.pass ts.length := by
  induction h generalizing st with
  | operand hType => simp [step_of_nested _ (Int.ne_of_gt hCnt), nest_operand hType, OpScan.pass]
  | paren hFirst hLast _ ih =>
    rw [scan_paren hFirst hLast hCnt.le ih, step_of_nested _ (Int.ne_of_gt hCnt)]
    simp [OpScan.pass]
    omega
  | @deref _ ts tok hType _ _ ih =>
    have hStep : st.step tok = st.pass 1 := by
      rw [step_of_nested _ (Int.ne_of_gt hCnt), nest_of_prec_lt (by simp [hType, prec])]
      rfl
    rw [List.foldl_cons, hStep, @ih (st.pass 1) hCnt]
    simp [OpScan.pass]
    omega
  | @binary _ _ l r tok hPrec _ _ _ _ ihl ihr =>
    have hStep : (st.pass l.length).step tok = st.pass (l.length + 1) := by
      rw [step_of_nested _ (show (st.pass l.length).cnt ≠ 0 from Int.ne_of_gt hCnt),
        nest_of_prec_lt (by omega)]
      rfl
    rw [List.foldl_append, List.foldl_cons, ihl hCnt, hStep, @ihr (st.pass (l.length + 1)) hCnt]
    simp [OpScan.pass]
    omega

/-- Once an operator is chosen, tighter ones do not replace it. -/
theorem Shape.scan_above (h : Shape k ts) (hCnt : st.cnt = 0) (hOp : st.prec ≤ 6)
    (hk : st.prec < k) : ts.foldl OpScan.step st = st.pass ts.length := by
  induction h generalizing st with
  | @operand tok hType =>
    have hPrec : st.prec < prec tok.type := Nat.lt_of_le_of_lt hOp (seven_le_prec_operand hType)
    simp [step_of_prec_lt hPrec, nest_operand hType, OpScan.pass]
  | @paren _ _ first _ hFirst hLast hInner _ =>
    have hPrec : st.prec < prec first.type := by simp [hFirst, prec]; omega
    rw [scan_paren hFirst hLast hCnt.ge hInner.scan_nested, step_of_prec_lt hPrec]
    simp [OpScan.pass]
    omega
  | @deref _ ts tok hType _ hTight ih =>
    have hStep : st.step tok = st.pass 1 := by
      rw [step_of_prec_lt (by simpa [hType, prec] using hk),
        nest_of_prec_lt (by simp [hType, prec])]
      rfl
    rw [List.foldl_cons, hStep, @ih (st.pass 1) hCnt hOp (Nat.lt_trans hk hTight)]
    simp [OpScan.pass]
    omega
  | @binary _ _ l r tok hPrec _ hj _ hTight ihl ihr =>
    have hStep : (st.pass l.length).step tok = st.pass (l.length + 1) := by
      rw [step_of_prec_lt (show (st.pass l.length).prec < prec tok.type from hk),
        nest_of_prec_lt (by omega)]
      rfl
    rw [List.foldl_append, List.foldl_cons, ihl hCnt hOp (by omega), hStep,
      @ihr (st.pass (l.length + 1)) hCnt hOp (Nat.lt_trans hk hTight)]
    simp [OpScan.pass]
    omega

theorem le_prec_step {m : Nat} {tok : Token} (hTok : m ≤ prec tok.type) (hPrec : m ≤ st.prec) :
    m ≤ (st.step tok).prec := by
  unfold OpScan.step
  split
  · exact hTok
  · exact hPrec

/-- Operators no weaker than `m` leave no choice weaker than `m`. -/
theorem Shape.scan_below {m : Nat} (h : Shape k ts) (hm : m ≤ 5) (hk : m ≤ k) (hCnt : st.cnt = 0)
    (hPrec : m ≤ st.prec) :
    (ts.foldl OpScan.step st).cnt = 0 ∧ m ≤ (ts.foldl OpScan.step st).prec := by
  induction h generalizing st with
  | operand hType =>
    have hTok := seven_le_prec_operand hType
    rw [List.foldl_cons, List.foldl_nil, step_cnt, nest_operand hType]
    exact ⟨hCnt, le_prec_step (by omega) hPrec⟩
  | @paren _ _ first _ hFirst hLast hInner _ =>
    rw [scan_paren hFirst hLast hCnt.ge hInner.scan_nested]
    have hTok : m ≤ prec first.type := by simp [hFirst, prec]; omega
    exact ⟨hCnt, le_prec_step hTok hPrec⟩
  | @deref _ _ tok hType _ hTight ih =>
    rw [List.foldl_cons]
    refine ih (by omega) ?_ (le_prec_step (by simpa [hType, prec] using hk) hPrec)
    rw [step_cnt, nest_of_prec_lt (by simp [hType, prec]), hCnt]
  | @binary _ _ _ _ tok hOp _ hj _ hTight ihl ihr =>
    obtain ⟨hlCnt, hlPrec⟩ := ihl (by omega) hCnt hPrec
    rw [List.foldl_append, List.foldl_cons]
    refine ihr (by omega) ?_ (le_prec_step hk hlPrec)
    rw [step_cnt, nest_of_prec_lt (by omega), hlCnt]

/-- The operator found is the one the shape was built with: the last of the loosest. -/
theorem findOpPosition_binary {j k : Nat} {l r : List Token} {tok : Token}
    (hPrec : prec tok.type ≤ 5) (hl : Shape j l) (hj : prec tok.type ≤ j) (hr : Shape k r)
    (hk : prec tok.type < k) : findOpPosition (l ++ tok :: r) = l.length := by
  have hStart : prec tok.type ≤ opStart.prec := Nat.le_trans hPrec (by decide)
  obtain ⟨hCnt, hBelow⟩ := hl.scan_below hPrec hj (show opStart.cnt = 0 from rfl) hStart
  have hi := foldl_step_i l opStart
  rw [findOpPosition, List.foldl_append, List.foldl_cons, step_of_prec_le tok hCnt hBelow,
    hr.scan_above (nest_of_prec_lt (by omega) 0) (by simp [OpScan.prec]; omega)
      (by simpa [OpScan.prec] using hk)]
  simpa [OpScan.pass, opStart] using hi

/-- A leading `*` is found when its operand holds nothing looser. -/
theorem findOpPosition_deref {tok : Token} (hType : tok.type = .deref) (h : Shape k ts)
    (hk : 6 < k) : findOpPosition (tok :: ts) = 0 := by
  have hPrec : prec tok.type = 6 := by rw [hType]; rfl
  rw [findOpPosition, List.foldl_cons,
    step_of_prec_le tok (show opStart.cnt = 0 from rfl) (by rw [hPrec]; decide),
    h.scan_above (nest_of_prec_lt (by omega) 0) (by simp [OpScan.prec, hPrec])
      (by simpa [OpScan.prec, hPrec] using hk)]
  rfl

end Shape

/-! ## Ranges -/

section Eval

variable {σ : Type} (t : Target σ) (s : σ)

/-- A single token. -/
theorem eval_singleton (tok : Token) : eval t [tok] s = .ok (t.single tok s, s) := by
  rw [eval]
  rfl

/-- Brackets around a shape. -/
theorem eval_paren {k : Nat} {ts : List Token} {first last : Token}
    (hFirst : first.type = .lparen) (hLast : last.type = .rparen) (h : Shape k ts) :
    eval t (first :: (ts ++ [last])) s = eval t ts s := by
  rw [eval, checkParentheses_paren hFirst hLast h]
  simp [bind, Except.bind]

/-- A range that splits at an operator with two operands. -/
theorem eval_binary {j k : Nat} {l r : List Token} {tok : Token} (hPrec : prec tok.type ≤ 5)
    (hl : Shape j l) (hj : prec tok.type ≤ j) (hr : Shape k r) (hk : prec tok.type < k) :
    eval t (l ++ tok :: r) s =
      (eval t l s).bind fun val1 => (eval t r val1.2).bind fun val2 =>
        t.apply tok.type val1.1 val2.1 val2.2 := by
  have hLen := hl.length_pos
  have hAt : typeAt (l ++ tok :: r) l.length = tok.type := by simp [typeAt]
  have hType : tok.type ≠ .deref := by
    intro hType
    simp [hType, prec] at hPrec
  have hDrop : (l ++ tok :: r).drop (l.length + 1) = r := by simp [List.drop_append]
  rw [eval, dif_neg (by simp), if_neg (by simp; omega), checkParentheses_binary hl]
  simp only [bind, Except.bind, findOpPosition_binary hPrec hl hj hr hk, hAt, if_neg hType,
    List.take_left, hDrop]
  rfl

/-- A dereference of a shape. -/
theorem eval_deref {k : Nat} {ts : List Token} {tok : Token} (hType : tok.type = .deref)
    (h : Shape k ts) (hk : 6 < k) :
    eval t (tok :: ts) s = (eval t ts s).bind fun val2 => t.load val2.1 val2.2 := by
  have hLen := h.length_pos
  have hAt : typeAt (tok :: ts) 0 = .deref := by simp [typeAt, hType]
  have hTwo : (tok :: ts).length ≠ 1 := by rw [List.length_cons]; omega
  rw [eval, dif_neg (by simp), if_neg hTwo, checkParentheses_deref hType]
  simp only [bind, Except.bind, findOpPosition_deref hType h hk, hAt]
  rfl

end Eval

end Riscv32.Sdb
