import Riscv32.Sdb.Adjacent
import Riscv32.Sdb.Recording

/-!
# Evaluating sentences

Where every prefix `*` is looked for, `eval` on the recorded tokens of a
sentence comes to the sentence's value, with the binary operators the `switch`
has.  `<=` and `>=` have neither token nor case: a sentence with one of them
leaves two operands side by side, and does not return.

Both directions are needed: that the evaluation returns with the value
(`eval_tree`, by induction over the tree), and that nothing else returns
(`recorded_of_apart`, from `Evals.apart`).

## Main results

* `eval_eq_ok_iff_denote` — `eval` returns what the sentence means, and only then.
* `expr_eq_ok_iff_denote` — the same for whole texts.
-/

namespace Riscv32.Sdb

open Riscv32.Rtl Piece

/-! ## Operators -/

namespace Operator

/-- What the `switch` of `eval` computes. -/
def switch : Operator → Word → Word → Except Fault Word
  | arith o, x, y => .ok (o.apply x y)
  | rel .gt, x, y => .ok (if x ≤ y then 1 else 0)
  | rel _, _, _ => .error .assertion

/-- The operator is stored as a token. -/
def Recorded (op : Operator) : Prop := op ≠ .rel .le ∧ op ≠ .rel .ge

theorem prec_tokenType (op : Operator) : prec op.tokenType = op.level := by
  cases op with
  | arith o => exact prec_op o
  | rel r => cases r <;> rfl

theorem level_le_five (op : Operator) : op.level ≤ 5 := by
  cases op with
  | arith o => exact Riscv32.Sdb.level_le_five o
  | rel r => exact Nat.le_of_ble_eq_true rfl

theorem token?_piece {op : Operator} (h : op.Recorded) :
    op.piece.token? = some ⟨op.tokenType, []⟩ := by
  cases op with
  | arith o => rfl
  | rel r =>
    cases r with
    | lt | gt => rfl
    | le => exact absurd rfl h.1
    | ge => exact absurd rfl h.2

theorem piece_ne_star (op : Operator) : op.piece ≠ .star := by cases op <;> simp [piece]

theorem apply_switch {σ : Type} (t : Target σ) (op : Operator) (x y : Word) (s : σ) :
    t.apply op.tokenType x y s = (op.switch x y).map fun v => (v, s) := by
  cases op with
  | arith o => exact apply_op t s o x y
  | rel r => cases r <;> rfl

theorem recorded_of_switch {op : Operator} {x y v : Word} (h : op.switch x y = .ok v) :
    op.Recorded := by
  cases op with
  | arith o => simp [Recorded]
  | rel r => cases r <;> simp_all [Recorded, switch]

end Operator

/-! ## Tokens -/

/-- The tokens that say what the pieces are. -/
def Tree.tokens (e : Tree) : List Token := e.pieces.filterMap token?

section Tokens

variable (n : Numeral) (i : Fin 31) (op : Operator) (e l r : Tree)

@[simp] theorem tree_num : (Tree.num n).tokens = [(Lexeme.num n).token] := rfl

@[simp] theorem tree_pc : Tree.pc.tokens = [Lexeme.pc.token] := rfl

@[simp] theorem tree_reg : (Tree.reg i).tokens = [(Lexeme.reg i).token] := rfl

@[simp] theorem tree_paren :
    (Tree.paren e).tokens = Lexeme.lparen.token :: (e.tokens ++ [Lexeme.rparen.token]) := by
  simp [Tree.tokens, Tree.pieces, token?]

@[simp] theorem tree_deref : (Tree.deref e).tokens = ⟨.deref, []⟩ :: e.tokens := by
  simp [Tree.tokens, Tree.pieces, token?]

theorem tree_bin :
    (Tree.bin op l r).tokens = l.tokens ++ (op.piece.token?.toList ++ r.tokens) := by
  cases hTok : op.piece.token? <;> simp [Tree.tokens, Tree.pieces, hTok]

theorem tree_bin_recorded {op : Operator} (h : op.Recorded) :
    (Tree.bin op l r).tokens = l.tokens ++ ⟨op.tokenType, []⟩ :: r.tokens := by
  rw [tree_bin, Operator.token?_piece h]
  rfl

theorem starKinds_tokens : starKinds e.tokens = e.pieces.filterMap starKind := by
  have hPieces : ∀ ps : List Piece, starKinds (ps.filterMap token?) = ps.filterMap starKind := by
    intro ps
    induction ps with
    | nil => rfl
    | cons p ps ih =>
      have hTok := starKinds_token p
      rw [← List.singleton_append, List.filterMap_append, List.filterMap_append, starKinds_append,
        ih]
      cases hp : p.token? <;> cases hk : p.starKind <;> simp_all
  exact hPieces e.pieces

end Tokens

/-! ## Guarded pieces -/

section Guarded

variable {d : Bool} {ps qs : List Piece} {p : Piece} {e l r : Tree} {op : Operator}

theorem guarded_append (h : Guarded d (ps ++ p :: qs)) :
    Guarded d ps ∧ Guarded p.guards qs := by
  induction ps generalizing d with
  | nil => exact ⟨trivial, h.2⟩
  | cons q ps ih => exact ⟨⟨h.1, (ih h.2).1⟩, (ih h.2).2⟩

theorem guarded_paren (h : Guarded d (Tree.paren e).pieces) : Guarded false e.pieces :=
  (guarded_append (p := .plain .rparen) h.2).1

theorem guarded_bin (h : Guarded d (Tree.bin op l r).pieces) :
    Guarded d l.pieces ∧ Guarded op.piece.guards r.pieces :=
  guarded_append h

/-- Behind a `(` or a prefix `*` no prefix `*` stands. -/
theorem six_lt_level (h : Guarded false e.pieces) (hLevel : 6 ≤ e.level) : 6 < e.level := by
  cases e with
  | deref e => exact absurd (h.1 rfl) (by decide)
  | bin op l r =>
    have hFive := op.level_le_five
    simp only [Tree.level] at hLevel
    omega
  | num | pc | reg | paren => simp [Tree.level]

theorem guarded_of_notMem (h : Piece.star ∉ ps) : Guarded d ps := by
  induction ps generalizing d with
  | nil => trivial
  | cons p ps ih =>
    rw [List.mem_cons, not_or] at h
    exact ⟨fun hp => absurd hp.symm h.1, ih h.2⟩

theorem star_notMem_pieces (h : e.DerefFree) : Piece.star ∉ e.pieces := by
  induction e with
  | num | pc | reg => simp [Tree.pieces]
  | paren e ih => simpa [Tree.pieces] using ih h
  | deref => exact absurd h id
  | bin op l r ihl ihr =>
    simp [Tree.pieces, ihl h.1, ihr h.2, op.piece_ne_star.symm]

/-- The token of an operator, among the operands of a grammatical tree. -/
theorem prec_bounds (tok : Token) (hTok : tok.type = op.tokenType)
    (h : (Tree.bin op l r).Grammatical) :
    prec tok.type ≤ 5 ∧ prec tok.type ≤ l.level ∧ prec tok.type < r.level := by
  obtain ⟨⟨-, hl⟩, -, hr⟩ := h
  rw [hTok, op.prec_tokenType]
  exact ⟨op.level_le_five, hl, hr⟩

/-- The tokens of a sentence split where its tree does. -/
theorem Tree.shape (hGram : e.Grammatical) (hRec : e.Over Operator.Recorded)
    (hGuard : Guarded d e.pieces) : Shape e.level e.tokens := by
  induction e generalizing d with
  | num n => exact .operand ((type_num n).imp_right .inl)
  | pc => exact .operand (.inr (.inr rfl))
  | reg i => exact .operand (.inr (.inr rfl))
  | paren e ih =>
    rw [tree_paren]
    exact .paren rfl rfl (ih hGram hRec (guarded_paren hGuard))
  | deref e ih =>
    rw [tree_deref]
    exact .deref rfl (ih hGram.1 hRec hGuard.2) (six_lt_level hGuard.2 hGram.2)
  | bin op l r ihl ihr =>
    obtain ⟨hFive, hlLevel, hrLevel⟩ := prec_bounds ⟨op.tokenType, []⟩ rfl hGram
    obtain ⟨⟨hl, -⟩, hr, -⟩ := hGram
    obtain ⟨hOp, hlRec, hrRec⟩ := hRec
    obtain ⟨hlGuard, hrGuard⟩ := guarded_bin hGuard
    rw [tree_bin_recorded l r hOp, Tree.level, ← op.prec_tokenType]
    exact .binary hFive (ihl hl hlRec hlGuard) hlLevel (ihr hr hrRec hrGuard) hrLevel

end Guarded

/-! ## Side by side -/

section Neighbours

variable {d : Bool} {ps : List Piece} {e : Tree}

theorem isDeref_of_recordToken {tokens : List Token} {ty : TokenType} {text : List Char}
    {tok : Token} (hTy : ty ≠ .deref) (h : recordToken tokens ty text = some tok)
    (hType : tok.type = .deref) : isDeref tokens = true := by
  cases ty with
  | deref => exact absurd rfl hTy
  | times =>
    simp only [recordToken, Option.some.injEq] at h
    by_contra hNot
    rw [← h, if_neg hNot] at hType
    cases hType
  | notype | le | ge => cases h
  | eq | hex | dec | lt | gt | and | plus | minus | divide | lparen | rparen | dollar =>
    cases h
    cases hType

theorem tokenType_ne_deref (p : Piece) : p.tokenType ≠ .deref := by
  cases p with
  | plain l =>
    cases l with
    | num n => exact (show ∀ r : Radix, r.tokenType ≠ .deref by rintro (_ | _) <;> decide) n.radix
    | op o => cases o <;> decide
    | pc | reg | lparen | rparen => simp [tokenType, Lexeme.tokenType]
  | rel r => cases r <;> decide
  | star => decide

/-- The scanner stores a dereference only behind an operator. -/
theorem looksBack_foldl_record {tokens : List Token} (h : tokens.IsChain LooksBack) :
    (ps.foldl record tokens).IsChain LooksBack := by
  induction ps generalizing tokens with
  | nil => exact h
  | cons p ps ih =>
    refine ih ?_
    cases hTok : recordToken tokens p.tokenType p.text with
    | none => simpa [record, hTok] using h
    | some tok =>
      simp only [record, hTok, Option.toList_some, List.isChain_append, List.isChain_singleton,
        true_and, List.head?_cons, Option.mem_some_iff, forall_eq']
      refine ⟨h, fun last hLast hType => ?_⟩
      have hDeref := isDeref_of_recordToken (tokenType_ne_deref p) hTok hType
      simpa [isDeref, Option.mem_def.1 hLast] using hDeref

theorem getLast?_tokens (e : Tree) :
    ∃ tok, e.tokens.getLast? = some tok ∧ tok.closes = true := by
  induction e with
  | num n =>
    refine ⟨_, rfl, ?_⟩
    rcases type_num n with h | h <;> simp [Token.closes, h]
  | pc | reg => exact ⟨_, rfl, rfl⟩
  | paren e ih =>
    refine ⟨Lexeme.rparen.token, ?_, rfl⟩
    rw [tree_paren, ← List.cons_append, List.getLast?_concat]
  | deref e ih =>
    obtain ⟨tok, hTok, hCloses⟩ := ih
    exact ⟨tok, by rw [tree_deref, List.getLast?_cons, hTok]; rfl, hCloses⟩
  | bin op l r _ ihr =>
    obtain ⟨tok, hTok, hCloses⟩ := ihr
    exact ⟨tok, by simp [tree_bin, List.getLast?_append, hTok], hCloses⟩

/-- A sentence that starts with no prefix `*` starts with an operand. -/
theorem head?_tokens (hGuard : Guarded false e.pieces) :
    ∃ tok, e.tokens.head? = some tok ∧ tok.opens = true := by
  induction e with
  | num n =>
    refine ⟨_, rfl, ?_⟩
    rcases type_num n with h | h <;> simp [Token.opens, h]
  | pc | reg => exact ⟨_, rfl, rfl⟩
  | paren e _ => exact ⟨_, by rw [tree_paren, List.head?_cons], rfl⟩
  | deref e _ => exact absurd (hGuard.1 rfl) (by decide)
  | bin op l r ihl _ =>
    obtain ⟨tok, hTok, hOpens⟩ := ihl (guarded_bin hGuard).1
    exact ⟨tok, by simp [tree_bin, hTok], hOpens⟩

/-- Only operators that are recorded keep the operands apart. -/
theorem recorded_of_apart (hGuard : Guarded d e.pieces) (h : e.tokens.IsChain Apart) :
    e.Over Operator.Recorded := by
  induction e generalizing d with
  | num | pc | reg => trivial
  | paren e ih =>
    rw [tree_paren] at h
    exact ih (guarded_paren hGuard) h.tail.left_of_append
  | deref e ih =>
    rw [tree_deref] at h
    exact ih hGuard.2 h.tail
  | bin op l r ihl ihr =>
    obtain ⟨hlGuard, hrGuard⟩ := guarded_bin hGuard
    rw [tree_bin] at h
    refine ⟨?_, ihl hlGuard h.left_of_append, ihr hrGuard h.right_of_append.right_of_append⟩
    by_contra hNot
    have hNone : op.piece.token? = none ∧ op.piece.guards = false := by
      rw [Operator.Recorded, not_and_or, not_not, not_not] at hNot
      rcases hNot with rfl | rfl <;> exact ⟨rfl, rfl⟩
    rw [hNone.1, Option.toList_none, List.nil_append, List.isChain_append] at h
    obtain ⟨last, hLast, hCloses⟩ := getLast?_tokens l
    obtain ⟨head, hHead, hOpens⟩ := head?_tokens (hNone.2 ▸ hrGuard)
    have hApart := h.2.2 last hLast head hHead hCloses
    rw [hOpens] at hApart
    cases hApart

end Neighbours

/-! ## Values -/

section Values

variable {σ : Type} (t : Target σ)

/-- `eval` on the tokens of a sentence. -/
theorem eval_tree {e : Tree} {d : Bool} (hGram : e.Grammatical)
    (hRec : e.Over Operator.Recorded) (hGuard : Guarded d e.pieces) (s : σ) :
    eval t e.tokens s = e.denote t Operator.switch s := by
  induction e generalizing d s with
  | num n => rw [tree_num, eval_singleton, single_num, Tree.denote]
  | pc => rw [tree_pc, eval_singleton, single_pc, Tree.denote]
  | reg i => rw [tree_reg, eval_singleton, single_reg, Tree.denote]
  | paren e ih =>
    have hInner := guarded_paren hGuard
    rw [tree_paren, eval_paren t s rfl rfl (Tree.shape (e := e) hGram hRec hInner),
      ih hGram hRec hInner, Tree.denote]
  | deref e ih =>
    have hTight := six_lt_level hGuard.2 hGram.2
    rw [tree_deref, eval_deref t s rfl (Tree.shape hGram.1 hRec hGuard.2) hTight,
      ih hGram.1 hRec hGuard.2, Tree.denote]
    rfl
  | bin op l r ihl ihr =>
    obtain ⟨hFive, hlLevel, hrLevel⟩ := prec_bounds ⟨op.tokenType, []⟩ rfl hGram
    obtain ⟨⟨hl, -⟩, hr, -⟩ := hGram
    obtain ⟨hOp, hlRec, hrRec⟩ := hRec
    obtain ⟨hlGuard, hrGuard⟩ := guarded_bin hGuard
    rw [tree_bin_recorded l r hOp, eval_binary t s hFive (Tree.shape hl hlRec hlGuard) hlLevel
      (Tree.shape hr hrRec hrGuard) hrLevel, ihl hl hlRec hlGuard, Tree.denote]
    refine congrArg (Except.bind _) (funext fun val1 => ?_)
    rw [ihr hr hrRec hrGuard]
    refine congrArg (Except.bind _) (funext fun ⟨y, s'⟩ => ?_)
    rw [op.apply_switch]
    cases hSwitch : op.switch val1.1 y <;> simp [hSwitch, bind, Except.bind, Except.map]

/-- What returns has only operators that return. -/
theorem Tree.over_of_denote {t : Target σ} {apply : Operator → Word → Word → Except Fault Word}
    {P : Operator → Prop} (hApply : ∀ op x y v, apply op x y = .ok v → P op) {e : Tree}
    {s : σ} {res : Word × σ} (h : e.denote t apply s = .ok res) : e.Over P := by
  induction e generalizing s res with
  | num | pc | reg => trivial
  | paren e ih => exact ih h
  | deref e ih =>
    obtain ⟨a, ha, -⟩ := bind_ok h
    exact ih ha
  | bin op l r ihl ihr =>
    obtain ⟨x, hx, h⟩ := bind_ok h
    obtain ⟨y, hy, h⟩ := bind_ok h
    obtain ⟨v, hv, -⟩ := bind_ok h
    exact ⟨hApply op _ _ v hv, ihl hx, ihr hy⟩

section Returns

variable {t : Target σ} {e : Sentence} {text : List Char} {s s' : σ} {v : Word}

theorem foldl_record_pieces (hGuard : Guarded true e.tree.pieces) :
    e.tree.pieces.foldl record [] = e.tree.tokens := by
  have hGuard' : Guarded (isDeref []) e.tree.pieces := hGuard
  exact foldl_record (follow_pieces e.tree) (fun h => by cases h) hGuard'

/-- Where every prefix `*` is looked for, a sentence gets the tokens of its pieces. -/
theorem makeToken_guarded (hPrint : e.PrintsTo text) (hFits : e.Fits)
    (hGuard : Guarded true e.tree.pieces) : makeToken text = .ok (some e.tree.tokens) := by
  rw [makeToken_prints hPrint hFits, foldl_record_pieces hGuard]

/-- `eval` returns what the sentence means, and only then. -/
theorem eval_eq_ok_iff_denote (hGuard : Guarded true e.tree.pieces) :
    eval t e.tree.tokens s = .ok (v, s') ↔
      e.tree.denote t Operator.switch s = .ok (v, s') := by
  have hLook : e.tree.tokens.IsChain LooksBack := by
    rw [← foldl_record_pieces hGuard]
    exact looksBack_foldl_record .nil
  constructor
  · intro h
    have hRec := recorded_of_apart hGuard ((eval_eq_ok_iff.1 h).apart hLook)
    rwa [eval_tree t e.grammatical hRec hGuard] at h
  · intro h
    have hRec := Tree.over_of_denote (fun _ _ _ _ hv => Operator.recorded_of_switch hv) h
    rwa [eval_tree t e.grammatical hRec hGuard]

/-- The same for whole texts. -/
theorem expr_eq_ok_iff_denote (hPrint : e.PrintsTo text) (hFits : e.Fits)
    (hGuard : Guarded true e.tree.pieces) (success : Bool) :
    expr t text success s = .ok ((v, success), s') ↔
      e.tree.denote t Operator.switch s = .ok (v, s') := by
  rw [expr_of_makeToken t s (makeToken_guarded hPrint hFits hGuard), ← eval_eq_ok_iff_denote hGuard]
  cases eval t e.tree.tokens s <;> simp [Except.map, Prod.ext_iff]

end Returns

end Values

end Riscv32.Sdb
