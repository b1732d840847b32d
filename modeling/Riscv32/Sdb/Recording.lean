import Riscv32.Sdb.Language
import Riscv32.Sdb.Scanning

/-!
# What the scanner records

`make_token` on the pieces of a text.  Every piece is found by its own rule, but
`<=` and `>=` are not recorded, and whether a `*` is stored as a dereference is
decided by the token before it alone: `record` is the fold, `Guarded` says where
a prefix `*` is taken for one.

Two pieces that stand side by side in a text could be scanned as one; `Parted` is
what keeps them apart, and it holds in every text of a sentence (`parted_layout`).

## Main results

* `makeToken_prints` — a printed sentence is scanned to the fold of its pieces.
* `foldl_record`, `guarded_of_starKinds` — the stars are recorded as they are
  meant exactly where every prefix `*` is looked for.
-/

namespace Riscv32.Sdb

open Riscv32.Data

/-! ## Pieces -/

/-- The type of the sign's rule; `<` and `>` are swapped. -/
def Relation.tokenType : Relation → TokenType
  | .lt => .gt
  | .le => .le
  | .gt => .lt
  | .ge => .ge

def Operator.tokenType : Operator → TokenType
  | .arith o => o.tokenType
  | .rel r => r.tokenType

namespace Piece

def tokenType : Piece → TokenType
  | plain l => l.tokenType
  | rel r => r.tokenType
  | star => .times

/-- An operand may start here. -/
def opens : Piece → Bool
  | plain l => l.opens
  | rel _ => false
  | star => true

/-- An operand may end here. -/
def closes : Piece → Bool
  | plain l => l.closes
  | rel _ | star => false

/-- The token that says what the piece is; `<=` and `>=` get none. -/
def token? : Piece → Option Token
  | plain l => some l.token
  | rel .lt => some ⟨.gt, []⟩
  | rel .gt => some ⟨.lt, []⟩
  | rel _ => none
  | star => some ⟨.deref, []⟩

/-- A `*` behind the piece is taken for a dereference. -/
def guards : Piece → Bool
  | plain (.op _) | rel .lt | rel .gt => true
  | _ => false

/-- Whether an operand has just ended behind the pieces; `none` if operands
and operators do not alternate. -/
def follow : Bool → List Piece → Option Bool
  | st, [] => some st
  | st, p :: ps => if p.opens = !st then follow p.closes ps else none

theorem follow_cons {st st' : Bool} {p : Piece} {ps : List Piece}
    (h : follow st (p :: ps) = some st') : p.opens = !st ∧ follow p.closes ps = some st' := by
  rw [follow] at h
  split at h
  case isTrue hOpens => exact ⟨hOpens, h⟩
  case isFalse => cases h

theorem follow_append (st : Bool) (ps qs : List Piece) :
    follow st (ps ++ qs) = (follow st ps).bind fun st => follow st qs := by
  induction ps generalizing st with
  | nil => rfl
  | cons p ps ih =>
    simp only [List.cons_append, follow]
    split
    · exact ih p.closes
    · rfl

theorem opens_operator (op : Operator) : op.piece.opens = false := by cases op <;> rfl

theorem closes_operator (op : Operator) : op.piece.closes = false := by cases op <;> rfl

/-- A sentence is one operand. -/
theorem follow_pieces (e : Tree) : follow false e.pieces = some true := by
  induction e with
  | num | pc | reg => rfl
  | paren e ih =>
    simp [Tree.pieces, follow, opens, closes, Lexeme.opens, Lexeme.closes, follow_append, ih]
  | deref e ih => simp [Tree.pieces, follow, opens, closes, ih]
  | bin op l r ihl ihr =>
    simp [Tree.pieces, follow, follow_append, ihl, ihr, opens_operator, closes_operator]

/-! ## One piece -/

/-- What may stand behind a piece: behind an operand no letter of an operand,
behind anything else no `=`. -/
def Parted (closed : Bool) (rest : List Char) : Prop :=
  if closed then Delimited rest else rest.head? ≠ some '='

/-- `<` and `>` without a `=` behind them. -/
theorem firstMatch_strict (k : Nat) {ty : TokenType} {c : Char} {rest : List Char}
    (hRules : rules = rules.take k ++ (Regex.lit [c], ty) :: rules.drop (k + 1))
    (hPre : ∀ x ∈ rules.take k, c ∈ heads x.2 → x.1 = Regex.lit [c, '='])
    (hRest : rest.head? ≠ some '=') :
    firstMatch rules ([c] ++ rest) = some (ty, 1) := by
  rw [hRules]
  refine firstMatch_append (fun x hx => ?_) (Regex.longest_lit [c] rest)
  by_cases hHead : c ∈ heads x.2
  · rw [hPre x hx hHead]
    refine Regex.longest_eq_none fun m hm => hRest ?_
    have hPrefix : [c, '='] <+: [c] ++ rest := Regex.mem_lit.1 hm ▸ List.take_prefix m _
    obtain ⟨tail, hTail⟩ := List.cons_prefix_cons.1 hPrefix |>.2
    exact congrArg List.head? hTail.symm
  · exact Regex.longest_eq_none_of_head (rules_head x (List.mem_of_mem_take hx)) hHead

theorem firstMatch_relation (r : Relation) {rest : List Char} (hRest : rest.head? ≠ some '=') :
    firstMatch rules (r.text ++ rest) = some (r.tokenType, r.text.length) := by
  cases r with
  | lt => exact firstMatch_strict 13 rfl (by simp [rules, heads, decDigits]) hRest
  | le => exact firstMatch_lit 10 rest rfl (by decide)
  | gt => exact firstMatch_strict 12 rfl (by simp [rules, heads, decDigits]) hRest
  | ge => exact firstMatch_lit 11 rest rfl (by decide)

/-- Every piece is found by its own rule and scanned whole. -/
theorem firstMatch_piece (p : Piece) {rest : List Char} (hRest : Parted p.closes rest) :
    firstMatch rules (p.text ++ rest) = some (p.tokenType, p.text.length) := by
  cases p with
  | plain l =>
    refine firstMatch_lexeme l fun hCloses => ?_
    simpa [Parted, closes, hCloses] using hRest
  | rel r => exact firstMatch_relation r hRest
  | star => exact firstMatch_op .mul rest

theorem text_length_le (p : Piece) : p.text.length ≤ 32 := by
  cases p with
  | plain l => exact Riscv32.Sdb.text_length_le l
  | rel r => cases r <;> decide
  | star => decide

theorem text_ne_nil (p : Piece) : p.text ≠ [] := by
  cases p with
  | plain l => exact Riscv32.Sdb.text_ne_nil l
  | rel r => cases r <;> simp [text, Relation.text]
  | star => simp [text]

/-- No piece has a blank in it. -/
theorem blank_notMem_text (p : Piece) : ' ' ∉ p.text := by
  cases p with
  | plain l => exact Riscv32.Sdb.blank_notMem_text l
  | rel r => cases r <;> decide
  | star => decide

theorem delimited_text (p : Piece) (h : p.opens = false) : ∀ c ∈ p.text, c ∉ wordChars := by
  cases p with
  | plain l => exact delimited_op l h
  | rel r => cases r <;> exact List.forall_iff_forall_mem.1 (by decide)
  | star => cases h

/-- No operand starts with `=`. -/
theorem eq_notMem_text (p : Piece) (h : p.opens = true) : '=' ∉ p.text := by
  cases p with
  | plain l =>
    cases l with
    | num n =>
      intro hMem
      exact absurd (numeral_text_wordChars n '=' hMem) (by decide)
    | pc => decide
    | reg i => exact (show ∀ i : Fin 31, '=' ∉ '$' :: regName i by decide) i
    | op o => cases h
    | lparen => decide
    | rparen => cases h
  | rel r => cases h
  | star => decide

/-! ## Whole texts -/

/-- Behind an operand no letter of an operand follows, behind an operator no `=`. -/
theorem parted_layout {gaps : List (Nat × Piece)} {st st' : Bool} {rest : List Char}
    (hFollow : follow st (gaps.map Prod.snd) = some st') (hRest : Parted st' rest) :
    Parted st (layout gaps ++ rest) := by
  cases gaps with
  | nil =>
    cases hFollow
    exact hRest
  | cons g gaps =>
    obtain ⟨n, p⟩ := g
    obtain ⟨hOpens, hFollow⟩ := follow_cons hFollow
    have hText : layout ((n, p) :: gaps) ++ rest =
        blanks n ++ (p.text ++ (layout gaps ++ rest)) := by simp [layout]
    rw [hText]
    cases st with
    | true => exact head_word (text_ne_nil p) (by decide) (delimited_text p hOpens)
    | false =>
      intro hEq
      exact head_word (text_ne_nil p) (P := (· ≠ '=')) (by decide)
        (fun c hc hc' => eq_notMem_text p hOpens (hc' ▸ hc)) '=' hEq rfl

/-- The tokens behind a piece. -/
def record (tokens : List Token) (p : Piece) : List Token :=
  tokens ++ (recordToken tokens p.tokenType p.text).toList

theorem record_length_le (tokens : List Token) (p : Piece) :
    (record tokens p).length ≤ tokens.length + 1 := by
  rw [record, List.length_append]
  cases recordToken tokens p.tokenType p.text <;> simp

theorem pushToken_record {tokens : List Token} (p : Piece) (h : tokens.length < maxTokens) :
    pushToken tokens (recordToken tokens p.tokenType p.text) = .ok (record tokens p) := by
  unfold record
  cases recordToken tokens p.tokenType p.text with
  | none => simp [pushToken]
  | some tok => simp [pushToken, h]

/-- The text of pieces, whatever follows it, is scanned piece by piece. -/
theorem scan_layout {gaps : List (Nat × Piece)} {st st' : Bool} {rest : List Char}
    {tokens : List Token} (hGaps : ∀ g ∈ gaps, g.1 ≤ 32)
    (hFollow : follow st (gaps.map Prod.snd) = some st') (hRest : Parted st' rest)
    (hFits : tokens.length + gaps.length ≤ maxTokens) :
    scan (layout gaps ++ rest) tokens =
      scan rest ((gaps.map Prod.snd).foldl record tokens) := by
  induction gaps generalizing st tokens with
  | nil => rfl
  | cons g gaps ih =>
    obtain ⟨n, p⟩ := g
    obtain ⟨-, hFollow⟩ := follow_cons hFollow
    have hMatch := firstMatch_piece p (parted_layout hFollow hRest)
    rw [List.length_cons] at hFits
    have hPush := pushToken_record p (show tokens.length < maxTokens by omega)
    have hLen := record_length_le tokens p
    calc scan (layout ((n, p) :: gaps) ++ rest) tokens
        = scan (blanks n ++ (p.text ++ (layout gaps ++ rest))) tokens := by simp [layout]
      _ = scan (layout gaps ++ rest) (record tokens p) :=
          scan_word (hGaps (n, p) (by simp)) (blank_notMem_text p) hMatch (text_length_le p) hPush
      _ = scan rest ((gaps.map Prod.snd).foldl record (record tokens p)) :=
          ih (fun g hg => hGaps g (by simp [hg])) hFollow (by omega)

/-- A printed sentence is scanned to the fold of its pieces. -/
theorem makeToken_prints {e : Sentence} {s : List Char} (hPrint : e.PrintsTo s) (hFits : e.Fits) :
    makeToken s = .ok (some (e.tree.pieces.foldl record [])) := by
  obtain ⟨gaps, hPieces, hGaps, n, hn, rfl⟩ := hPrint
  have hBlank : Parted true (blanks n) := by
    intro c hc
    rw [List.eq_of_mem_replicate (List.mem_of_head? hc)]
    decide
  have hFollow : follow false (gaps.map Prod.snd) = some true := hPieces ▸ follow_pieces e.tree
  have hLen : gaps.length = e.tree.pieces.length := by rw [← hPieces, List.length_map]
  have hRoom : ([] : List Token).length + gaps.length ≤ maxTokens := by
    simpa [hLen, Sentence.Fits] using hFits
  rw [makeToken, scan_layout hGaps hFollow hBlank hRoom, ← List.append_nil (blanks n),
    scan_blanks hn (by simp), scan_nil, hPieces]

/-! ## Which stars dereference -/

/-- Every prefix `*` stands where one is looked for: `d` says so of the first
piece, `guards` of the one behind each piece. -/
def Guarded : Bool → List Piece → Prop
  | _, [] => True
  | d, p :: ps => (p = .star → d = true) ∧ Guarded p.guards ps

/-- The kinds of the recorded `*`. -/
def starKinds (tokens : List Token) : List Bool :=
  tokens.filterMap fun tok =>
    match tok.type with
    | .deref => some true
    | .times => some false
    | _ => none

theorem starKinds_append (ts us : List Token) :
    starKinds (ts ++ us) = starKinds ts ++ starKinds us := List.filterMap_append

theorem isDeref_concat (tokens : List Token) (tok : Token) :
    isDeref (tokens ++ [tok]) = decide (prec tok.type ≤ 5) := by
  simp [isDeref]

theorem guards_of_closes {p : Piece} (h : p.closes = true) : p.guards = false := by
  cases p with
  | plain l =>
    cases l with
    | op => cases h
    | num | pc | reg | lparen | rparen => rfl
  | rel | star => cases h

theorem starKinds_token (p : Piece) : starKinds p.token?.toList = p.starKind.toList := by
  cases p with
  | plain l =>
    cases l with
    | num n => exact (show ∀ r : Radix, starKinds [⟨r.tokenType, _⟩] = [] by
        rintro (_ | _) <;> rfl) n.radix
    | op o => cases o <;> rfl
    | pc | reg | lparen | rparen => rfl
  | rel r => cases r <;> rfl
  | star => rfl

/-- A piece where its stars are looked for gets its own token, and what follows
is looked for as `guards` says. -/
theorem record_piece {tokens : List Token} {p : Piece} {st : Bool} (hFollow : p.opens = !st)
    (hDeref : st = true → isDeref tokens = false) (hGuard : p = .star → isDeref tokens = true) :
    record tokens p = tokens ++ p.token?.toList ∧ isDeref (record tokens p) = p.guards := by
  cases p with
  | plain l =>
    have hRecord : recordToken tokens l.tokenType l.text = some l.token := by
      refine recordToken_lexeme l fun hOp => hDeref ?_
      simpa [opens, hOp] using hFollow
    simp only [record, tokenType, text, hRecord, token?, Option.toList_some, true_and]
    cases l with
    | num n => exact isDeref_append tokens (.num n) rfl
    | pc => exact isDeref_append tokens .pc rfl
    | reg i => exact isDeref_append tokens (.reg i) rfl
    | rparen => exact isDeref_append tokens .rparen rfl
    | op o =>
      rw [isDeref_concat]
      cases o <;> rfl
    | lparen =>
      rw [isDeref_concat]
      rfl
  | rel r =>
    have hOperand : isDeref tokens = false := hDeref (by simpa [opens] using hFollow)
    cases r with
    | lt => exact ⟨rfl, isDeref_concat tokens _⟩
    | gt => exact ⟨rfl, isDeref_concat tokens _⟩
    -- nothing is recorded, so the operand before the sign stays the last token
    | le => exact ⟨rfl, by simpa [record, recordToken, tokenType, Relation.tokenType, guards]⟩
    | ge => exact ⟨rfl, by simpa [record, recordToken, tokenType, Relation.tokenType, guards]⟩
  | star =>
    have hStar : record tokens star = tokens ++ [⟨.deref, []⟩] := by
      simp [record, recordToken, tokenType, hGuard rfl]
    rw [hStar]
    exact ⟨rfl, isDeref_concat tokens _⟩

theorem record_star {tokens : List Token} (h : isDeref tokens = false) :
    record tokens star = tokens ++ [⟨.times, []⟩] := by
  simp [record, recordToken, tokenType, h]

theorem prefix_foldl_record (tokens : List Token) (ps : List Piece) :
    tokens <+: ps.foldl record tokens := by
  induction ps generalizing tokens with
  | nil => exact List.prefix_refl tokens
  | cons p ps ih => exact (List.prefix_append tokens _).trans (ih (record tokens p))

/-- Where every prefix `*` is looked for, every piece gets its own token. -/
theorem foldl_record {ps : List Piece} {tokens : List Token} {st st' : Bool}
    (hFollow : follow st ps = some st') (hDeref : st = true → isDeref tokens = false)
    (hGuard : Guarded (isDeref tokens) ps) :
    ps.foldl record tokens = tokens ++ ps.filterMap token? := by
  induction ps generalizing tokens st with
  | nil => simp
  | cons p ps ih =>
    obtain ⟨hStar, hGuard⟩ := hGuard
    simp only [follow] at hFollow
    split at hFollow
    case isFalse => cases hFollow
    case isTrue hOpens =>
      obtain ⟨hRecord, hNext⟩ := record_piece hOpens hDeref hStar
      have hClosed : p.closes = true → isDeref (record tokens p) = false :=
        fun hCloses => hNext.trans (guards_of_closes hCloses)
      rw [List.foldl_cons, ih hFollow hClosed (hNext ▸ hGuard), hRecord]
      cases hTok : p.token? <;> simp [hTok]

/-- The kinds of the recorded `*` are those of the pieces only where every
prefix `*` is looked for. -/
theorem guarded_of_starKinds {ps : List Piece} {tokens : List Token} {st st' : Bool}
    (hFollow : follow st ps = some st') (hDeref : st = true → isDeref tokens = false)
    (hKinds : starKinds (ps.foldl record tokens) = starKinds tokens ++ ps.filterMap starKind) :
    Guarded (isDeref tokens) ps := by
  induction ps generalizing tokens st with
  | nil => trivial
  | cons p ps ih =>
    simp only [follow] at hFollow
    split at hFollow
    case isFalse => cases hFollow
    case isTrue hOpens =>
      have hStar : p = star → isDeref tokens = true := by
        rintro rfl
        by_contra hNot
        -- the star is stored as a multiplication, which no later piece changes
        rw [List.foldl_cons, record_star (by simpa using hNot)] at hKinds
        obtain ⟨us, hUs⟩ := prefix_foldl_record (tokens ++ [⟨.times, []⟩]) ps
        rw [← hUs, starKinds_append, starKinds_append, List.append_assoc,
          List.append_cancel_left_eq] at hKinds
        simp [starKinds, starKind] at hKinds
      obtain ⟨hRecord, hNext⟩ := record_piece hOpens hDeref hStar
      have hClosed : p.closes = true → isDeref (record tokens p) = false :=
        fun hCloses => hNext.trans (guards_of_closes hCloses)
      refine ⟨hStar, hNext ▸ ih hFollow hClosed ?_⟩
      rw [List.foldl_cons] at hKinds
      rw [hKinds, hRecord, starKinds_append, starKinds_token, List.append_assoc]
      cases hKind : p.starKind <;> simp [hKind]

end Piece

end Riscv32.Sdb
