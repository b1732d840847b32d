import Riscv32.Sdb.Sentences

/-!
# Prefix `*`

Whether a `*` dereferences is decided by the precedence of the token before it:
at most 5, as all binary operators have.  An opening parenthesis has 100 and a
dereference 6, so a prefix `*` behind one of them is stored as a
multiplication, and behind `<=` and `>=`, which are not stored, the operand
before the sign decides the same way.  Everywhere else the stars are told apart
and bind tighter than every binary operator.

The condition is `Guarded` of `Sdb.Recording`, and what follows from it is in
`Sdb.Sentences`; here both directions are put together, for every sentence, as
`derefs_applied_iff`.
-/

namespace Riscv32.Sdb

open Riscv32.Rtl Piece

/-- `make_token` stores the prefix `*` of `e` as dereferences and its other `*`
as multiplications, and `eval` on the tokens makes the loads of `e`.  The binary
operators compute what the `switch` has for them. -/
def DerefsApplied (e : Sentence) (text : List Char) : Prop :=
  ∃ tokens, makeToken text = .ok (some tokens) ∧
    starKinds tokens = e.tree.pieces.filterMap starKind ∧
    ∀ (σ : Type) (t : Target σ) (s s' : σ) (v : Word),
      eval t tokens s = .ok (v, s') ↔ e.tree.denote t Operator.switch s = .ok (v, s')

/-- `**1`. -/
def doubleStar : Sentence where
  tree := .deref (.deref (.num (digitNumeral .dec '1' one_mem_decDigits)))
  grammatical := by simp [Tree.Grammatical, Tree.level]

theorem doubleStar_printsTo : doubleStar.PrintsTo ['*', '*', '1'] :=
  ⟨[0, 0, 0].zip doubleStar.tree.pieces, rfl, by decide, 0, by decide, rfl⟩

theorem makeToken_doubleStar : makeToken ['*', '*', '1'] =
    .ok (some [⟨.deref, []⟩, ⟨.times, []⟩, ⟨.dec, ['1']⟩]) := by
  rw [makeToken_prints doubleStar_printsTo (by unfold Sentence.Fits; decide)]
  rfl

/-- The second star of `**1` multiplies: nothing is loaded, and the value is 0. -/
theorem doubleStar_multiplies :
    expr tenfold ['*', '*', '1'] true () = .ok ((0, true), ()) ∧
      doubleStar.tree.denote tenfold Operator.switch () = .error .access ∧
      ¬ DerefsApplied doubleStar ['*', '*', '1'] := by
  refine ⟨expr_of_evals makeToken_doubleStar ?_ true, rfl, ?_⟩
  · exact .binary (by decide) rfl (by decide) (.single ⟨.deref, []⟩ ()) (.single ⟨.dec, ['1']⟩ ())
      rfl
  · rintro ⟨tokens, hTok, hKinds, -⟩
    rw [makeToken_doubleStar] at hTok
    cases hTok
    exact absurd hKinds (by decide)

/-- **The stars of a sentence are told apart and applied exactly when no prefix
`*` stands directly behind a `(`, another prefix `*`, a `<=` or a `>=`.** -/
theorem derefs_applied_iff (e : Sentence) (text : List Char) (hPrint : e.PrintsTo text)
    (hFits : e.Fits) : DerefsApplied e text ↔ Guarded true e.tree.pieces := by
  constructor
  · rintro ⟨tokens, hTok, hKinds, -⟩
    rw [makeToken_prints hPrint hFits] at hTok
    cases hTok
    have hGuard : Guarded (isDeref []) e.tree.pieces :=
      guarded_of_starKinds (follow_pieces e.tree) (fun h => by cases h) hKinds
    exact hGuard
  · intro hGuard
    exact ⟨e.tree.tokens, makeToken_guarded hPrint hFits hGuard, starKinds_tokens e.tree,
      fun σ t s s' v => eval_eq_ok_iff_denote hGuard⟩

/-- `*1+2 * *(3)`. -/
def sampleStars : Sentence where
  tree :=
    .bin (.arith .add) (.deref (.num (digitNumeral .dec '1' one_mem_decDigits)))
      (.bin (.arith .mul) (.num (digitNumeral .dec '2' two_mem_decDigits))
        (.deref (.paren (.num (digitNumeral .dec '3' three_mem_decDigits)))))
  grammatical := by simp [Tree.Grammatical, Tree.level, Operator.level, BinOp.level]

/-- Its text. -/
def sampleStarsText : List Char := ['*', '1', '+', '2', ' ', '*', ' ', '*', '(', '3', ')']

theorem derefs_applied_iff_sample : DerefsApplied sampleStars sampleStarsText :=
  (derefs_applied_iff sampleStars sampleStarsText
    ⟨[0, 0, 0, 0, 1, 1, 0, 0, 0].zip sampleStars.tree.pieces, rfl, by decide, 0, by decide, rfl⟩
    (by unfold Sentence.Fits; decide)).2
    (by simp [Guarded, sampleStars, Tree.pieces, Operator.piece, guards])

end Riscv32.Sdb
