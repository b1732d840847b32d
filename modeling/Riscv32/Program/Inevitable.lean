import Mathlib.Order.Basic

/-!
# What every run reaches

Total correctness over a step relation.  `Inevitable step Q s` says that every
run from `s` comes to a state of `Q` and that none gets stuck before it.  The
relation may be nondeterministic: where a step can end in several states, all of
them have to lead on.

The rules are those of a program logic, over any type of states.

## Main results

* `Inevitable.trans`, `Inevitable.mono` — sequence and weakening.
* `Inevitable.loop` — an invariant with a measure that every round lowers.
* `Inevitable.transfer` — the passage from one machine to another that follows
  it, each step by finitely many of its own.
-/

namespace Riscv32.Program

section Rules

variable {σ τ : Type} {step : σ → σ → Prop} {P Q : σ → Prop} {s : σ}

/-- Whatever steps are taken from the state, `Q` comes. -/
inductive Inevitable (step : σ → σ → Prop) (Q : σ → Prop) : σ → Prop
  | here {s : σ} (h : Q s) : Inevitable step Q s
  | next {s : σ} (hSome : ∃ t, step s t) (hAll : ∀ t, step s t → Inevitable step Q t) :
      Inevitable step Q s

namespace Inevitable

/-- Sequence. -/
theorem trans (hFirst : Inevitable step P s) (hThen : ∀ t, P t → Inevitable step Q t) :
    Inevitable step Q s := by
  induction hFirst with
  | here h => exact hThen _ h
  | next hSome _ ih => exact .next hSome ih

theorem mono (h : Inevitable step P s) (hWeak : ∀ t, P t → Q t) : Inevitable step Q s :=
  h.trans fun t ht => .here (hWeak t ht)

/-- One step of a machine that has no other. -/
theorem only {t : σ} (hStep : step s t) (hOnly : ∀ t', step s t' → t' = t)
    (h : Inevitable step Q t) : Inevitable step Q s :=
  .next ⟨t, hStep⟩ fun _ ht => hOnly _ ht ▸ h

/-- **Loops**: an invariant under which every round either ends the loop or
comes back with a smaller measure. -/
theorem loop {I : σ → Prop} (m : σ → Nat)
    (hRound : ∀ s, I s → Inevitable step (fun t => Q t ∨ I t ∧ m t < m s) s) (hStart : I s) :
    Inevitable step Q s := by
  induction hm : m s using Nat.strongRecOn generalizing s with
  | ind n ih =>
      subst hm
      refine (hRound s hStart).trans fun t ht => ?_
      rcases ht with hDone | ⟨hAgain, hLess⟩
      · exact .here hDone
      · exact ih (m t) hLess hAgain rfl

/-- **Passage to an implementation**: where each step of one machine is matched by
a finite piece of every run of another, what the first must reach the second
reaches as well. -/
theorem transfer {impl : τ → τ → Prop} {R : σ → τ → Prop}
    (hSim : ∀ s t, R s t → (∃ s', step s s') →
      Inevitable impl (fun t' => ∃ s', step s s' ∧ R s' t') t)
    (h : Inevitable step Q s) {t : τ} (hR : R s t) :
    Inevitable impl (fun t' => ∃ s', Q s' ∧ R s' t') t := by
  induction h generalizing t with
  | here hDone => exact .here ⟨_, hDone, hR⟩
  | next hSome _ ih =>
      refine (hSim _ t hR hSome).trans fun t' ht' => ?_
      obtain ⟨s', hStep, hNext⟩ := ht'
      exact ih s' hStep hNext

end Inevitable

end Rules

/-! ## Machines given by a function -/

section Function

variable {σ : Type} {Q : σ → Prop} {s : σ}

/-- The step relation of a partial function. -/
def Steps (f : σ → Option σ) (s t : σ) : Prop := f s = some t

theorem Inevitable.eval {f : σ → Option σ} {t : σ} (hStep : f s = some t)
    (h : Inevitable (Steps f) Q t) : Inevitable (Steps f) Q s :=
  .only hStep (fun t' ht' => by
    rw [Steps, hStep] at ht'
    exact (Option.some.inj ht').symm) h

end Function

end Riscv32.Program
