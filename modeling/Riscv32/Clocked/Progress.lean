import Mathlib.Logic.Function.Iterate
import Riscv32.Clocked.Run

/-!
# Progress under a chosen environment

To show that a machine *can* get somewhere one chooses its inputs.  An input
chosen from the present state closes the loop (`closed`), and the inputs that
were chosen are an input stream like any other (`run_chosen`).

Two rules are proved for closed loops and for handshakes, over any machine.

## Main results

* `iterate_reaches` — the ranking rule: a closed loop whose steps keep an
  invariant and lower a rank until the goal is met meets the goal.
* `held_until` — the handshake rule: an offer that is held until it is answered
  meets the next answer.
-/

namespace Riscv32.Clocked

variable {σ ι : Type}

/-- One edge with the input chosen by `ctl`. -/
def closed (step : σ → ι → σ) (ctl : σ → ι) (s : σ) : σ := step s (ctl s)

/-- The inputs a closed loop chooses from `s` on. -/
def chosen (step : σ → ι → σ) (ctl : σ → ι) (s : σ) (k : Nat) : ι :=
  ctl ((closed step ctl)^[k] s)

/-- The closed loop is the run under the chosen inputs. -/
theorem run_chosen (step : σ → ι → σ) (ctl : σ → ι) (s : σ) (n : Nat) :
    run step s (chosen step ctl s) n = (closed step ctl)^[n] s := by
  induction n with
  | zero => rfl
  | succ n ih =>
      rw [run_succ, ih, Function.iterate_succ_apply']
      rfl

/-- **Ranking rule**: while the goal is not met a step keeps the invariant and
lowers the rank; then the goal is met, with the invariant, within `rank s` steps. -/
theorem iterate_reaches {f : σ → σ} (Inv Goal : σ → Prop) (rank : σ → Nat)
    (hStep : ∀ s, Inv s → ¬ Goal s → Inv (f s) ∧ rank (f s) < rank s) (s : σ) (hInv : Inv s) :
    ∃ n, n ≤ rank s ∧ Inv (f^[n] s) ∧ Goal (f^[n] s) := by
  induction hRank : rank s using Nat.strongRecOn generalizing s with
  | ind r ih =>
      by_cases hGoal : Goal s
      · exact ⟨0, Nat.zero_le _, hInv, hGoal⟩
      · obtain ⟨hNext, hLess⟩ := hStep s hInv hGoal
        obtain ⟨n, hn, hI, hG⟩ := ih _ (hRank ▸ hLess) (f s) hNext rfl
        refine ⟨n + 1, by omega, ?_, ?_⟩
        · rw [Function.iterate_succ_apply]
          exact hI
        · rw [Function.iterate_succ_apply]
          exact hG

/-- **Handshake rule**: what is held until it meets an answer meets the next
answer. -/
theorem held_until {P R : Nat → Prop} (hHold : ∀ k, P k → ¬ R k → P (k + 1)) {t : Nat}
    (hNow : P t) (hAnswer : ∃ k, t ≤ k ∧ R k) : ∃ k, t ≤ k ∧ P k ∧ R k := by
  obtain ⟨k, hk, hR⟩ := hAnswer
  obtain ⟨n, rfl⟩ := Nat.exists_eq_add_of_le hk
  -- on the distance to the answer
  induction n generalizing t with
  | zero => exact ⟨t, Nat.le_refl t, hNow, hR⟩
  | succ n ih =>
      by_cases hMeet : R t
      · exact ⟨t, Nat.le_refl t, hNow, hMeet⟩
      · obtain ⟨k, hk, hP, hRk⟩ := ih (hHold t hNow hMeet) (by omega)
          (by rwa [Nat.add_right_comm, Nat.add_assoc])
        exact ⟨k, by omega, hP, hRk⟩

end Riscv32.Clocked
