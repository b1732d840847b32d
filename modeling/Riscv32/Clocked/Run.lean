import Mathlib.Data.List.Basic

/-!
# Runs of clocked machines

A synchronous circuit is a next-state function `step : σ → ι → σ`: one call is
one clock edge, `ι` is what the environment drives in that cycle.  This file
gives the vocabulary every temporal statement of the package is written in:
the run of a machine under an input stream, the rule that turns a one-edge
fact into a fact about every cycle, monitors that watch a run without
disturbing it, and the projection of a composed machine onto one component.

Nothing here knows which circuit is being clocked.

## Main results

* `run_invariant`, `run_held` — what survives an edge holds in every cycle, and
  what changes only in an event is kept until the next one.
* `run_project` — a component of a composed machine makes a run of its own.
* `feedOuts_simulate`, `log_simulate` — a machine that keeps step with another
  gives the same outputs, and a log of events can be read off either.
-/

namespace Riscv32.Clocked

variable {σ τ ι κ γ α : Type}

/-- State at the start of cycle `t` when `inp` drives the machine from `s`. -/
def run (step : σ → ι → σ) (s : σ) (inp : Nat → ι) : Nat → σ
  | 0 => s
  | t + 1 => step (run step s inp t) (inp t)

/-- What a monitor `watch` has seen of the run before cycle `t`. -/
def observe (step : σ → ι → σ) (watch : γ → σ → ι → γ) (g : γ) (s : σ)
    (inp : Nat → ι) : Nat → γ
  | 0 => g
  | t + 1 => watch (observe step watch g s inp t) (run step s inp t) (inp t)

@[simp] theorem run_zero (step : σ → ι → σ) (s : σ) (inp : Nat → ι) :
    run step s inp 0 = s := rfl

theorem run_succ (step : σ → ι → σ) (s : σ) (inp : Nat → ι) (t : Nat) :
    run step s inp (t + 1) = step (run step s inp t) (inp t) := rfl

@[simp] theorem observe_zero (step : σ → ι → σ) (watch : γ → σ → ι → γ)
    (g : γ) (s : σ) (inp : Nat → ι) : observe step watch g s inp 0 = g := rfl

/-- **Invariant rule**: what holds initially and survives every edge holds in
every cycle. -/
theorem run_invariant {step : σ → ι → σ} {s : σ} {inp : Nat → ι}
    (Inv : σ → Prop) (hInit : Inv s)
    (hStep : ∀ s i, Inv s → Inv (step s i)) (t : Nat) :
    Inv (run step s inp t) := by
  induction t with
  | zero => exact hInit
  | succ t ih => exact hStep _ _ ih

/-- **Frame rule**: what changes only in an event is kept until the next one. -/
theorem run_held {step : σ → ι → σ} {s : σ} {inp : Nat → ι} (f : σ → α) (event : σ → ι → Bool)
    (hKeep : ∀ s i, event s i = false → f (step s i) = f s) {a t : Nat} (ha : a ≤ t)
    (hQuiet : ∀ k, a ≤ k → k < t → event (run step s inp k) (inp k) = false) :
    f (run step s inp t) = f (run step s inp a) := by
  obtain ⟨n, rfl⟩ := Nat.exists_eq_add_of_le ha
  induction n with
  | zero => rfl
  | succ n ih =>
      rw [← Nat.add_assoc, run_succ, hKeep _ _ (hQuiet (a + n) (by omega) (by omega))]
      exact ih (by omega) fun k h1 h2 => hQuiet k h1 (by omega)

/-- Running from the middle of a run is running the rest of it. -/
theorem run_add (step : σ → ι → σ) (s : σ) (inp : Nat → ι) (a n : Nat) :
    run step s inp (a + n) =
      run step (run step s inp a) (fun k => inp (a + k)) n := by
  induction n with
  | zero => rfl
  | succ n ih => rw [← Nat.add_assoc, run_succ, ih, run_succ]

/-- **Projection rule**: when the `f`-part of the big machine moves by
`small` under inputs the big machine wires to it, the `f`-part of a run of the
big machine is a run of the small one. -/
theorem run_project {big : σ → ι → σ} {small : τ → κ → τ} (f : σ → τ)
    (wire : σ → ι → κ) (hStep : ∀ s i, f (big s i) = small (f s) (wire s i))
    (s : σ) (inp : Nat → ι) (t : Nat) :
    f (run big s inp t) =
      run small (f s) (fun k => wire (run big s inp k) (inp k)) t := by
  induction t with
  | zero => rfl
  | succ t ih => rw [run_succ, hStep, ih, run_succ]

/-! ## Event streams

`ev t` is the event of cycle `t`, if there is one.
-/

/-- The events of the cycles `a ≤ k < t`, oldest first. -/
def logFrom (ev : Nat → Option α) (a : Nat) : Nat → List α
  | 0 => []
  | t + 1 => if a ≤ t then logFrom ev a t ++ (ev t).toList else []

theorem logFrom_self (ev : Nat → Option α) (a : Nat) : logFrom ev a a = [] := by
  cases a with
  | zero => rfl
  | succ a => rw [logFrom, if_neg (by omega)]

theorem logFrom_succ (ev : Nat → Option α) {a t : Nat} (h : a ≤ t) :
    logFrom ev a (t + 1) = logFrom ev a t ++ (ev t).toList := by
  simp [logFrom, h]

/-! ## Machines fed from a list

A one-input-at-a-time machine with an output for every input.
-/

/-- State after the inputs `l`. -/
def feedState (step : σ → ι → σ × α) (s : σ) (l : List ι) : σ :=
  l.foldl (fun s i => (step s i).1) s

/-- Outputs produced on the inputs `l`. -/
def feedOuts (step : σ → ι → σ × α) : σ → List ι → List α
  | _, [] => []
  | s, i :: l => (step s i).2 :: feedOuts step (step s i).1 l

theorem feedState_concat (step : σ → ι → σ × α) (s : σ) (l : List ι) (i : ι) :
    feedState step s (l ++ [i]) = (step (feedState step s l) i).1 := by
  simp [feedState, List.foldl_append]

theorem feedOuts_concat (step : σ → ι → σ × α) (s : σ) (l : List ι) (i : ι) :
    feedOuts step s (l ++ [i]) =
      feedOuts step s l ++ [(step (feedState step s l) i).2] := by
  induction l generalizing s with
  | nil => rfl
  | cons j l ih =>
      simp only [List.cons_append, feedOuts, feedState, List.foldl_cons] at ih ⊢
      rw [ih]

/-- **Simulation rule**: a machine that keeps step with another, input by
input, gives the same outputs. -/
theorem feedOuts_simulate {step : σ → ι → σ × α} {f : τ → κ → τ × α} (R : σ → τ → Prop)
    (g : ι → κ) (hStep : ∀ s m i, R s m →
      R (step s i).1 (f m (g i)).1 ∧ (step s i).2 = (f m (g i)).2)
    (s : σ) (m : τ) (h : R s m) (l : List ι) :
    feedOuts step s l = feedOuts f m (l.map g) := by
  induction l generalizing s m with
  | nil => rfl
  | cons i l ih =>
      obtain ⟨hNext, hOut⟩ := hStep s m i h
      simp only [List.map_cons, feedOuts]
      rw [hOut, ih _ _ hNext]

/-- **Sampling rule**: a run whose events keep step with a machine logs that
machine's outputs.  An event is an input and the output given for it. -/
theorem log_simulate {f : τ → κ → τ × α} (ev : Nat → Option (κ × α)) (R : Nat → τ → Prop)
    (m : τ) (hInit : R 0 m)
    (hNone : ∀ t m, R t m → ev t = none → R (t + 1) m)
    (hSome : ∀ t m k a, R t m → ev t = some (k, a) → R (t + 1) (f m k).1 ∧ a = (f m k).2)
    (t : Nat) :
    R t (feedState f m ((logFrom ev 0 t).map Prod.fst)) ∧
      (logFrom ev 0 t).map Prod.snd = feedOuts f m ((logFrom ev 0 t).map Prod.fst) := by
  induction t with
  | zero => exact ⟨hInit, rfl⟩
  | succ t ih =>
      obtain ⟨hNow, hLog⟩ := ih
      rw [logFrom_succ ev (Nat.zero_le t)]
      cases hEv : ev t with
      | none => simpa using ⟨hNone t _ hNow hEv, hLog⟩
      | some x =>
          obtain ⟨hNext, hOut⟩ := hSome t _ x.1 x.2 hNow hEv
          simp only [Option.toList_some, List.map_append, List.map_cons, List.map_nil,
            feedState_concat, feedOuts_concat]
          exact ⟨hNext, by rw [hLog, hOut]⟩

end Riscv32.Clocked
