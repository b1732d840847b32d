import Riscv32.Clocked.Run

/-!
# Bursts

A requester opens a burst of `n + 1` beats, the responder delivers the beats
one by one and flags the last.  `LastOnBeat` is what a responder promises: the
flag is up in exactly the beat that completes the open burst, `QuietBetween`
being that no other burst was opened since.

The definitions are over any logs of requests and beats, a cycle each, and name
no signal of a bus.  The lemmas say how the beats of an open burst grow by one
cycle.  `quietTest` and `lastTest` are the same conditions on finitely many
cycles, as tests, and `lastOnBeat_of_test` makes the promise from a test that
passes and silence afterwards.
-/

namespace Riscv32.Clocked

variable {α β : Type}

/-- Nothing happens strictly between cycles `a` and `t`. -/
def QuietBetween (ev : Nat → Option β) (a t : Nat) : Prop := ∀ k, a < k → k < t → ev k = none

/-- Nothing lies between a cycle and the next. -/
theorem quietBetween_next (ev : Nat → Option β) (a : Nat) : QuietBetween ev a (a + 1) := by
  intro k h1 h2
  omega

/-- One more quiet cycle. -/
theorem QuietBetween.succ {ev : Nat → Option β} {a t : Nat} (h : QuietBetween ev a t)
    (hNone : ev t = none) : QuietBetween ev a (t + 1) := by
  intro k h1 h2
  rcases Nat.lt_succ_iff_lt_or_eq.mp h2 with h | rfl
  · exact ‹QuietBetween ev a t› k h1 h
  · exact hNone

/-- The responder flags exactly the beat that completes the open burst: a
request `b` opens a burst of `len b + 1` beats. -/
def LastOnBeat (ar : Nat → Option β) (len : β → Nat) (beat : Nat → Option α)
    (last : Nat → Bool) : Prop :=
  ∀ a t b, a < t → ar a = some b → QuietBetween ar a t → (beat t).isSome = true →
    (last t = true ↔ (logFrom beat (a + 1) t).length = len b)

/-! ### Finite checks

A responder that falls silent can be checked by evaluation.
-/

/-- `QuietBetween` as a test. -/
def quietTest (ev : Nat → Option β) (a t : Nat) : Bool :=
  (List.range t).all fun k => k ≤ a || (ev k).isNone

/-- `LastOnBeat` for the beats before cycle `n`, as a test. -/
def lastTest (ar : Nat → Option β) (len : β → Nat) (beat : Nat → Option α) (last : Nat → Bool)
    (n : Nat) : Bool :=
  (List.range n).all fun t => (beat t).isNone || (List.range t).all fun a =>
    match ar a with
    | none => true
    | some b => !quietTest ar a t || last t == ((logFrom beat (a + 1) t).length == len b)

/-- The test accepts what is quiet. -/
theorem quietTest_of_quiet {ev : Nat → Option β} {a t : Nat} (h : QuietBetween ev a t) :
    quietTest ev a t = true := by
  simp only [quietTest, List.all_eq_true, List.mem_range, Bool.or_eq_true, decide_eq_true_eq]
  intro k hk
  by_cases ha : k ≤ a
  · exact .inl ha
  · exact .inr (by rw [h k (by omega) hk]; rfl)

/-- A responder that passes the test and is silent afterwards keeps the promise. -/
theorem lastOnBeat_of_test {ar : Nat → Option β} {len : β → Nat} {beat : Nat → Option α}
    {last : Nat → Bool} {n : Nat} (hTest : lastTest ar len beat last n = true)
    (hSilent : ∀ t, n ≤ t → beat t = none) : LastOnBeat ar len beat last := by
  intro a t b ha hAr hQuiet hBeat
  have hLt : t < n := by
    by_contra hGe
    rw [hSilent t (by omega)] at hBeat
    cases hBeat
  have hAt := List.all_eq_true.mp hTest t (List.mem_range.mpr hLt)
  have hSome : (beat t).isNone = false := by
    cases hB : beat t with
    | none => simp [hB] at hBeat
    | some x => rfl
  rw [hSome, Bool.false_or] at hAt
  have hFrom := List.all_eq_true.mp hAt a (List.mem_range.mpr ha)
  simp only [hAr, quietTest_of_quiet hQuiet, Bool.not_true, Bool.false_or, beq_iff_eq] at hFrom
  rw [hFrom, beq_iff_eq]

section Log

variable {ev : Nat → Option α} {a t : Nat}

/-- A cycle without an event leaves the log. -/
theorem logFrom_none (h : a ≤ t) (hNone : ev t = none) :
    logFrom ev a (t + 1) = logFrom ev a t := by
  simp [logFrom_succ ev h, hNone]

/-- An event joins the log at its end. -/
theorem logFrom_some {x : α} (h : a ≤ t) (hSome : ev t = some x) :
    logFrom ev a (t + 1) = logFrom ev a t ++ [x] := by
  simp [logFrom_succ ev h, hSome]

end Log

end Riscv32.Clocked
