import Riscv32.Clocked.Run
import Riscv32.Data.Halves
import Riscv32.Rtl.Exu

/-!
# What the CSR file keeps

`CSR.sv` over runs with arbitrary inputs.  The trap registers hold what was
written last.  The counter is assigned last in its block, so a write to either
half of it is lost in the cycle that makes it.

`lastWrite` is the history of one address and `countAt` a counter that its
writes do reach; both are what the file is for, and are compared with the file
that the source describes.

## Main results

* `readsBack_at` — what is read from a trap register was written last.
* `counter_step` — the counter counts, whatever is written.
* `csr_reads_back_counter_kept_iff` — over every run, the counter is the one its
  writes reach exactly if no cycle writes another value than the count takes.
-/

namespace Riscv32.Pipeline

open Riscv32.Rtl
open Riscv32.Clocked
open Riscv32.Data

/-- The write of a cycle to the register at `addr`; an ecall comes first. -/
def csrWrite (addr : BitVec 12) (i : Csr.In) : Option Word :=
  if i.isEcall then
    if addr = 0x341#12 then some i.pc else if addr = 0x342#12 then some 11 else none
  else if i.csrWen ∧ i.csrAddr = addr then some i.csrWdata
  else none

/-- `mstatus`, `mtvec`, `mepc` and `mcause`. -/
def trapCsrs : List (BitVec 12) := [0x300#12, 0x305#12, 0x341#12, 0x342#12]

section Run

variable (s : Csr) (inp : Nat → Csr.In)

/-- The file at the start of cycle `t`. -/
def csrAt (t : Nat) : Csr := run Csr.step s inp t

/-- The latest value written to `addr` before cycle `t`. -/
def lastWrite (addr : BitVec 12) (t : Nat) : Option Word :=
  (logFrom (fun k => csrWrite addr (inp k)) 0 t).getLast?

/-- A read of a trap register in cycle `t` returns the latest write. -/
def ReadsBack (t : Nat) : Prop :=
  ∀ addr ∈ trapCsrs, (csrAt s inp t).rdata addr = (lastWrite inp addr t).getD (s.rdata addr)

end Run

/-- `{mcycleh, mcycle}`. -/
def counter (s : Csr) : BitVec 64 := s.mcycleh ++ s.mcycle

/-- A counter that its writes reach: the written half is replaced, and without
a write the pair counts. -/
def countNext (c : BitVec 64) (i : Csr.In) : BitVec 64 :=
  match csrWrite 0xB00#12 i, csrWrite 0xB80#12 i with
  | some v, _ => (c.extractLsb' 32 32 ++ v : BitVec 64)
  | none, some v => (v ++ c.extractLsb' 0 32 : BitVec 64)
  | none, none => c + 1

/-- The value the pair should have in cycle `t`. -/
def countAt (s : Csr) (inp : Nat → Csr.In) (t : Nat) : BitVec 64 := run countNext (counter s) inp t

/-- The cycle writes no half of the counter, or to `mcycle` the value it takes anyway. -/
def CounterKept (s : Csr) (i : Csr.In) : Prop :=
  csrWrite 0xB80#12 i = none ∧
    ∀ v, csrWrite 0xB00#12 i = some v → s.mcycle ≠ 0xffffffff#32 ∧ v = s.mcycle + 1

/-! ## Trap registers -/

/-- A write reaches no register but its own. -/
theorem rdata_write_of_ne (s : Csr) (v x y : Word) {a addr : BitVec 12} (h : addr ∈ trapCsrs)
    (hNe : a ≠ addr) :
    Csr.rdata { s.write a v with mcycleh := x, mcycle := y } addr = s.rdata addr := by
  simp only [trapCsrs, List.mem_cons, List.not_mem_nil, or_false] at h
  unfold Csr.write
  split <;> rcases h with rfl | rfl | rfl | rfl <;> first | rfl | exact absurd rfl hNe

theorem rdata_step (s : Csr) (i : Csr.In) {addr : BitVec 12} (h : addr ∈ trapCsrs) :
    (s.step i).rdata addr = (csrWrite addr i).getD (s.rdata addr) := by
  unfold Csr.step csrWrite
  cases hEcall : i.isEcall with
  | true =>
      simp only [trapCsrs, List.mem_cons, List.not_mem_nil, or_false] at h
      rcases h with rfl | rfl | rfl | rfl <;> rfl
  | false =>
      cases hWen : i.csrWen with
      | false =>
          simp only [trapCsrs, List.mem_cons, List.not_mem_nil, or_false] at h
          rcases h with rfl | rfl | rfl | rfl <;> rfl
      | true =>
          by_cases hAddr : i.csrAddr = addr
          · rw [hAddr]
            simp only [trapCsrs, List.mem_cons, List.not_mem_nil, or_false] at h
            rcases h with rfl | rfl | rfl | rfl <;> simp [Csr.write, Csr.rdata]
          · simpa [hAddr] using rdata_write_of_ne s i.csrWdata _ _ h hAddr

theorem lastWrite_succ (inp : Nat → Csr.In) (addr : BitVec 12) (t : Nat) :
    lastWrite inp addr (t + 1) = (csrWrite addr (inp t)).or (lastWrite inp addr t) := by
  rw [lastWrite, logFrom_succ _ (Nat.zero_le t), lastWrite]
  cases csrWrite addr (inp t) with
  | none => simp
  | some v => simp

/-- What is read in any cycle was written last. -/
theorem readsBack_at (s : Csr) (inp : Nat → Csr.In) (t : Nat) : ReadsBack s inp t := by
  intro addr hAddr
  induction t with
  | zero => rfl
  | succ t ih =>
      have hStep : csrAt s inp (t + 1) = (csrAt s inp t).step (inp t) := rfl
      rw [hStep, rdata_step _ _ hAddr, ih, lastWrite_succ]
      cases csrWrite addr (inp t) <;> rfl

/-! ## The counter -/

/-- The counter counts, whatever is written. -/
theorem counter_step (s : Csr) (i : Csr.In) : counter (s.step i) = counter s + 1 := by
  have hHalves : counter (s.step i) =
      (s.cycleNext.extractLsb' 32 32 ++ s.cycleNext.extractLsb' 0 32 : BitVec 64) := rfl
  rw [hHalves, BitVec.extractLsb'_append_extractLsb'_eq_extractLsb' (by decide)]
  simp [Csr.cycleNext, counter]

/-- Only a write of the value the count takes anyway is not lost. -/
theorem countNext_eq_iff (s : Csr) (i : Csr.In) :
    counter s + 1 = countNext (counter s) i ↔ CounterKept s i := by
  have hHigh : (counter s).extractLsb' 32 32 = s.mcycleh := by
    rw [counter, BitVec.extractLsb'_append_eq_of_le (by decide)]
    simp
  have hLow : (counter s).extractLsb' 0 32 = s.mcycle := by
    rw [counter, BitVec.extractLsb'_append_eq_of_add_le (by decide)]
    simp
  unfold countNext CounterKept
  rw [hHigh, hLow, counter, halves_add_one]
  cases hWriteHigh : csrWrite 0xB80#12 i with
  | some v =>
      have hNoLow : csrWrite 0xB00#12 i = none := by
        unfold csrWrite at hWriteHigh ⊢
        cases hEcall : i.isEcall with
        | true => simp [hEcall] at hWriteHigh
        | false =>
            simp only [hEcall, Bool.false_eq_true, if_false] at hWriteHigh ⊢
            split at hWriteHigh
            case isTrue hAddr => simp [hAddr.2]
            case isFalse => cases hWriteHigh
      -- The low half counts on, so a write to the high half never survives.
      simp [hNoLow, halves_inj]
  | none =>
      cases hWriteLow : csrWrite 0xB00#12 i with
      | none => simp
      | some v =>
          by_cases hTop : s.mcycle = 0xffffffff#32
          · simp [halves_inj, hTop]
          · simp [halves_inj, hTop, eq_comm]

/-- **The CSR file over every run.** -/
theorem csr_reads_back_counter_kept_iff (s : Csr) (inp : Nat → Csr.In) :
    (∀ t, ReadsBack s inp t) ∧
      ((∀ t, counter (csrAt s inp t) = countAt s inp t) ↔
        ∀ t, CounterKept (csrAt s inp t) (inp t)) := by
  refine ⟨readsBack_at s inp, ?_, ?_⟩
  · intro h t
    rw [← countNext_eq_iff, ← counter_step]
    calc counter ((csrAt s inp t).step (inp t)) = countAt s inp (t + 1) := h (t + 1)
      _ = countNext (countAt s inp t) (inp t) := rfl
      _ = countNext (counter (csrAt s inp t)) (inp t) := by rw [h t]
  · intro h t
    induction t with
    | zero => rfl
    | succ t ih =>
        calc counter (csrAt s inp (t + 1)) = counter (csrAt s inp t) + 1 := counter_step _ _
          _ = countNext (counter (csrAt s inp t)) (inp t) := (countNext_eq_iff _ _).2 (h t)
          _ = countAt s inp (t + 1) := by rw [ih]; rfl

/-- `mcycle` is written with 5 in cycle 0. -/
def writeMcycle (t : Nat) : Csr.In :=
  if t = 0 then ⟨0xB00#12, true, false, 0, 5⟩ else ⟨0, false, false, 0, 0⟩

/-- The written 5 is lost: the counter went on from 0. -/
theorem counter_write_lost :
    ¬ ∀ (s : Csr) (inp : Nat → Csr.In),
      (∀ t, ReadsBack s inp t) ∧ ∀ t, counter (csrAt s inp t) = countAt s inp t := by
  intro h
  have hOne : counter (csrAt default writeMcycle 1) = countAt default writeMcycle 1 :=
    (h default writeMcycle).2 1
  exact absurd hOne (by decide)

end Riscv32.Pipeline
