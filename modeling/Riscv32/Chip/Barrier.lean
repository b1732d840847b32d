import Riscv32.Cache.Flush
import Riscv32.Chip.Run
import Riscv32.Pipeline.Barrier

/-!
# `fence.i` is a barrier

The chip as a whole: the core drains its stores and closes decode before a
`fence.i` commits, the fetch unit flushes the cache before it fetches again,
and the cache answers only from refills requested since.  So nothing fetched,
cached or requested before the commit reaches decode after it.

The three facts come from three files, each about one part in an arbitrary
environment: `fenceiCommitted` of the core, `fetched_since_flush` of the fetch
unit with its cache, and `burstMemory_of_soc` of the bus.  The proof here only joins
them along the parts of one run of the chip.

`fencei_barrier` is the result.  A misaligned address is the one exception: it is
handed over with the zero word and without a fetch (`misaligned_not_refetched`).
-/

namespace Riscv32.Chip

open Riscv32.Rtl
open Riscv32.Clocked
open Riscv32.Fetch
open Riscv32.Pipeline
open Riscv32.Fabric
open Riscv32.Cache

/-- The words handed to decode in the chip. -/
def socHanded (s : Soc) (io : Nat → AxiResp) (t : Nat) : Option (Word × Word) :=
  handed .ysyxsoc s.core (coreInp s io) t

/-- The word `inst` at `pc`, handed over in cycle `t`, comes from a refill
requested after a flush after cycle `c`. -/
def Refetched (s : Soc) (io : Nat → AxiResp) (c t : Nat) (pc inst : Word) : Prop :=
  ∃ f, c < f ∧ flushAt s.fabric.frontend (frontendInp s io) f = true ∧
    ∃ r a u words,
      FetchedSince s.fabric.frontend (frontendInp s io) f t pc inst r a u words

/-- What a `fence.i` that commits in cycle `c` separates.  A misaligned address
is not fetched: it is handed over with the zero word. -/
structure Barrier (s : Soc) (io : Nat → AxiResp) (c : Nat) : Prop
    extends FenceiCommitted .ysyxsoc s.core (coreInp s io) c where
  refetched : ∀ t pc inst, c < t → socHanded s io t = some (pc, inst) → misaligned pc = false →
    Refetched s io c t pc inst
  exception : ∀ t pc inst, c < t → socHanded s io t = some (pc, inst) → misaligned pc = true →
    inst = 0

section Main

variable {s : Soc} {io : Nat → AxiResp}

/-- What is handed over is what the slot holds. -/
private theorem slot_of_handed {t : Nat} {pc inst : Word} (hReset : s.AfterReset)
    (hHanded : socHanded s io t = some (pc, inst)) :
    (frontendAt s.fabric.frontend (frontendInp s io) t).ifu.ifuState = .valid ∧
      (frontendAt s.fabric.frontend (frontendInp s io) t).ifu.outPc = pc ∧
      (frontendAt s.fabric.frontend (frontendInp s io) t).ifu.outInst = inst ∧
      (frontendAt s.fabric.frontend (frontendInp s io) t).ifu.outExceptionValid =
        misaligned pc ∧
      (misaligned pc = true → inst = 0) := by
  rw [← frontend_socAt]
  change (socAt s io t).core.ifu.ifuState = .valid ∧ (socAt s io t).core.ifu.outPc = pc ∧
    (socAt s io t).core.ifu.outInst = inst ∧
    (socAt s io t).core.ifu.outExceptionValid = misaligned pc ∧ _
  unfold socHanded handed at hHanded
  rw [← core_socAt] at hHanded
  split at hHanded
  · rename_i hTake
    cases hHanded
    obtain ⟨hValid, -⟩ := iduInFire_open hTake
    obtain ⟨f, pc, -, hFront⟩ := @coreInv_socAt s io hReset t
    have hSlot := hFront.tracks.slot
    refine ⟨hValid, rfl, rfl, ?_, ?_⟩
    · rw [hSlot.validExc hValid, hSlot.validPc hValid]
    · rw [hSlot.validPc hValid]
      exact hSlot.validInst hValid
  · cases hHanded

/-- **`fence.i` is a barrier.**  For every run of the chip and every latency of
the slave behind `io_master`. -/
theorem fencei_barrier (hReset : s.AfterReset) (hSoc : SocBursts s.fabric (fabricInp s io))
    {c : Nat} (hCommit : FenceiCommits .ysyxsoc s.core (coreInp s io) c) : Barrier s io c := by
  have hFabric := Soc.fabric_afterReset hReset
  have hMem : BurstMemory s.fabric.frontend (frontendInp s io) := by
    rw [frontendInp_eq]
    exact burstMemory_of_soc hFabric hSoc
  -- in cycle `c` the sequencer is at rest and sees the commit
  have hStart : (frontendInp s io c).inFenceiDone = true ∧
      (frontendAt s.fabric.frontend (frontendInp s io) c).ifu.fenceiState = .idle := by
    rw [← frontend_socAt]
    obtain ⟨hFire, hFence⟩ := hCommit
    rw [← core_socAt] at hFire hFence
    obtain ⟨f, pc, hBack, hFront⟩ := @coreInv_socAt s io hReset c
    obtain ⟨e, he, hFlag, -, -, -, hIdle⟩ := fenceiCommits_alone hBack hFront hFire hFence
    exact ⟨(fenceiDone_eq hBack).mpr ⟨e, he, hFlag, hFire⟩, hIdle.state⟩
  refine ⟨fenceiCommitted hReset.core hCommit, ?_, ?_⟩
  · intro t pc inst ht hHanded hAligned
    obtain ⟨hValid, rfl, rfl, hExc, -⟩ := slot_of_handed hReset hHanded
    rw [hAligned] at hExc
    exact fetched_since_flush hFabric.frontend hMem hStart.1 hStart.2 ht hValid hExc
  · intro t pc inst _ hHanded hMis
    exact (slot_of_handed hReset hHanded).2.2.2.2 hMis

end Main

/-- A slave that answers at once.  The first line holds a `fence.i` and a jump
to address 2, `jalr x0, 2(x0)`; it is read in cycles 4 to 7 and, after the
flush, again in cycles 19 to 22. -/
def fenceThenJump (t : Nat) : AxiResp :=
  if t < 32 then
    { arready := true
      rvalid := true
      rdata :=
        if t == 4 || t == 19 then 0x0000100f#32
        else if t == 5 || t == 20 then 0x00200067#32
        else 0x00000013#32
      rlast := t == 7 || t == 22 }
  else {}

private theorem fenceThenJump_bursts :
    SocBursts Soc.powerUp.fabric (fabricInp Soc.powerUp fenceThenJump) := by
  refine lastOnBeat_of_test (n := 32) (by decide +kernel) fun t ht => ?_
  simp [socBeat, rFire, fabricInp, Soc.fabricIn, fenceThenJump, show ¬ t < 32 by omega]

/-- The `fence.i` commits in cycle 12; the jump behind it is handed over in
cycle 24 out of the second refill. -/
theorem fencei_barrier_jump :
    socHanded Soc.powerUp fenceThenJump 24 = some (0x30000004#32, 0x00200067#32) ∧
      Barrier Soc.powerUp fenceThenJump 12 :=
  ⟨by decide +kernel, fencei_barrier Soc.powerUp_afterReset fenceThenJump_bursts
    (by decide +kernel)⟩

/-- The misaligned target of the jump is handed over in cycle 27 with a word
that was never fetched and that no refill has delivered. -/
theorem misaligned_not_refetched :
    SocBursts Soc.powerUp.fabric (fabricInp Soc.powerUp fenceThenJump) ∧
      FenceiCommits .ysyxsoc Soc.powerUp.core (coreInp Soc.powerUp fenceThenJump) 12 ∧
      socHanded Soc.powerUp fenceThenJump 27 = some (2, 0) ∧
      ¬ Refetched Soc.powerUp fenceThenJump 12 27 2 0 ∧
      ∀ k < 27, refillBeat Soc.powerUp.fabric.frontend
        (frontendInp Soc.powerUp fenceThenJump) k ≠ some 0 := by
  refine ⟨fenceThenJump_bursts, by decide +kernel, by decide +kernel, ?_, by decide +kernel⟩
  rintro ⟨f, -, -, r, a, u, words, hFetched⟩
  have hNever : ∀ k < 27, fetchAr Soc.powerUp.fabric.frontend
      (frontendInp Soc.powerUp fenceThenJump) k ≠ some 2 := by decide +kernel
  exact hNever r hFetched.fetchBefore hFetched.fetch

end Riscv32.Chip
