import Riscv32.Pipeline.Barrier

/-!
# Behind a committed `fence.i`

From its commit until `fence_pending` falls, a `fence.i` leaves an empty
pipeline and a fetch unit whose sequencer decides alone what happens next: it
waits until the read channel is idle and the slave behind it is ready, pulses
the flush, and reports.

`Drained` is that state.  `drained_step` and `drained_report` are all that an
edge can do to it, so questions about progress behind a `fence.i` are questions
about the sequencer alone.

## Main results

* `Draining.drained` — while a `fence.i` drains, the pipeline is empty.
* `drained_stuck` — if the slave is never ready while the read channel is idle,
  the sequencer waits for ever.
-/

namespace Riscv32.Pipeline

open Riscv32.Rtl
open Riscv32.Clocked
open Riscv32.Fetch

/-- The pipeline is empty, decode is closed, and the address `pc` is the next
to fetch; the sequencer is under way or reports in this cycle. -/
structure Drained (s : Core) (pc : Word) : Prop where
  pending : s.idu.fencePending = true
  idu : s.idu.outValid = false
  exu : s.exu.outValid = false
  lsuState : s.lsu.lsuState = .idle
  lsuValid : s.lsu.outValid = false
  slot : s.ifu.ifuState = .empty
  unblocked : s.ifu.exceptionPending = false
  fetchPc : s.ifu.fetchPc = pc
  aligned : misaligned pc = false
  sequencer : s.ifu.outFenceiFlushDone = (s.ifu.fenceiState == .idle)
  channel : s.ifu.fenceiState ≠ .wait → s.ifu.axiState = .idle

section Step

variable {arch : Arch} {s : Core} {i : CoreIn} {pc : Word}

/-- Nothing moves between the stages. -/
theorem Drained.quiet (h : Drained s pc) :
    s.redirectFire = false ∧ s.iduInFire = false ∧ s.exuInFire = false ∧ s.commitFire = false ∧
      s.fenceiDone = false := by
  refine ⟨redirectFire_false_of_invalid h.idu, iduInFire_false_of_pending h.pending,
    exuInFire_false_of_invalid h.idu, h.lsuValid, ?_⟩
  simp [Core.fenceiDone, Core.commitFire, h.lsuValid]

theorem Drained.pending_step (h : Drained s pc) :
    (s.step arch i).idu.fencePending = !s.ifu.outFenceiFlushDone := by
  obtain ⟨hRedirect, hFire, -⟩ := h.quiet
  rw [fencePending_step]
  simp [hRedirect, hFire, h.pending]

/-- The back half stays empty. -/
private theorem back_step (h : Drained s pc) :
    (s.step arch i).idu.outValid = false ∧ (s.step arch i).exu.outValid = false ∧
      (s.step arch i).lsu.lsuState = .idle ∧ (s.step arch i).lsu.outValid = false := by
  obtain ⟨hRedirect, hFire, hEnter, -⟩ := h.quiet
  have hIn : s.exu.inFire s.idu.outValid s.lsuReady = false := hEnter
  refine ⟨?_, ?_, ?_, ?_⟩
  · simp [iduValid_step, hRedirect, hFire, hEnter, h.idu]
  · simp [Core.step, Exu.step, hIn, h.exu]
  · simp [Core.step, Lsu.step, Lsu.stateNext, h.lsuState, Core.lsuIn, h.exu]
  · simp [Core.step, Lsu.step, Lsu.outValidNext, Lsu.passFire, Lsu.inFire, Lsu.outFire, rFire,
      bFire, Lsu.axi, h.lsuState, h.lsuValid, Core.lsuIn, h.exu]

/-- The slot stays empty until the sequencer has reported. -/
private theorem slot_step (h : Drained s pc) :
    (s.step arch i).ifu.toIfuSlot = s.ifu.toIfuSlot := by
  obtain ⟨hRedirect, -, -, -, hDone⟩ := h.quiet
  have hMove := slotMove s.ifu (s.ifuIn i)
  change s.ifu.slotBlock (s.ifuIn i) = _
  generalize s.ifu.slotBlock (s.ifuIn i) = sl at hMove
  cases hMove with
  | redirect hBad => rw [show (s.ifuIn i).inRedirectFire = false from hRedirect] at hBad; cases hBad
  | fence _ hBad => rw [show (s.ifuIn i).inFenceiDone = false from hDone] at hBad; cases hBad
  | raise _ _ _ hMis _ => rw [h.fetchPc, h.aligned] at hMis; cases hMis
  | accept _ _ _ _ hFire _ hIdle =>
      have hWait := rFire_waitR hFire
      rw [h.channel (by simp [hIdle])] at hWait
      cases hWait
  | handOver _ _ hValid _ => rw [h.slot] at hValid; cases hValid
  | keep => rfl

/-- The read channel starts nothing while the sequencer is under way. -/
theorem axi_rests (hState : s.ifu.fenceiState ≠ .idle) (hIdle : s.ifu.axiState = .idle) :
    (s.step arch i).ifu.axiState = .idle := by
  have hMove := axiMove s.ifu (s.ifuIn i)
  change (s.ifu.axiBlock (s.ifuIn i)).axiState = .idle
  generalize s.ifu.axiBlock (s.ifuIn i) = ax at hMove
  cases hMove with
  | start _ _ hBad => exact absurd hBad hState
  | rest | answered => rfl
  | ask hBad | asked hBad | await hBad => rw [hIdle] at hBad; cases hBad

/-- The sequencer through one edge. -/
theorem Drained.fencei_step (h : Drained s pc) :
    (s.step arch i).ifu.fenceiState =
      match s.ifu.fenceiState with
      | .idle => .idle
      | .wait => if s.ifu.axiState == .idle && i.ifu.arready then .busy else .wait
      | .busy => .idle := by
  have hDone : (s.ifuIn i).inFenceiDone = false := h.quiet.2.2.2.2
  have hPort : (s.ifuIn i).axi = i.ifu := rfl
  change (s.ifu.fenceiBlock (s.ifuIn i)).fenceiState = _
  unfold Ifu.fenceiBlock
  cases hState : s.ifu.fenceiState with
  | idle => simp [hDone]
  | wait =>
      simp only [hPort]
      split <;> simp [hState]
  | busy => rfl

/-- **One edge before the report.** -/
theorem drained_step (h : Drained s pc) (hBusy : s.ifu.fenceiState ≠ .idle) :
    Drained (s.step arch i) pc := by
  obtain ⟨hIdu, hExu, hLsu, hValid⟩ := @back_step arch s i pc h
  have hSlot := @slot_step arch s i pc h
  have hFence := @Drained.fencei_step arch s i pc h
  have hReport : s.ifu.outFenceiFlushDone = false := by
    rw [h.sequencer]
    simpa using hBusy
  have hReport' : (s.step arch i).ifu.outFenceiFlushDone = (s.ifu.fenceiState == .busy) := by
    change (s.ifu.fenceiBlock (s.ifuIn i)).outFenceiFlushDone = _
    unfold Ifu.fenceiBlock
    cases hState : s.ifu.fenceiState with
    | idle => exact absurd hState hBusy
    | wait =>
        dsimp only
        split <;> rfl
    | busy => rfl
  refine ⟨by simp [h.pending_step, hReport], hIdu, hExu, hLsu, hValid,
    by rw [hSlot]; exact h.slot, by rw [hSlot]; exact h.unblocked,
    by rw [hSlot]; exact h.fetchPc, h.aligned, ?_, ?_⟩
  · rw [hReport', hFence]
    cases hState : s.ifu.fenceiState with
    | idle => exact absurd hState hBusy
    | wait =>
        dsimp only
        split <;> rfl
    | busy => rfl
  · intro hLeft
    rw [hFence] at hLeft
    refine axi_rests hBusy ?_
    cases hState : s.ifu.fenceiState with
    | idle => exact absurd hState hBusy
    | busy => exact h.channel (by simp [hState])
    | wait =>
        by_contra hNot
        simp [hState, hNot] at hLeft

/-- **The report.**  Decode opens and the next fetch is requested. -/
theorem drained_report (h : Drained s pc) (hIdle : s.ifu.fenceiState = .idle) :
    (s.step arch i).idu.fencePending = false ∧ (s.step arch i).ifu.axiState = .sendAr ∧
      (s.step arch i).ifu.outstandingPc = pc := by
  have hReport : s.ifu.outFenceiFlushDone = true := by rw [h.sequencer, hIdle]; rfl
  obtain ⟨hRedirect, -, -, -, hDone⟩ := h.quiet
  have hAxi := h.channel (by simp [hIdle])
  have hR : (s.ifuIn i).inRedirectFire = false := hRedirect
  have hD : (s.ifuIn i).inFenceiDone = false := hDone
  refine ⟨by simp [h.pending_step, hReport], ?_, ?_⟩ <;>
    simp [Core.step, Ifu.step, Ifu.axiBlock, hAxi, h.slot, hIdle, hR, hD, h.fetchPc, h.aligned,
      h.unblocked]

/-- Behind the commit of the only instruction the back half is empty. -/
private theorem back_emptied {g : Trace} {f : Flight} (hBack : BackInv arch s g f) {e : Entry}
    (he : f.lsu = some e) (hFire : s.commitFire = true) (hExu : f.exu = none)
    (hNoEnter : s.exuInFire = false) :
    (s.step arch i).exu.outValid = false ∧ (s.step arch i).lsu.lsuState = .idle ∧
      (s.step arch i).lsu.outValid = false := by
  obtain ⟨f', hBack', hLsu', hExu', -⟩ := backInv_step (i := i) hBack
  have hLsuNone : f'.lsu = none := by
    have hValid : s.lsu.outValid = true := hFire
    simp [hLsu', lsuNext, he, hValid]
  have hExuNone : f'.exu = none := by simp [hExu', exuNext, hNoEnter, he, hExu]
  have hPhase := hBack'.phase
  rw [hLsuNone] at hPhase
  have hReady : (s.step arch i).lsu.outReady = true := lsuPhase_none_ready hPhase
  refine ⟨?_, by simpa [Lsu.outReady] using hReady⟩
  rw [hBack'.exuValid, hExuNone]
  rfl

/-- The commit empties the slot, which waits for the next address. -/
private theorem slot_emptied {csr₀ : Csr} {g : Trace} {f : Flight} (hBack : BackInv arch s g f)
    (hFront : FrontInv arch csr₀ s g f pc) (hDone : s.fenceiDone = true)
    (hRedirect : s.redirectFire = false) (hClosed : s.iduInFire = false) :
    (s.step arch i).ifu.ifuState = .empty ∧ (s.step arch i).ifu.exceptionPending = false ∧
      (s.step arch i).ifu.fetchPc = fetchNext s pc := by
  have hIn : (s.ifuIn i).inFenceiDone = true := hDone
  have hR : (s.ifuIn i).inRedirectFire = false := hRedirect
  have hOut : s.ifu.outFire (s.ifuIn i) = false := hClosed
  obtain ⟨hEmpty, hFree⟩ : (s.step arch i).ifu.ifuState = .empty ∧
      (s.step arch i).ifu.exceptionPending = false := by
    simp [Core.step, Ifu.step, Ifu.slotBlock, hR, hIn]
  have hStay : nextPc s.ifu (s.ifuIn i) (fetchNext s pc) = fetchNext s pc := by
    rw [nextPc, hR, hOut]
    rfl
  have hTracks := tracks_front_step (i := i) hBack hFront
  rw [fetchNext_step hFront, hStay] at hTracks
  exact ⟨hEmpty, hFree, hTracks.slot.emptyPc hEmpty hFree⟩

/-- The cycle in which a `fence.i` commits. -/
private theorem drained_of_commit {csr₀ : Csr} {g : Trace} {f : Flight}
    (hBack : BackInv arch s g f) (hFront : FrontInv arch csr₀ s g f pc)
    (hFire : s.commitFire = true) (hWord : isFenceiWord s.commit.inst = true) :
    Drained (s.step arch i) (s.commit.pc + 4) ∧ (s.step arch i).ifu.fenceiState = .wait := by
  obtain ⟨e, he, hFlag, hExu, hIdu, hPending, hIdle⟩ :=
    fenceiCommits_alone hBack hFront hFire hWord
  have hDone : s.fenceiDone = true := (fenceiDone_eq hBack).mpr ⟨e, he, hFlag, hFire⟩
  have hRedirect := redirectFire_false_of_invalid hIdu
  have hClosed := iduInFire_false_of_pending hPending
  have hNoEnter := exuInFire_false_of_invalid hIdu
  have hNext : fetchNext s pc = s.commit.pc + 4 := by
    rw [fetchNext, hIdu, (commit_of_lsu hBack he hFire).1, next_of_alone hBack hFront he hFlag hExu]
    rfl
  obtain ⟨hExuNext, hState, hValid⟩ := back_emptied (i := i) hBack he hFire hExu hNoEnter
  obtain ⟨hEmpty, hFree, hFetch⟩ := slot_emptied (i := i) hBack hFront hDone hRedirect hClosed
  have hIn : (s.ifuIn i).inFenceiDone = true := hDone
  have hWait : (s.step arch i).ifu.fenceiState = .wait ∧
      (s.step arch i).ifu.outFenceiFlushDone = false := by
    simp [Core.step, Ifu.step, Ifu.fenceiBlock, hIdle.state, hIn]
  exact
    ⟨{ pending := by simp [fencePending_step, hRedirect, hClosed, hIdle.done, hPending]
       idu := by simp [iduValid_step, hRedirect, hClosed, hNoEnter, hIdu]
       exu := hExuNext
       lsuState := hState
       lsuValid := hValid
       slot := hEmpty
       unblocked := hFree
       fetchPc := hFetch.trans hNext
       aligned := hNext ▸ (fence_meets_open_fetch hBack hFront hDone).2
       sequencer := by
         rw [hWait.1, hWait.2]
         rfl
       channel := fun hBad => absurd hWait.1 hBad }, hWait.1⟩

end Step

section Run

variable (arch : Arch) (s : Core) (inp : Nat → CoreIn)

/-- A `fence.i` committed in cycle `c` and `fence_pending` has been set since. -/
structure Draining (c t : Nat) : Prop where
  before : c < t
  commits : FenceiCommits arch s inp c
  pending : ∀ k, c < k → k ≤ t → (coreAt arch s inp k).idu.fencePending = true

/-- The flush has been reported, after it `fence_pending` is clear and the
fetch of `pc` is accepted. -/
def Recovers (pc : Word) : Prop :=
  ∃ k n, k < n ∧ (coreAt arch s inp k).ifu.outFenceiFlushDone = true ∧
    (coreAt arch s inp n).idu.fencePending = false ∧
    arFire (coreAt arch s inp n).ifuAxi (inp n).ifu = true ∧
    (coreAt arch s inp n).ifuAxi.araddr = pc

variable {arch s inp}

/-- The cycle after the commit. -/
theorem drained_first {c : Nat} (h : s.AfterReset arch) (hCommit : FenceiCommits arch s inp c) :
    Drained (coreAt arch s inp (c + 1)) ((coreAt arch s inp c).commit.pc + 4) ∧
      (coreAt arch s inp (c + 1)).ifu.fenceiState = .wait := by
  obtain ⟨hFire, hWord⟩ := hCommit
  obtain ⟨f, pc, hBack, hFront⟩ := coreInv_at h inp c
  rw [coreAt_succ]
  exact drained_of_commit hBack hFront hFire hWord

/-- While a `fence.i` drains, the pipeline is empty. -/
theorem Draining.drained (h : s.AfterReset arch) {c t : Nat} (hDrain : Draining arch s inp c t) :
    Drained (coreAt arch s inp t) ((coreAt arch s inp c).commit.pc + 4) := by
  obtain ⟨hBefore, hCommit, hPending⟩ := hDrain
  induction t, hBefore using Nat.le_induction with
  | base => exact (drained_first h hCommit).1
  | succ t ht ih =>
      have hOld := ih fun k h1 h2 => hPending k h1 (by omega)
      have hNow := hPending (t + 1) (by omega) (Nat.le_refl _)
      refine drained_step hOld fun hIdle => ?_
      rw [coreAt_succ, (drained_report hOld hIdle).1] at hNow
      cases hNow

/-- **Stuck for good.**  If the slave behind the fetch port is never ready while
the read channel is idle, the sequencer never leaves its wait. -/
theorem drained_stuck {pc : Word} (h : Drained s pc) (hWait : s.ifu.fenceiState = .wait)
    (hNever : ∀ n, Drained (coreAt arch s inp n) pc →
      (coreAt arch s inp n).ifu.axiState = .idle → (inp n).ifu.arready = false) (n : Nat) :
    Drained (coreAt arch s inp n) pc ∧ (coreAt arch s inp n).ifu.fenceiState = .wait := by
  induction n with
  | zero => exact ⟨h, hWait⟩
  | succ n ih =>
      obtain ⟨hDrained, hState⟩ := ih
      have hBusy : (coreAt arch s inp n).ifu.fenceiState ≠ .idle := by simp [hState]
      refine ⟨drained_step hDrained hBusy, ?_⟩
      rw [coreAt_succ, hDrained.fencei_step, hState]
      dsimp only
      rw [if_neg]
      simp only [Bool.and_eq_true, beq_iff_eq, not_and, Bool.not_eq_true]
      exact hNever n hDrained

theorem not_recovers_of_pending
    (h : ∀ n, (coreAt arch s inp n).idu.fencePending = true) (pc : Word) :
    ¬ Recovers arch s inp pc := by
  rintro ⟨k, n, -, -, hClear, -⟩
  rw [h n] at hClear
  cases hClear

end Run

end Riscv32.Pipeline
