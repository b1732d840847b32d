import Riscv32.Pipeline.Trace

/-!
# Where a `fence.i` is

From the moment decode takes a `fence.i` until the fetch unit reports the
flush, `fence_pending` holds decode closed.  `FencePhase` follows the
instruction through the stages and the fetch unit's sequencer; in every phase
the `fence.i` is the youngest instruction in the pipeline, and once it has
committed the pipeline is empty.

The phases are an inductive type, one constructor for each place, so that
`fencePhase_step` is a case analysis over where the `fence.i` is.  What closes
each case was proved before it: a closed decode takes nothing
(`iduInFire_false_of_pending`), a `fence.i` redirects nothing
(`redirectFire_false_of_fencei`), a sequencer at rest stays so
(`sequencerIdle_step`).
-/

namespace Riscv32.Pipeline

open Riscv32.Rtl

/-! ## The decode register through one edge -/

section Idu

variable {arch : Arch} {s : Core} {i : CoreIn}

theorem iduValid_step :
    (s.step arch i).idu.outValid =
      if s.redirectFire then false else if s.iduInFire then true
      else if s.exuInFire then false else s.idu.outValid := rfl

theorem fencePending_step :
    (s.step arch i).idu.fencePending =
      if s.redirectFire then false
      else if s.iduInFire && (decodeTaken s.ifu.outInst).isFencei then true
      else if s.ifu.outFenceiFlushDone then false else s.idu.fencePending :=
  Idu.fencePendingNext_eq s.idu s.iduIn

/-- What IDU latches is the decode of the word handed over. -/
theorem iduOut_take (arch : Arch) (i : CoreIn) (hRedirect : s.redirectFire = false)
    (hFire : s.iduInFire = true) :
    (s.step arch i).idu.out =
      latch s.ifu.outInst s.ifu.outPc (s.rf.read (rs1Idx s.ifu.outInst))
        (s.rf.read (rs2Idx s.ifu.outInst)) s.ifu.outExceptionValid
        s.ifu.outExceptionCause :=
  Idu.step_out_of_inFire s.idu s.iduIn hRedirect hFire

/-- Otherwise its outputs stay. -/
theorem iduOut_keep (arch : Arch) (i : CoreIn) (hRedirect : s.redirectFire = false)
    (hFire : s.iduInFire = false) :
    (s.step arch i).idu.out = s.idu.out := by
  have h1 : s.iduIn.inFlush = false := hRedirect
  have h2 : s.idu.inFire s.iduIn = false := hFire
  simp [Core.step, Idu.step, h1, h2]

/-- EXU takes only what is valid. -/
theorem exuInFire_valid (h : s.exuInFire = true) : s.idu.outValid = true := by
  simp only [Core.exuInFire, Exu.inFire, Bool.and_eq_true] at h
  exact h.1

/-- A redirect comes with the instruction that causes it entering EXU. -/
theorem redirectFire_enters (h : s.redirectFire = true) :
    s.exuInFire = true ∧ s.idu.out.redirectValid = true := by
  simpa [Core.redirectFire, Exu.redirectFire, Core.exuInFire] using h

/-- Decode takes a word only in a cycle without redirect, when it is open. -/
theorem iduInFire_open (h : s.iduInFire = true) :
    s.ifu.ifuState = .valid ∧ s.redirectFire = false ∧ s.idu.fencePending = false ∧
      (s.idu.outValid = true → s.exuInFire = true) := by
  simp only [Core.iduInFire, Idu.inFire, Idu.outReady, Core.iduIn, Ifu.outValid,
    Bool.and_eq_true, Bool.not_eq_true', beq_iff_eq, Bool.or_eq_true] at h
  obtain ⟨⟨hValid, hRedirect⟩, ⟨hReady, -⟩, hPending⟩ := h
  refine ⟨hValid, hRedirect, hPending, fun hIdu => ?_⟩
  rcases hReady with hEmpty | hReady
  · simp [hIdu] at hEmpty
  · simp only [Core.exuInFire, Exu.inFire, hIdu, Bool.true_and]
    exact hReady

end Idu

/-! ## Phases -/

/-- No `fence.i` among the instructions behind decode. -/
def NoFence (oe : Option Entry) : Prop := ∀ e, oe = some e → e.d.isFencei = false

/-- The fetch unit's sequencer is at rest. -/
structure SequencerIdle (s : Ifu) : Prop where
  state : s.fenceiState = .idle
  flush : s.outIcacheFlush = false
  done : s.outFenceiFlushDone = false

inductive FencePhase (s : Core) (f : Flight) : Prop
  /-- No `fence.i` in the pipeline. -/
  | quiet (hPending : s.idu.fencePending = false)
      (hIdu : s.idu.outValid = true → s.idu.out.isFencei = false)
      (hExu : NoFence f.exu) (hLsu : NoFence f.lsu) (hIdle : SequencerIdle s.ifu)
  /-- In the decode register. -/
  | decoded (hPending : s.idu.fencePending = true) (hValid : s.idu.outValid = true)
      (hIdu : s.idu.out.isFencei = true) (hExu : NoFence f.exu) (hLsu : NoFence f.lsu)
      (hIdle : SequencerIdle s.ifu)
  /-- Behind the execute unit. -/
  | executed (hPending : s.idu.fencePending = true) (hIdu : s.idu.outValid = false)
      (e : Entry) (hExu : f.exu = some e) (he : e.d.isFencei = true)
      (hLsu : NoFence f.lsu) (hIdle : SequencerIdle s.ifu)
  /-- In the load/store unit. -/
  | memory (hPending : s.idu.fencePending = true) (hIdu : s.idu.outValid = false)
      (hExu : f.exu = none) (e : Entry) (hLsu : f.lsu = some e)
      (he : e.d.isFencei = true) (hIdle : SequencerIdle s.ifu)
  /-- Committed; the sequencer waits or flushes. -/
  | flushing (hPending : s.idu.fencePending = true) (hIdu : s.idu.outValid = false)
      (hExu : f.exu = none) (hLsu : f.lsu = none)
      (hState : s.ifu.fenceiState ≠ .idle)
      (hFlush : s.ifu.outIcacheFlush = (s.ifu.fenceiState == .busy))
      (hDone : s.ifu.outFenceiFlushDone = false)
  /-- Flushed and reported. -/
  | flushed (hPending : s.idu.fencePending = true) (hIdu : s.idu.outValid = false)
      (hExu : f.exu = none) (hLsu : f.lsu = none) (hState : s.ifu.fenceiState = .idle)
      (hFlush : s.ifu.outIcacheFlush = false) (hDone : s.ifu.outFenceiFlushDone = true)

section Step

variable {arch : Arch} {s : Core} {g : Trace} {f f' : Flight} {i : CoreIn}

/-- `wbu_fencei_done` in terms of the instruction that commits. -/
theorem fenceiDone_eq (h : BackInv arch s g f) :
    s.fenceiDone = true ↔ ∃ e, f.lsu = some e ∧ e.d.isFencei = true ∧ s.commitFire = true := by
  constructor
  · intro hDone
    simp only [Core.fenceiDone, Bool.and_eq_true] at hDone
    obtain ⟨e, he⟩ := h.commitFire_some hDone.1
    have hPhase := h.phase
    rw [he] at hPhase
    have hLatch := lsuPhase_latched hPhase
    rw [Latched] at hLatch
    refine ⟨e, he, ?_, hDone.1⟩
    have hFlag := hDone.2
    rw [hLatch] at hFlag
    exact hFlag
  · rintro ⟨e, he, hFence, hFire⟩
    have hPhase := h.phase
    rw [he] at hPhase
    have hLatch := lsuPhase_latched hPhase
    rw [Latched] at hLatch
    simp only [Core.fenceiDone, hFire, Bool.true_and]
    rw [hLatch]
    exact hFence

/-- Without a `fence.i` in LSU the flush sequencer is not started. -/
theorem fenceiDone_false_of_noFence (h : BackInv arch s g f) (hLsu : NoFence f.lsu) :
    s.fenceiDone = false := by
  cases hDone : s.fenceiDone with
  | false => rfl
  | true =>
      obtain ⟨e, he, hFence, -⟩ := (fenceiDone_eq h).mp hDone
      rw [hLsu e he] at hFence
      cases hFence

/-- At rest and without a committing `fence.i` the sequencer stays at rest. -/
theorem sequencerIdle_step (arch : Arch) (i : CoreIn) (hIdle : SequencerIdle s.ifu)
    (hDone : s.fenceiDone = false) : SequencerIdle (s.step arch i).ifu := by
  have h1 : (s.ifuIn i).inFenceiDone = false := hDone
  constructor <;>
    simp [Core.step, Ifu.step, Ifu.fenceiBlock, hIdle.state, hIdle.flush, h1]

/-- A `fence.i` never redirects. -/
theorem redirectFire_false_of_fencei (h : BackInv arch s g f)
    (hValid : s.idu.outValid = true) (hFence : s.idu.out.isFencei = true) :
    s.redirectFire = false := by
  have hCtrl : s.idu.out.toCtrl = decodeTaken s.idu.out.inst := (h.iduWf hValid).ctrl
  have hTable := @decodeTaken_fencei s.idu.out.inst (by rw [← hCtrl]; exact hFence)
  rw [hTable] at hCtrl
  have hNo : s.idu.out.redirectValid = false := by
    simp [IduOut.redirectValid, hCtrl]
  simp [Core.redirectFire, Exu.redirectFire, hNo]

private theorem noFence_lsuNext (hExu : NoFence f.exu) (hLsu : NoFence f.lsu) :
    NoFence (lsuNext s f) := by
  intro e he
  unfold lsuNext at he
  cases hL : f.lsu with
  | none => rw [hL] at he; exact hExu e he
  | some e' =>
      rw [hL] at he
      cases hV : s.lsu.outValid with
      | true => simp [hV] at he
      | false =>
          simp only [hV, Bool.false_eq_true, if_false] at he
          exact hLsu e (hL.trans he)

private theorem noFence_exuNext (hExu : NoFence f.exu)
    (hIdu : s.exuInFire = true → s.idu.out.isFencei = false) : NoFence (exuNext s f) := by
  intro e he
  unfold exuNext at he
  cases hFire : s.exuInFire with
  | true =>
      simp only [hFire, if_true, Option.some.injEq] at he
      subst he
      exact hIdu hFire
  | false =>
      cases hL : f.lsu with
      | none => simp [hFire, hL] at he
      | some e' =>
          simp only [hFire, hL, Bool.false_eq_true, if_false] at he
          exact hExu e he

/-- No word enters decode while `fence_pending` is set. -/
theorem iduInFire_false_of_pending (hPending : s.idu.fencePending = true) :
    s.iduInFire = false := by
  cases hFire : s.iduInFire with
  | false => rfl
  | true =>
      have h := (iduInFire_open hFire).2.2.1
      rw [hPending] at h
      cases h

theorem exuInFire_false_of_invalid (hIdu : s.idu.outValid = false) :
    s.exuInFire = false := by
  cases hFire : s.exuInFire with
  | false => rfl
  | true => rw [exuInFire_valid hFire] at hIdu; cases hIdu

theorem redirectFire_false_of_invalid (hIdu : s.idu.outValid = false) :
    s.redirectFire = false := by
  cases hFire : s.redirectFire with
  | false => rfl
  | true => rw [exuInFire_valid (redirectFire_enters hFire).1] at hIdu; cases hIdu

/-- From no `fence.i`: none arrives, or IDU takes one. -/
private theorem fencePhase_quiet (h : BackInv arch s g f) (hLsu' : f'.lsu = lsuNext s f)
    (hExu' : f'.exu = exuNext s f) (hPending : s.idu.fencePending = false)
    (hIdu : s.idu.outValid = true → s.idu.out.isFencei = false)
    (hExu : NoFence f.exu) (hLsu : NoFence f.lsu) (hIdle : SequencerIdle s.ifu) :
    FencePhase (s.step arch i) f' := by
  have hIdle' := sequencerIdle_step arch i hIdle
    (fenceiDone_false_of_noFence h hLsu)
  have hE : NoFence f'.exu := hExu' ▸ noFence_exuNext hExu fun hFire =>
    hIdu (exuInFire_valid hFire)
  have hL : NoFence f'.lsu := hLsu' ▸ noFence_lsuNext hExu hLsu
  cases hRedirect : s.redirectFire with
  | true =>
      refine .quiet ?_ ?_ hE hL hIdle'
      · simp [fencePending_step, hRedirect]
      · simp [iduValid_step, hRedirect]
  | false =>
      cases hFire : s.iduInFire with
      | true =>
          have hOut := iduOut_take arch i hRedirect hFire
          cases hFence : (decodeTaken s.ifu.outInst).isFencei with
          | true =>
              refine .decoded ?_ ?_ ?_ hE hL hIdle'
              · simp [fencePending_step, hRedirect, hFire, hFence]
              · simp [iduValid_step, hRedirect, hFire]
              · rw [hOut]; exact hFence
          | false =>
              refine .quiet ?_ ?_ hE hL hIdle'
              · simp [fencePending_step, hRedirect, hFire, hFence, hIdle.done, hPending]
              · intro _; rw [hOut]; exact hFence
      | false =>
          refine .quiet ?_ ?_ hE hL hIdle'
          · simp [fencePending_step, hRedirect, hFire, hIdle.done, hPending]
          · intro hValid
            rw [iduOut_keep _ _ hRedirect hFire]
            refine hIdu ?_
            cases hX : s.exuInFire <;>
              simp [iduValid_step, hRedirect, hFire, hX] at hValid
            exact hValid

/-- While `fence_pending` stands and nothing is reported, it keeps standing. -/
private theorem pending_step (arch : Arch) (i : CoreIn) (hPending : s.idu.fencePending = true)
    (hRedirect : s.redirectFire = false) (hDone : s.ifu.outFenceiFlushDone = false) :
    (s.step arch i).idu.fencePending = true := by
  simp [fencePending_step, hRedirect, iduInFire_false_of_pending hPending, hDone, hPending]

/-- An empty decode register stays empty while `fence_pending` stands. -/
private theorem iduEmpty_step (arch : Arch) (i : CoreIn) (hPending : s.idu.fencePending = true)
    (hIdu : s.idu.outValid = false) : (s.step arch i).idu.outValid = false := by
  simp [iduValid_step, redirectFire_false_of_invalid hIdu,
    iduInFire_false_of_pending hPending, exuInFire_false_of_invalid hIdu, hIdu]

/-- Behind decode nothing enters until the flush is reported. -/
private theorem closed_step (arch : Arch) (i : CoreIn) (hPending : s.idu.fencePending = true)
    (hIdu : s.idu.outValid = false) (hDone : s.ifu.outFenceiFlushDone = false) :
    (s.step arch i).idu.fencePending = true ∧ (s.step arch i).idu.outValid = false ∧
      s.exuInFire = false :=
  ⟨pending_step arch i hPending (redirectFire_false_of_invalid hIdu) hDone,
    iduEmpty_step arch i hPending hIdu, exuInFire_false_of_invalid hIdu⟩

/-! One edge from each phase that holds a `fence.i`. -/

/-- From IDU it goes on to EXU. -/
private theorem fencePhase_decoded (h : BackInv arch s g f) (hLsu' : f'.lsu = lsuNext s f)
    (hExu' : f'.exu = exuNext s f) (hPending : s.idu.fencePending = true)
    (hValid : s.idu.outValid = true) (hIdu : s.idu.out.isFencei = true) (hExu : NoFence f.exu)
    (hLsu : NoFence f.lsu) (hIdle : SequencerIdle s.ifu) : FencePhase (s.step arch i) f' := by
  have hRedirect := redirectFire_false_of_fencei h hValid hIdu
  have hClosed := iduInFire_false_of_pending hPending
  have hPending' := pending_step arch i hPending hRedirect hIdle.done
  have hIdle' := sequencerIdle_step arch i hIdle (fenceiDone_false_of_noFence h hLsu)
  have hL : NoFence f'.lsu := hLsu' ▸ noFence_lsuNext hExu hLsu
  cases hFire : s.exuInFire with
  | true =>
      refine .executed hPending' ?_ ⟨s.idu.out, s.csr⟩ ?_ hIdu hL hIdle'
      · simp [iduValid_step, hRedirect, hClosed, hFire]
      · simp [hExu', exuNext, hFire]
  | false =>
      refine .decoded hPending' ?_ ?_ ?_ hL hIdle'
      · simp [iduValid_step, hRedirect, hClosed, hFire, hValid]
      · rw [iduOut_keep _ _ hRedirect hClosed]
        exact hIdu
      · rw [hExu']
        exact noFence_exuNext hExu fun hBad => by simp [hFire] at hBad

/-- From EXU to LSU. -/
private theorem fencePhase_executed (h : BackInv arch s g f) (hLsu' : f'.lsu = lsuNext s f)
    (hExu' : f'.exu = exuNext s f) (hPending : s.idu.fencePending = true)
    (hIdu : s.idu.outValid = false) {e : Entry} (hExu : f.exu = some e) (he : e.d.isFencei = true)
    (hLsu : NoFence f.lsu) (hIdle : SequencerIdle s.ifu) : FencePhase (s.step arch i) f' := by
  obtain ⟨hPending', hIdu', hNoEnter⟩ := closed_step arch i hPending hIdu hIdle.done
  have hIdle' := sequencerIdle_step arch i hIdle (fenceiDone_false_of_noFence h hLsu)
  cases hL : f.lsu with
  | none =>
      refine .memory hPending' hIdu' ?_ e ?_ he hIdle'
      · simp [hExu', exuNext, hNoEnter, hL]
      · simp [hLsu', lsuNext, hL, hExu]
  | some e' =>
      refine .executed hPending' hIdu' e ?_ he ?_ hIdle'
      · simp [hExu', exuNext, hNoEnter, hL, hExu]
      · rw [hLsu']
        intro x hx
        cases hV : s.lsu.outValid <;> simp [lsuNext, hL, hV] at hx
        exact hLsu x (hx ▸ hL)

/-- In LSU it starts the flush. -/
private theorem fencePhase_memory (h : BackInv arch s g f) (hLsu' : f'.lsu = lsuNext s f)
    (hExu' : f'.exu = exuNext s f) (hPending : s.idu.fencePending = true)
    (hIdu : s.idu.outValid = false) (hExu : f.exu = none) {e : Entry} (hLsu : f.lsu = some e)
    (he : e.d.isFencei = true) (hIdle : SequencerIdle s.ifu) : FencePhase (s.step arch i) f' := by
  obtain ⟨hPending', hIdu', hNoEnter⟩ := closed_step arch i hPending hIdu hIdle.done
  have hE : f'.exu = none := by simp [hExu', exuNext, hNoEnter, hLsu, hExu]
  cases hV : s.lsu.outValid with
  | true =>
      have hDone : (s.ifuIn i).inFenceiDone = true := (fenceiDone_eq h).mpr ⟨e, hLsu, he, hV⟩
      refine .flushing hPending' hIdu' hE ?_ ?_ ?_ ?_
      · simp [hLsu', lsuNext, hLsu, hV]
      all_goals
        simp [Core.step, Ifu.step, Ifu.fenceiBlock, hIdle.state, hIdle.flush, hDone]
  | false =>
      have hNo : s.fenceiDone = false := by simp [Core.fenceiDone, Core.commitFire, hV]
      refine .memory hPending' hIdu' hE e ?_ he (sequencerIdle_step _ _ hIdle hNo)
      simp [hLsu', lsuNext, hLsu, hV]

/-- The flush takes as long as the sequencer takes. -/
private theorem fencePhase_flushing (hLsu' : f'.lsu = lsuNext s f) (hExu' : f'.exu = exuNext s f)
    (hPending : s.idu.fencePending = true) (hIdu : s.idu.outValid = false) (hExu : f.exu = none)
    (hLsu : f.lsu = none) (hState : s.ifu.fenceiState ≠ .idle)
    (hFlush : s.ifu.outIcacheFlush = (s.ifu.fenceiState == .busy))
    (hDone : s.ifu.outFenceiFlushDone = false) : FencePhase (s.step arch i) f' := by
  obtain ⟨hPending', hIdu', hNoEnter⟩ := closed_step arch i hPending hIdu hDone
  have hE : f'.exu = none := by simp [hExu', exuNext, hNoEnter, hLsu]
  have hL : f'.lsu = none := by simp [hLsu', lsuNext, hLsu, hExu]
  cases hS : s.ifu.fenceiState with
  | idle => exact absurd hS hState
  | wait =>
      rw [hS] at hFlush
      refine .flushing hPending' hIdu' hE hL ?_ ?_ ?_ <;>
        simp only [Core.step, Ifu.step, Ifu.fenceiBlock, hS] <;> split <;>
        simp [hFlush]
  | busy =>
      refine .flushed hPending' hIdu' hE hL ?_ ?_ ?_ <;>
        simp [Core.step, Ifu.step, Ifu.fenceiBlock, hS]

/-- The report ends it. -/
private theorem fencePhase_flushed (h : BackInv arch s g f) (hLsu' : f'.lsu = lsuNext s f)
    (hExu' : f'.exu = exuNext s f) (hPending : s.idu.fencePending = true)
    (hIdu : s.idu.outValid = false) (hExu : f.exu = none) (hLsu : f.lsu = none)
    (hState : s.ifu.fenceiState = .idle) (hFlush : s.ifu.outIcacheFlush = false)
    (hDone : s.ifu.outFenceiFlushDone = true) : FencePhase (s.step arch i) f' := by
  have hRedirect := redirectFire_false_of_invalid hIdu
  have hIdu' := iduEmpty_step arch i hPending hIdu
  have hNoEnter := exuInFire_false_of_invalid hIdu
  have hNo : (s.ifuIn i).inFenceiDone = false :=
    fenceiDone_false_of_noFence h (by simp [NoFence, hLsu])
  refine .quiet ?_ ?_ ?_ ?_ ?_
  · simp [fencePending_step, hRedirect, iduInFire_false_of_pending hPending, hDone]
  · simp [hIdu']
  · simp [NoFence, hExu', exuNext, hNoEnter, hLsu]
  · simp [NoFence, hLsu', lsuNext, hLsu, hExu]
  · constructor <;>
      simp [Core.step, Ifu.step, Ifu.fenceiBlock, hState, hFlush, hNo]

/-- **The `fence.i` through one edge.** -/
theorem fencePhase_step (h : BackInv arch s g f) (hFence : FencePhase s f)
    (hLsu' : f'.lsu = lsuNext s f) (hExu' : f'.exu = exuNext s f) :
    FencePhase (s.step arch i) f' := by
  cases hFence with
  | quiet hPending hIdu hExu hLsu hIdle =>
      exact fencePhase_quiet h hLsu' hExu' hPending hIdu hExu hLsu hIdle
  | decoded hPending hValid hIdu hExu hLsu hIdle =>
      exact fencePhase_decoded h hLsu' hExu' hPending hValid hIdu hExu hLsu hIdle
  | executed hPending hIdu e hExu he hLsu hIdle =>
      exact fencePhase_executed h hLsu' hExu' hPending hIdu hExu he hLsu hIdle
  | memory hPending hIdu hExu e hLsu he hIdle =>
      exact fencePhase_memory h hLsu' hExu' hPending hIdu hExu hLsu he hIdle
  | flushing hPending hIdu hExu hLsu hState hFlush hDone =>
      exact fencePhase_flushing hLsu' hExu' hPending hIdu hExu hLsu hState hFlush hDone
  | flushed hPending hIdu hExu hLsu hState hFlush hDone =>
      exact fencePhase_flushed h hLsu' hExu' hPending hIdu hExu hLsu hState hFlush hDone

end Step

end Riscv32.Pipeline
