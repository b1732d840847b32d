import Riscv32.Rtl.Ifu

/-!
# What the fetch unit is about to hand over

`Tracks s pc` says that the next word the fetch unit offers to decode is the
one at `pc`, whatever bus state the unit is in: the slot already holds it, or
a live request for it is outstanding, or it is still to be requested.  A
request overtaken by a redirect is outstanding too, but stale, and says
nothing about `pc`.

`SlotMove` and `AxiMove` list once what an edge can do to the output slot and
to the read channel, guards included; everything about the delivered stream
follows from these two inversions through `tracks_step`.

The lemma has one side condition: a committing `fence.i` must not meet a
hand-over or a unit blocked on an exception.  On its own the unit cannot
guarantee it; the core does, as `fence_meets_open_fetch` shows.
-/

namespace Riscv32.Fetch

open Riscv32.Rtl

/-! ## What one edge can do -/

/-- The moves of the output slot. -/
inductive SlotMove (s : Ifu) (i : IfuIn) : IfuSlot → Prop
  /-- A redirect empties the slot and sets the fetch address. -/
  | redirect (hRedirect : i.inRedirectFire = true) :
      SlotMove s i
        { s.toIfuSlot with
          ifuState := .empty, fetchPc := i.inRedirectPc, outExceptionValid := false,
          outExceptionCause := 0, exceptionPending := false }
  /-- A committing `fence.i` takes the slot's word back. -/
  | fence (hRedirect : i.inRedirectFire = false) (hFence : i.inFenceiDone = true) :
      SlotMove s i
        { s.toIfuSlot with
          fetchPc := if s.ifuState == .valid then s.outPc else s.fetchPc,
          ifuState := .empty, outExceptionValid := false, outExceptionCause := 0,
          exceptionPending := false }
  /-- A misaligned fetch address becomes an exception entry. -/
  | raise (hRedirect : i.inRedirectFire = false) (hFence : i.inFenceiDone = false)
      (hEmpty : s.ifuState = .empty) (hMis : misaligned s.fetchPc = true)
      (hPending : s.exceptionPending = false) :
      SlotMove s i
        { s.toIfuSlot with
          ifuState := .valid, outPc := s.fetchPc, outInst := 0,
          outExceptionValid := true, outExceptionCause := 0, exceptionPending := true }
  /-- A live response fills the slot. -/
  | accept (hRedirect : i.inRedirectFire = false) (hFence : i.inFenceiDone = false)
      (hEmpty : s.ifuState = .empty)
      (hMis : (misaligned s.fetchPc && !s.exceptionPending) = false)
      (hFire : s.ifuRFire i = true) (hStale : s.outstandingStale = false)
      (hIdle : s.fenceiState = .idle) :
      SlotMove s i
        { s.toIfuSlot with
          ifuState := .valid, fetchPc := s.outstandingPc + 4, outInst := i.axi.rdata,
          outPc := s.outstandingPc, outExceptionValid := false, outExceptionCause := 0 }
  /-- Decode takes the slot's word. -/
  | handOver (hRedirect : i.inRedirectFire = false) (hFence : i.inFenceiDone = false)
      (hValid : s.ifuState = .valid) (hFire : s.outFire i = true) :
      SlotMove s i { s.toIfuSlot with ifuState := .empty, outExceptionValid := false }
  /-- Nothing happens to the slot. -/
  | keep (hRedirect : i.inRedirectFire = false) (hFence : i.inFenceiDone = false)
      (hFire : s.outFire i = false) : SlotMove s i s.toIfuSlot

/-- What one cycle does to the slot is one of the moves. -/
theorem slotMove (s : Ifu) (i : IfuIn) : SlotMove s i (s.slotBlock i) := by
  unfold Ifu.slotBlock
  cases hRedirect : i.inRedirectFire with
  | true => exact .redirect hRedirect
  | false =>
      cases hFence : i.inFenceiDone with
      | true => exact .fence hRedirect hFence
      | false =>
          cases hState : s.ifuState with
          | empty =>
              have hQuiet : s.outFire i = false := by
                simp [Ifu.outFire, Ifu.outValid, hState]
              cases hMis : misaligned s.fetchPc && !s.exceptionPending with
              | true =>
                  simp only [Bool.and_eq_true, Bool.not_eq_true'] at hMis
                  simpa [hMis.1, hMis.2] using
                    SlotMove.raise hRedirect hFence hState hMis.1 hMis.2
              | false =>
                  cases hFire : s.ifuRFire i with
                  | false => simpa using SlotMove.keep hRedirect hFence hQuiet
                  | true =>
                      cases hDrop : s.dropResponse i || s.fenceiState != .idle with
                      | true => simpa using SlotMove.keep hRedirect hFence hQuiet
                      | false =>
                          simp only [Ifu.dropResponse, hFire, hRedirect, Bool.true_and,
                            Bool.or_false, Bool.or_eq_false_iff, bne_eq_false_iff_eq] at hDrop
                          simpa using
                            SlotMove.accept hRedirect hFence hState hMis hFire hDrop.1 hDrop.2
          | valid =>
              cases hFire : s.outFire i with
              | true => simpa using SlotMove.handOver hRedirect hFence hState hFire
              | false => simpa using SlotMove.keep hRedirect hFence hFire

/-- The moves of the read channel. -/
inductive AxiMove (s : Ifu) (i : IfuIn) : IfuAxi → Prop
  /-- An idle channel requests the word the empty slot waits for. -/
  | start (hIdle : s.axiState = .idle) (hEmpty : s.ifuState = .empty)
      (hFencei : s.fenceiState = .idle) (hFence : i.inFenceiDone = false)
      (hRedirect : i.inRedirectFire = false) (hMis : misaligned s.fetchPc = false)
      (hPending : s.exceptionPending = false) :
      AxiMove s i ⟨.sendAr, s.fetchPc, false⟩
  /-- An idle channel stays idle. -/
  | rest (hIdle : s.axiState = .idle) : AxiMove s i ⟨.idle, s.outstandingPc, false⟩
  /-- The request waits for `arready`. -/
  | ask (hSend : s.axiState = .sendAr) (hFire : s.ifuArFire i = false) :
      AxiMove s i
        ⟨.sendAr, s.outstandingPc, i.inRedirectFire || s.outstandingStale⟩
  /-- The request is accepted. -/
  | asked (hSend : s.axiState = .sendAr) (hFire : s.ifuArFire i = true) :
      AxiMove s i
        ⟨.waitR, s.outstandingPc, i.inRedirectFire || s.outstandingStale⟩
  /-- The response arrives. -/
  | answered (hWait : s.axiState = .waitR) (hFire : s.ifuRFire i = true) :
      AxiMove s i ⟨.idle, s.outstandingPc, false⟩
  /-- The response is still awaited. -/
  | await (hWait : s.axiState = .waitR) (hFire : s.ifuRFire i = false) :
      AxiMove s i
        ⟨.waitR, s.outstandingPc, i.inRedirectFire || s.outstandingStale⟩

/-- What one cycle does to the request side is one of the moves. -/
theorem axiMove (s : Ifu) (i : IfuIn) : AxiMove s i (s.axiBlock i) := by
  unfold Ifu.axiBlock
  cases hState : s.axiState with
  | idle =>
      dsimp only
      split
      · rename_i hGo
        simp only [Bool.and_eq_true, beq_iff_eq, Bool.not_eq_true'] at hGo
        obtain ⟨⟨⟨⟨⟨hEmpty, hFencei⟩, hFence⟩, hRedirect⟩, hMis⟩, hPending⟩ := hGo
        exact .start hState hEmpty hFencei hFence hRedirect hMis hPending
      · simpa [hState] using AxiMove.rest (i := i) hState
  | sendAr =>
      cases hFire : s.ifuArFire i with
      | true =>
          have h := AxiMove.asked hState hFire
          cases hRedirect : i.inRedirectFire <;> simpa [hRedirect] using h
      | false =>
          have h := AxiMove.ask hState hFire
          cases hRedirect : i.inRedirectFire <;> simpa [hRedirect] using h
  | waitR =>
      cases hFire : s.ifuRFire i with
      | true => simpa using AxiMove.answered hState hFire
      | false =>
          have h := AxiMove.await hState hFire
          cases hRedirect : i.inRedirectFire <;> simpa [hRedirect, ← hState] using h

/-! ## The tracked address -/

/-- The slot's part of `Tracks`.  After a misaligned `pc` has been handed over
as an exception the slot is empty with `exceptionPending` set, and nothing
more is offered. -/
structure SlotTracks (s : IfuSlot) (pc : Word) : Prop where
  emptyPc : s.ifuState = .empty → s.exceptionPending = false → s.fetchPc = pc
  validPc : s.ifuState = .valid → s.outPc = pc
  validExc : s.ifuState = .valid → s.outExceptionValid = misaligned pc
  validPending : s.ifuState = .valid → s.exceptionPending = misaligned pc
  validFetch : s.ifuState = .valid → misaligned pc = false → s.fetchPc = pc + 4
  validInst : s.ifuState = .valid → misaligned pc = true → s.outInst = 0
  pendingMisaligned : s.exceptionPending = true → misaligned s.fetchPc = true
  pendingPc : s.exceptionPending = true → misaligned pc = true

/-- The channel's part: a request that is outstanding and not stale is for
`pc`, and the slot waits for it. -/
def LiveTracks (a : IfuAxi) (s : IfuSlot) (pc : Word) : Prop :=
  a.axiState ≠ .idle → a.outstandingStale = false →
    s.ifuState = .empty ∧ s.exceptionPending = false ∧ a.outstandingPc = pc ∧
      misaligned pc = false

/-- The next word offered to decode is the one at `pc`. -/
structure Tracks (s : Ifu) (pc : Word) : Prop where
  slot : SlotTracks s.toIfuSlot pc
  live : LiveTracks s.toIfuAxi s.toIfuSlot pc

/-- The address after a hand-over, a redirect, or neither. -/
def nextPc (s : Ifu) (i : IfuIn) (pc : Word) : Word :=
  if i.inRedirectFire then i.inRedirectPc
  else if s.outFire i then pc + 4
  else pc

theorem misaligned_add_four (pc : Word) : misaligned (pc + 4) = misaligned pc := by
  have h : (pc + 4).extractLsb' 0 2 = pc.extractLsb' 0 2 := by
    apply BitVec.eq_of_toNat_eq
    simp only [BitVec.ofNat_eq_ofNat, BitVec.extractLsb'_toNat, BitVec.toNat_add,
      BitVec.toNat_ofNat, Nat.shiftRight_zero]
    omega
  simp only [misaligned, h]

theorem misaligned_resetPc (arch : Arch) : misaligned (resetPc arch) = false := by
  cases arch <;> decide

/-- After reset that is the word at the reset pc. -/
theorem tracks_reset (arch : Arch) : Tracks (Ifu.reset arch) (resetPc arch) := by
  refine ⟨?_, fun hBusy => absurd rfl hBusy⟩
  constructor <;> simp [Ifu.reset]

theorem rFire_waitR {s : Ifu} {i : IfuIn} (h : s.ifuRFire i = true) :
    s.axiState = .waitR := by
  simp only [Ifu.ifuRFire, rFire, Ifu.axi, Bool.and_eq_true, beq_iff_eq] at h
  exact h.2.1

/-- A hand-over needs a full slot and no redirect. -/
theorem outFire_valid {s : Ifu} {i : IfuIn} (h : s.outFire i = true) :
    s.ifuState = .valid ∧ i.inRedirectFire = false := by
  simp only [Ifu.outFire, Ifu.outValid, Bool.and_eq_true, beq_iff_eq,
    Bool.not_eq_true'] at h
  exact h.1

/-- A redirect wins over a hand-over. -/
private theorem nextPc_redirect {s : Ifu} {i : IfuIn} {pc : Word}
    (h : i.inRedirectFire = true) : nextPc s i pc = i.inRedirectPc := by
  simp [nextPc, h]

private theorem nextPc_handOver {s : Ifu} {i : IfuIn} {pc : Word}
    (h : s.outFire i = true) : nextPc s i pc = pc + 4 := by
  simp [nextPc, h, (outFire_valid h).2]

private theorem nextPc_keep {s : Ifu} {i : IfuIn} {pc : Word}
    (hRedirect : i.inRedirectFire = false) (hFire : s.outFire i = false) :
    nextPc s i pc = pc := by
  simp [nextPc, hRedirect, hFire]

private theorem outFire_false_of_empty {s : Ifu} {i : IfuIn}
    (h : s.ifuState = .empty) : s.outFire i = false := by
  simp [Ifu.outFire, Ifu.outValid, h]

section Step

variable {s : Ifu} {i : IfuIn} {pc : Word}

/-- The slot follows the address through every move. -/
private theorem slotTracks_step (h : Tracks s pc)
    (hFence : i.inFenceiDone = true →
      s.outFire i = false ∧ (s.exceptionPending = true → s.ifuState = .valid)) :
    SlotTracks (s.slotBlock i) (nextPc s i pc) := by
  obtain ⟨hSlot, hLive⟩ := h
  have hMove := slotMove s i
  generalize s.slotBlock i = sl at hMove
  cases hMove with
  | redirect hRedirect =>
      rw [nextPc_redirect hRedirect]
      constructor <;> simp
  | fence hRedirect hDone =>
      obtain ⟨hQuiet, hBlocked⟩ := hFence hDone
      rw [nextPc_keep hRedirect hQuiet]
      constructor <;> simp
      -- the word comes back: from the slot when it holds one
      cases hState : s.ifuState with
      | valid => simpa using hSlot.validPc hState
      | empty =>
          have hNot : s.exceptionPending = false := by
            cases hP : s.exceptionPending with
            | false => rfl
            | true => simp [hBlocked hP] at hState
          simpa using hSlot.emptyPc hState hNot
  | raise hRedirect _ hEmpty hMis hPending =>
      have hPc := hSlot.emptyPc hEmpty hPending
      rw [nextPc_keep hRedirect (outFire_false_of_empty hEmpty)]
      rw [hPc] at hMis
      constructor <;> simp [hPc, hMis]
  | accept hRedirect _ hEmpty _ hFire hStale _ =>
      have hBusy : s.axiState ≠ .idle := by simp [rFire_waitR hFire]
      obtain ⟨_, hPending, hPc, hMis⟩ := hLive hBusy hStale
      rw [nextPc_keep hRedirect (outFire_false_of_empty hEmpty)]
      constructor <;> simp [hPc, hMis, hPending]
  | handOver _ _ hValid hFire =>
      rw [nextPc_handOver hFire]
      constructor <;> simp
      · intro hPending
        rw [hSlot.validPending hValid] at hPending
        exact hSlot.validFetch hValid hPending
      · exact hSlot.pendingMisaligned
      · intro hPending
        exact (misaligned_add_four pc).trans (hSlot.pendingPc hPending)
  | keep hRedirect _ hFire =>
      rw [nextPc_keep hRedirect hFire]
      exact hSlot

/-- A live request stays live only while neither a redirect, nor a response,
nor the slot intervenes. -/
private theorem liveTracks_hold (h : Tracks s pc) (hBusy : s.axiState ≠ .idle)
    (hNoFire : s.ifuRFire i = false)
    (hStale : (i.inRedirectFire || s.outstandingStale) = false) :
    (s.slotBlock i).ifuState = .empty ∧ (s.slotBlock i).exceptionPending = false ∧
      s.outstandingPc = nextPc s i pc ∧ misaligned (nextPc s i pc) = false := by
  simp only [Bool.or_eq_false_iff] at hStale
  obtain ⟨hEmpty, hPending, hPc, hMis⟩ := h.live hBusy hStale.2
  rw [nextPc_keep hStale.1 (outFire_false_of_empty hEmpty)]
  have hFetch := h.slot.emptyPc hEmpty hPending
  have hMove := slotMove s i
  generalize s.slotBlock i = sl at hMove
  cases hMove with
  | redirect hRedirect => simp [hStale.1] at hRedirect
  | fence => exact ⟨rfl, rfl, hPc, hMis⟩
  | raise _ _ _ hBad _ => rw [hFetch, hMis] at hBad; cases hBad
  | accept _ _ _ _ hFire _ _ => rw [hNoFire] at hFire; cases hFire
  | handOver _ _ hValid _ => rw [hEmpty] at hValid; cases hValid
  | keep => exact ⟨hEmpty, hPending, hPc, hMis⟩

/-- So does the request in flight, unless it is stale. -/
private theorem liveTracks_step (h : Tracks s pc) :
    LiveTracks (s.axiBlock i) (s.slotBlock i) (nextPc s i pc) := by
  have hMove := axiMove s i
  intro hBusy hStale
  generalize s.axiBlock i = ax at hMove hBusy hStale
  cases hMove with
  | start hIdle hEmpty _ hFence hRedirect hMis hPending =>
      have hPc := h.slot.emptyPc hEmpty hPending
      rw [nextPc_keep hRedirect (outFire_false_of_empty hEmpty)]
      have hSlot := slotMove s i
      generalize s.slotBlock i = sl at hSlot
      cases hSlot with
      | redirect hBad => simp [hRedirect] at hBad
      | fence _ hBad => simp [hFence] at hBad
      | raise _ _ _ hBad _ => simp [hMis] at hBad
      | accept _ _ _ _ hFire _ _ => simp [rFire_waitR hFire] at hIdle
      | handOver _ _ hValid _ => simp [hEmpty] at hValid
      | keep => exact ⟨hEmpty, hPending, hPc, hPc ▸ hMis⟩
  | rest => exact absurd rfl hBusy
  | answered => exact absurd rfl hBusy
  | ask hSend hFire =>
      exact liveTracks_hold h (by simp [hSend])
        (by simp [Ifu.ifuRFire, rFire, Ifu.axi, hSend]) hStale
  | asked hSend hFire =>
      exact liveTracks_hold h (by simp [hSend])
        (by simp [Ifu.ifuRFire, rFire, Ifu.axi, hSend]) hStale
  | await hWait hFire => exact liveTracks_hold h (by simp [hWait]) hFire hStale

/-- **The tracked address through one edge.**  A committing `fence.i` must not
meet a hand-over or a unit blocked on an exception; the core never lets it. -/
theorem tracks_step (h : Tracks s pc)
    (hFence : i.inFenceiDone = true →
      s.outFire i = false ∧ (s.exceptionPending = true → s.ifuState = .valid)) :
    Tracks (s.step i) (nextPc s i pc) :=
  ⟨slotTracks_step h hFence, liveTracks_step h⟩

end Step

end Riscv32.Fetch
