import Riscv32.Clocked.Run
import Riscv32.Fetch.Tracks

/-!
# The delivered instruction stream

The fetch unit on its own, clocked from reset by an arbitrary environment:
any `in_ready`, any redirects, any bus latencies.  Between two redirects the
words accepted by decode are those at `T`, `T + 4`, `T + 8`, … for the last
redirect target `T`, and each was answered to a request raised after that
redirect.

`Progress` is the promise, read off the ports of the unit: the last target and
the number of words accepted since.  `StreamInv` adds what cannot be seen there,
the request that is outstanding and the cycles it was raised, accepted and
answered in.

`delivered_stream` is the result; `streamInv` its invariant, by induction on the
cycle with `tracks_step` for one edge.
-/

namespace Riscv32.Fetch

open Riscv32.Rtl
open Riscv32.Clocked

/-- Last redirect target and the number of words accepted since. -/
structure Progress where
  target : Word
  count : Nat
deriving DecidableEq, Repr

/-- The address the environment is entitled to next. -/
def Progress.pc (g : Progress) : Word := g.target + 4 * BitVec.ofNat 32 g.count

/-- Progress through one cycle, read off the unit's ports. -/
def Progress.watch (g : Progress) (s : Ifu) (i : IfuIn) : Progress :=
  if i.inRedirectFire then ⟨i.inRedirectPc, 0⟩
  else if s.outFire i then ⟨g.target, g.count + 1⟩
  else g

theorem progress_pc_watch (g : Progress) (s : Ifu) (i : IfuIn) :
    (g.watch s i).pc = nextPc s i g.pc := by
  unfold Progress.watch nextPc
  split
  · simp [Progress.pc]
  · split
    · simp only [Progress.pc, BitVec.ofNat_add, BitVec.mul_add, BitVec.add_assoc]
      rfl
    · rfl

section Run

variable (arch : Arch) (inp : Nat → IfuIn)

/-- The unit in cycle `t` after reset. -/
def ifuAt (t : Nat) : Ifu := run Ifu.step (Ifu.reset arch) inp t

/-- Progress before cycle `t`; initially the stream starts at the reset vector. -/
def progressAt (t : Nat) : Progress :=
  observe Ifu.step Progress.watch ⟨resetPc arch, 0⟩ (Ifu.reset arch) inp t

/-- An AR handshake for `pc` in cycle `a`. -/
def AskedAt (a : Nat) (pc : Word) : Prop :=
  (ifuAt arch inp a).ifuArFire (inp a) = true ∧
    ((ifuAt arch inp a).axi (inp a).inRedirectFire (inp a).inReady).araddr = pc

/-- The request accepted in cycle `a` was raised right after cycle `q`:
`arvalid` is low in `q` and high from there up to `a`. -/
def RaisedAfter (q a : Nat) : Prop :=
  (ifuAt arch inp q).axiState ≠ .sendAr ∧
    ∀ k, q < k → k ≤ a → (ifuAt arch inp k).axiState = .sendAr

/-- An R handshake carrying `word` in cycle `b`. -/
def AnsweredAt (b : Nat) (word : Word) : Prop :=
  (ifuAt arch inp b).ifuRFire (inp b) = true ∧ (inp b).axi.rdata = word

/-- No redirect and no accepted word in the cycles `a ≤ k < t`. -/
def Undisturbed (a t : Nat) : Prop :=
  ∀ k, a ≤ k → k < t →
    (inp k).inRedirectFire = false ∧ (ifuAt arch inp k).outFire (inp k) = false

/-- No R handshake in `a ≤ k < t` and no AR handshake after `a`: the request
of cycle `a` is the one outstanding. -/
def Outstanding (a t : Nat) : Prop :=
  ∀ k, a ≤ k → k < t →
    (ifuAt arch inp k).ifuRFire (inp k) = false ∧
      (a < k → (ifuAt arch inp k).ifuArFire (inp k) = false)

theorem progressAt_succ (t : Nat) :
    progressAt arch inp (t + 1) =
      (progressAt arch inp t).watch (ifuAt arch inp t) (inp t) := rfl

/-- A live request is raised in cycle `t`. -/
def Raising (t : Nat) : Prop :=
  ∃ q, q < t ∧ RaisedAfter arch inp q t ∧ Undisturbed arch inp q t

/-- A live response for `pc` is still to come. -/
def Asking (t : Nat) (pc : Word) : Prop :=
  ∃ q a, q < a ∧ a < t ∧ RaisedAfter arch inp q a ∧ AskedAt arch inp a pc ∧
    Outstanding arch inp a t ∧ Undisturbed arch inp q t

/-- `word` answered a request for `pc` and has not been accepted yet. -/
def Answer (t : Nat) (pc word : Word) : Prop :=
  ∃ q a b, q < a ∧ a < b ∧ b < t ∧ RaisedAfter arch inp q a ∧
    AskedAt arch inp a pc ∧ AnsweredAt arch inp b word ∧
    Outstanding arch inp a b ∧ Undisturbed arch inp q t

variable {arch inp}

private theorem undisturbed_succ {a t : Nat} (h : Undisturbed arch inp a t)
    (hRedirect : (inp t).inRedirectFire = false)
    (hFire : (ifuAt arch inp t).outFire (inp t) = false) :
    Undisturbed arch inp a (t + 1) := by
  intro k hak hkt
  rcases Nat.lt_succ_iff_lt_or_eq.mp hkt with hlt | rfl
  · exact h k hak hlt
  · exact ⟨hRedirect, hFire⟩

theorem raising_of_start {t : Nat} (hIdle : (ifuAt arch inp t).axiState = .idle)
    (hSend : (ifuAt arch inp (t + 1)).axiState = .sendAr)
    (hRedirect : (inp t).inRedirectFire = false)
    (hQuiet : (ifuAt arch inp t).outFire (inp t) = false) :
    Raising arch inp (t + 1) := by
  refine ⟨t, Nat.lt_succ_self t, ⟨by simp [hIdle], ?_⟩, ?_⟩
  · intro k h1 h2
    obtain rfl : k = t + 1 := by omega
    exact hSend
  · exact undisturbed_succ (fun k h1 h2 => absurd h1 (by omega)) hRedirect hQuiet

theorem raising_succ {t : Nat} (h : Raising arch inp t)
    (hSend : (ifuAt arch inp (t + 1)).axiState = .sendAr)
    (hRedirect : (inp t).inRedirectFire = false)
    (hQuiet : (ifuAt arch inp t).outFire (inp t) = false) :
    Raising arch inp (t + 1) := by
  obtain ⟨q, hqt, ⟨hLow, hHigh⟩, hUnd⟩ := h
  refine ⟨q, by omega, ⟨hLow, ?_⟩, undisturbed_succ hUnd hRedirect hQuiet⟩
  intro k h1 h2
  rcases Nat.lt_or_eq_of_le h2 with hlt | rfl
  · exact hHigh k h1 (by omega)
  · exact hSend

theorem asking_of_arFire {t : Nat} {pc : Word} (h : Raising arch inp t)
    (hAsk : AskedAt arch inp t pc) (hRedirect : (inp t).inRedirectFire = false)
    (hQuiet : (ifuAt arch inp t).outFire (inp t) = false) :
    Asking arch inp (t + 1) pc := by
  obtain ⟨q, hqt, hRaised, hUnd⟩ := h
  refine ⟨q, t, hqt, Nat.lt_succ_self t, hRaised, hAsk, ?_,
    undisturbed_succ hUnd hRedirect hQuiet⟩
  intro k h1 h2
  obtain rfl : k = t := by omega
  refine ⟨?_, fun h => absurd h (Nat.lt_irrefl _)⟩
  simp [Ifu.ifuRFire, rFire, Ifu.axi, hRaised.2 k hqt le_rfl]

theorem asking_succ {t : Nat} {pc : Word} (h : Asking arch inp t pc)
    (hRedirect : (inp t).inRedirectFire = false)
    (hQuiet : (ifuAt arch inp t).outFire (inp t) = false)
    (hWait : (ifuAt arch inp t).axiState = .waitR)
    (hNoFire : (ifuAt arch inp t).ifuRFire (inp t) = false) :
    Asking arch inp (t + 1) pc := by
  obtain ⟨q, a, hqa, hat, hRaised, hAsk, hOut, hUnd⟩ := h
  refine ⟨q, a, hqa, by omega, hRaised, hAsk, ?_,
    undisturbed_succ hUnd hRedirect hQuiet⟩
  intro k h1 h2
  rcases Nat.lt_succ_iff_lt_or_eq.mp h2 with hlt | rfl
  · exact hOut k h1 hlt
  · exact ⟨hNoFire, fun _ => by simp [Ifu.ifuArFire, arFire, Ifu.axi, hWait]⟩

theorem answer_of_rFire {t : Nat} {pc : Word} (h : Asking arch inp t pc)
    (hRedirect : (inp t).inRedirectFire = false)
    (hQuiet : (ifuAt arch inp t).outFire (inp t) = false)
    (hFire : (ifuAt arch inp t).ifuRFire (inp t) = true) :
    Answer arch inp (t + 1) pc (inp t).axi.rdata := by
  obtain ⟨q, a, hqa, hat, hRaised, hAsk, hOut, hUnd⟩ := h
  exact ⟨q, a, t, hqa, hat, Nat.lt_succ_self t, hRaised, hAsk, ⟨hFire, rfl⟩, hOut,
    undisturbed_succ hUnd hRedirect hQuiet⟩

theorem answer_succ {t : Nat} {pc word : Word} (h : Answer arch inp t pc word)
    (hRedirect : (inp t).inRedirectFire = false)
    (hQuiet : (ifuAt arch inp t).outFire (inp t) = false) :
    Answer arch inp (t + 1) pc word := by
  obtain ⟨q, a, b, hqa, hab, hbt, hRaised, hAsk, hAns, hOut, hUnd⟩ := h
  exact ⟨q, a, b, hqa, hab, by omega, hRaised, hAsk, hAns, hOut,
    undisturbed_succ hUnd hRedirect hQuiet⟩

end Run

/-- The stream invariant in cycle `t`. -/
structure StreamInv (arch : Arch) (inp : Nat → IfuIn) (t : Nat) : Prop where
  tracks : Tracks (ifuAt arch inp t) (progressAt arch inp t).pc
  aligned : misaligned (progressAt arch inp t).pc = false
  noPending : (ifuAt arch inp t).exceptionPending = false
  raising : (ifuAt arch inp t).axiState = .sendAr →
    (ifuAt arch inp t).outstandingStale = false → Raising arch inp t
  asking : (ifuAt arch inp t).axiState = .waitR →
    (ifuAt arch inp t).outstandingStale = false →
    Asking arch inp t (progressAt arch inp t).pc
  answer : (ifuAt arch inp t).ifuState = .valid →
    Answer arch inp t (progressAt arch inp t).pc (ifuAt arch inp t).outInst

section Invariant

variable {arch : Arch} {inp : Nat → IfuIn}

theorem progressAt_zero : (progressAt arch inp 0).pc = resetPc arch := by
  simp [progressAt, Progress.pc]

theorem streamInv_zero : StreamInv arch inp 0 where
  tracks := by
    rw [progressAt_zero]
    exact tracks_reset arch
  aligned := by
    rw [progressAt_zero]
    exact misaligned_resetPc arch
  noPending := rfl
  raising := by intro h; cases h
  asking := by intro h; cases h
  answer := by intro h; cases h

private theorem aligned_step {t : Nat} (h : StreamInv arch inp t)
    (hAligned : (inp t).inRedirectFire = true →
      misaligned (inp t).inRedirectPc = false) :
    misaligned (progressAt arch inp (t + 1)).pc = false := by
  rw [progressAt_succ, progress_pc_watch]
  unfold nextPc
  split
  · rename_i hRedirect
    exact hAligned hRedirect
  · split
    · rw [misaligned_add_four]
      exact h.aligned
    · exact h.aligned

private theorem noPending_step {t : Nat} (h : StreamInv arch inp t) :
    (ifuAt arch inp (t + 1)).exceptionPending = false := by
  have hOld := h.noPending
  have hMove := slotMove (ifuAt arch inp t) (inp t)
  change ((ifuAt arch inp t).slotBlock (inp t)).exceptionPending = false
  generalize (ifuAt arch inp t).slotBlock (inp t) = sl at hMove
  cases hMove with
  | redirect => rfl
  | fence => rfl
  | raise _ _ hEmpty hMis _ =>
      rw [h.tracks.slot.emptyPc hEmpty hOld, h.aligned] at hMis
      cases hMis
  | accept => exact hOld
  | handOver => exact hOld
  | keep => exact hOld

/-- While a live request is outstanding the slot is empty, so nothing is
accepted. -/
private theorem quiet_of_live {t : Nat} (h : StreamInv arch inp t)
    (hBusy : (ifuAt arch inp t).axiState ≠ .idle)
    (hStale : (ifuAt arch inp t).outstandingStale = false) :
    (ifuAt arch inp t).outFire (inp t) = false := by
  have hEmpty := (h.tracks.live hBusy hStale).1
  simp [Ifu.outFire, Ifu.outValid, hEmpty]

private theorem progressAt_keep {t : Nat}
    (hRedirect : (inp t).inRedirectFire = false)
    (hQuiet : (ifuAt arch inp t).outFire (inp t) = false) :
    (progressAt arch inp (t + 1)).pc = (progressAt arch inp t).pc := by
  simp [progressAt_succ, Progress.watch, hRedirect, hQuiet]

private theorem raising_step {t : Nat} (h : StreamInv arch inp t)
    (hSend : (ifuAt arch inp (t + 1)).axiState = .sendAr)
    (hStale : (ifuAt arch inp (t + 1)).outstandingStale = false) :
    Raising arch inp (t + 1) := by
  have hMove := axiMove (ifuAt arch inp t) (inp t)
  have hSend' : ((ifuAt arch inp t).axiBlock (inp t)).axiState = .sendAr := hSend
  change ((ifuAt arch inp t).axiBlock (inp t)).outstandingStale = false at hStale
  generalize (ifuAt arch inp t).axiBlock (inp t) = ax at hMove hSend' hStale
  cases hMove with
  | rest => cases hSend'
  | asked => cases hSend'
  | answered => cases hSend'
  | await => cases hSend'
  | start hIdle hEmpty _ _ hRedirect _ _ =>
      have hQuiet : (ifuAt arch inp t).outFire (inp t) = false := by
        simp [Ifu.outFire, Ifu.outValid, hEmpty]
      exact raising_of_start hIdle hSend hRedirect hQuiet
  | ask hOld _ =>
      simp only [Bool.or_eq_false_iff] at hStale
      have hQuiet := quiet_of_live h (by simp [hOld]) hStale.2
      exact raising_succ (h.raising hOld hStale.2) hSend hStale.1 hQuiet

private theorem asking_step {t : Nat} (h : StreamInv arch inp t)
    (hWait : (ifuAt arch inp (t + 1)).axiState = .waitR)
    (hStale : (ifuAt arch inp (t + 1)).outstandingStale = false) :
    Asking arch inp (t + 1) (progressAt arch inp (t + 1)).pc := by
  have hMove := axiMove (ifuAt arch inp t) (inp t)
  change ((ifuAt arch inp t).axiBlock (inp t)).axiState = .waitR at hWait
  change ((ifuAt arch inp t).axiBlock (inp t)).outstandingStale = false at hStale
  generalize (ifuAt arch inp t).axiBlock (inp t) = ax at hMove hWait hStale
  cases hMove with
  | start => cases hWait
  | rest => cases hWait
  | ask => cases hWait
  | answered => cases hWait
  | asked hSend hFire =>
      simp only [Bool.or_eq_false_iff] at hStale
      have hBusy : (ifuAt arch inp t).axiState ≠ .idle := by simp [hSend]
      have hQuiet := quiet_of_live h hBusy hStale.2
      rw [progressAt_keep hStale.1 hQuiet]
      exact asking_of_arFire (h.raising hSend hStale.2)
        ⟨hFire, (h.tracks.live hBusy hStale.2).2.2.1⟩ hStale.1 hQuiet
  | await hOld hNoFire =>
      simp only [Bool.or_eq_false_iff] at hStale
      have hQuiet := quiet_of_live h (by simp [hOld]) hStale.2
      rw [progressAt_keep hStale.1 hQuiet]
      exact asking_succ (h.asking hOld hStale.2) hStale.1 hQuiet hOld hNoFire

private theorem answer_step {t : Nat} (h : StreamInv arch inp t)
    (hValid : (ifuAt arch inp (t + 1)).ifuState = .valid) :
    Answer arch inp (t + 1) (progressAt arch inp (t + 1)).pc
      (ifuAt arch inp (t + 1)).outInst := by
  have hMove := slotMove (ifuAt arch inp t) (inp t)
  change ((ifuAt arch inp t).slotBlock (inp t)).ifuState = .valid at hValid
  change Answer arch inp (t + 1) _ ((ifuAt arch inp t).slotBlock (inp t)).outInst
  generalize (ifuAt arch inp t).slotBlock (inp t) = sl at hMove hValid
  cases hMove with
  | redirect => cases hValid
  | fence => cases hValid
  | handOver => cases hValid
  | raise _ _ hEmpty hMis hPending =>
      rw [h.tracks.slot.emptyPc hEmpty hPending, h.aligned] at hMis
      cases hMis
  | accept hRedirect _ hEmpty _ hFire hStale _ =>
      have hWait := rFire_waitR hFire
      have hQuiet := quiet_of_live h (by simp [hWait]) hStale
      rw [progressAt_keep hRedirect hQuiet]
      exact answer_of_rFire (h.asking hWait hStale) hRedirect hQuiet hFire
  | keep hRedirect _ hQuiet =>
      rw [progressAt_keep hRedirect hQuiet]
      exact answer_succ (h.answer hValid) hRedirect hQuiet

theorem streamInv_succ {t : Nat} (h : StreamInv arch inp t)
    (hFence : (inp t).inFenceiDone = false)
    (hAligned : (inp t).inRedirectFire = true →
      misaligned (inp t).inRedirectPc = false) :
    StreamInv arch inp (t + 1) where
  tracks := by
    rw [progressAt_succ, progress_pc_watch]
    exact tracks_step h.tracks fun hDone => by simp [hFence] at hDone
  aligned := aligned_step h hAligned
  noPending := noPending_step h
  raising := raising_step h
  asking := asking_step h
  answer := answer_step h

/-- The invariant holds in every cycle. -/
theorem streamInv (hFence : ∀ t, (inp t).inFenceiDone = false)
    (hAligned : ∀ t, (inp t).inRedirectFire = true →
      misaligned (inp t).inRedirectPc = false) (t : Nat) :
    StreamInv arch inp t := by
  induction t with
  | zero => exact streamInv_zero
  | succ t ih => exact streamInv_succ ih (hFence t) (hAligned t)

/-- **The delivered stream.**  A word accepted in cycle `t` is the next one of
the stream started by the last redirect, and it answered a request for its own
address: raised after cycle `q`, accepted in `a`, answered in `b`, with no
redirect and no accepted word from `q` on until `t`, and no other request or
response between `a` and `b`. -/
theorem delivered_stream (hFence : ∀ t, (inp t).inFenceiDone = false)
    (hAligned : ∀ t, (inp t).inRedirectFire = true →
      misaligned (inp t).inRedirectPc = false) (t : Nat)
    (hFire : (ifuAt arch inp t).outFire (inp t) = true) :
    (ifuAt arch inp t).outPc = (progressAt arch inp t).pc ∧
      (ifuAt arch inp t).outExceptionValid = false ∧
      (inp t).inRedirectFire = false ∧
      ∃ q a b, q < a ∧ a < b ∧ b < t ∧ RaisedAfter arch inp q a ∧
        AskedAt arch inp a (ifuAt arch inp t).outPc ∧
        AnsweredAt arch inp b (ifuAt arch inp t).outInst ∧
        Outstanding arch inp a b ∧ Undisturbed arch inp q t := by
  have h : StreamInv arch inp t := streamInv hFence hAligned t
  obtain ⟨hValid, hRedirect⟩ := outFire_valid hFire
  have hPc := h.tracks.slot.validPc hValid
  refine ⟨hPc, ?_, hRedirect, ?_⟩
  · rw [h.tracks.slot.validExc hValid, h.aligned]
  · rw [hPc]
    exact h.answer hValid

/-- A bus that always answers, with a redirect to `0x30000100` in cycle 6. -/
def sampleInp (t : Nat) : IfuIn where
  inFenceiDone := false
  inRedirectPc := 0x30000100#32
  inRedirectFire := t == 6
  inReady := true
  axi := { arready := true, rvalid := true, rdata := 0x13#32 + BitVec.ofNat 32 t }

/-- In cycle 10 the word of the redirect target is accepted; the word asked
for just before the redirect is not. -/
theorem delivered_stream_sample :
    (ifuAt .ysyxsoc sampleInp 10).outPc = 0x30000100#32 ∧
      ∃ q a b, q < a ∧ a < b ∧ b < 10 ∧ RaisedAfter .ysyxsoc sampleInp q a ∧
        AskedAt .ysyxsoc sampleInp a (ifuAt .ysyxsoc sampleInp 10).outPc ∧
        AnsweredAt .ysyxsoc sampleInp b (ifuAt .ysyxsoc sampleInp 10).outInst ∧
        Outstanding .ysyxsoc sampleInp a b ∧ Undisturbed .ysyxsoc sampleInp q 10 :=
  have hTarget : misaligned 0x30000100#32 = false := by decide
  ⟨by decide, (delivered_stream (fun _ => rfl) (fun _ _ => hTarget) 10
    (by decide)).2.2.2⟩

end Invariant

end Riscv32.Fetch
