import Riscv32.Pipeline.Front

/-!
# The order of a store's handshakes

`LSU.sv` leaves `LSU_WRITE_REQ` in a cycle that takes address and data
together.  Either valid bit is cleared by its own handshake, so a slave that
takes one of them first leaves the unit with one request, and with none after
the other handshake: the state is never left again.

A monitor (`StoreSeen`) remembers the store the unit has taken and which of its
handshakes were made; `seen_step` keeps it in step with the unit.  `Split` is a
property of the environment: some store is taken in two halves.

## Main results

* `stuck_of_split` — a store taken in two halves ends in the stuck state.
* `stores_complete_iff` — in every run, stores complete exactly if none is split.
-/

namespace Riscv32.Pipeline

open Riscv32.Rtl
open Riscv32.Clocked

/-- The store the unit has taken and not seen answered, and which of its
handshakes have been made. -/
structure StoreSeen where
  current : Bool
  aw : Bool
  w : Bool
deriving DecidableEq, Repr

/-- What one cycle adds. -/
def StoreSeen.watch (g : StoreSeen) (s : Core) (i : CoreIn) : StoreSeen :=
  if s.lsu.storeFire (s.lsuIn i) then ⟨true, false, false⟩
  else if bFire s.lsuAxi i.lsu then ⟨false, false, false⟩
  else { g with aw := g.aw || awFire s.lsuAxi i.lsu, w := g.w || wFire s.lsuAxi i.lsu }

def storeSeenAt (arch : Arch) (s : Core) (inp : Nat → CoreIn) (t : Nat) : StoreSeen :=
  observe (Core.step arch) StoreSeen.watch ⟨false, false, false⟩ s inp t

/-- `LSU_WRITE_REQ` with no request left. -/
def Stuck (l : Lsu) : Prop := l.lsuState = .writeReq ∧ l.aw.valid = false ∧ l.w.valid = false

/-- A store whose two handshakes have been made waits for its response. -/
def Completes (l : Lsu) (g : StoreSeen) : Prop :=
  ¬ Stuck l ∧ (g = ⟨true, true, true⟩ → l.lsuState ≠ .writeReq ∧ l.axi.bready = true)

/-- Both requests are up. -/
def BothUp (l : Lsu) : Prop := l.lsuState = .writeReq ∧ l.aw.valid = true ∧ l.w.valid = true

/-- One half of a store is taken in cycle `t` and the other in cycle `k`. -/
def Late (inp : Nat → CoreIn) (t k : Nat) : Prop :=
  ((inp t).lsu.awready = true ∧ (inp t).lsu.wready = false ∧ (inp k).lsu.wready = true) ∨
    ((inp t).lsu.wready = true ∧ (inp t).lsu.awready = false ∧ (inp k).lsu.awready = true)

/-- Some store is taken in two halves. -/
def Split (arch : Arch) (s : Core) (inp : Nat → CoreIn) : Prop :=
  ∃ t k, t < k ∧ BothUp (coreAt arch s inp t).lsu ∧ Late inp t k

/-! ## What has been seen is what is left -/

/-- The monitor and the unit agree. -/
def SeenInv (l : Lsu) (g : StoreSeen) : Prop :=
  match l.lsuState with
  | .writeReq => g = ⟨true, !l.aw.valid, !l.w.valid⟩
  | .waitB => g = ⟨true, true, true⟩
  | _ => g.current = false

section Step

variable {arch : Arch} {s : Core} {i : CoreIn} {oe oe' : Option Entry} {m m' : PortLog}

/-- Only a store raises an address. -/
theorem writeReq_of_awvalid {l : Lsu} (h : LsuPhase arch l oe m) (hAw : l.aw.valid = true) :
    l.lsuState = .writeReq := by
  cases h with
  | writeReq _ _ _ _ hState => exact hState
  | readAddr _ _ _ _ _ _ hLow => simp [hLow] at hAw
  | empty _ _ hLow | passing _ _ _ _ hLow | waitR _ _ _ _ hLow | loaded _ _ _ _ _ hLow
  | waitB _ _ _ _ hLow | stored _ _ _ _ hLow => simp [hLow.aw] at hAw

private theorem stateNext_of_writeReq (arch : Arch) (i : CoreIn)
    (hState : s.lsu.lsuState = .writeReq) :
    (s.step arch i).lsu.lsuState =
        (if awFire s.lsuAxi i.lsu && wFire s.lsuAxi i.lsu then .waitB else .writeReq) ∧
      (s.step arch i).lsu.aw.valid = (s.lsu.aw.valid && !i.lsu.awready) ∧
      (s.step arch i).lsu.w.valid = (s.lsu.w.valid && !i.lsu.wready) := by
  have hStore : s.lsu.storeFire (s.lsuIn i) = false := by simp [Lsu.storeFire, hState]
  refine ⟨?_, congrArg AddrChan.valid (aw_step arch hStore),
    congrArg DataChan.valid (w_step arch hStore)⟩
  simp only [Core.step, Lsu.step, Lsu.stateNext, hState]
  rfl

/-- A new store raises both requests. -/
private theorem raised_of_storeFire (arch : Arch) (h : s.lsu.storeFire (s.lsuIn i) = true) :
    (s.step arch i).lsu.aw.valid = true ∧ (s.step arch i).lsu.w.valid = true := by
  constructor
  · simp [Core.step, Lsu.step, Lsu.awNext, h]
  · simp [Core.step, Lsu.step, Lsu.wNext, h]

/-- Only a new store leads to `LSU_WRITE_REQ`, and only from there on to
`LSU_WAIT_B`. -/
private theorem stateNext_quiet (arch : Arch) (hWrite : s.lsu.lsuState ≠ .writeReq)
    (hStore : s.lsu.storeFire (s.lsuIn i) = false) :
    (s.step arch i).lsu.lsuState ≠ .writeReq ∧
      (s.lsu.lsuState ≠ .waitB → (s.step arch i).lsu.lsuState ≠ .waitB) := by
  simp only [Core.step, Lsu.step, Lsu.stateNext]
  cases hNow : s.lsu.lsuState with
  | idle =>
      have hNot : ((s.lsuIn i).inValid && s.lsu.outReady && (s.lsuIn i).inst.isStore) = false := by
        simpa [Lsu.storeFire, hNow] using hStore
      simp only [hNot]
      split <;> simp
  | readAddr | waitR | waitB | done =>
      dsimp only
      split <;> simp
  | writeReq => exact absurd hNow hWrite

private theorem seen_quiet (hWrite : s.lsu.lsuState ≠ .writeReq) (hWait : s.lsu.lsuState ≠ .waitB)
    (hNext : LsuPhase arch (s.step arch i).lsu oe' m') {g : StoreSeen} (hNone : g.current = false) :
    SeenInv (s.step arch i).lsu (g.watch s i) := by
  cases hStore : s.lsu.storeFire (s.lsuIn i) with
  | true =>
      obtain ⟨hAw, hW⟩ := raised_of_storeFire arch hStore
      simp [SeenInv, writeReq_of_awvalid hNext hAw, StoreSeen.watch, hStore, hAw, hW]
  | false =>
      have hCurrent : (g.watch s i).current = false := by
        simp only [StoreSeen.watch, hStore, Bool.false_eq_true, if_false]
        split
        · rfl
        · exact hNone
      have hQuiet := stateNext_quiet arch hWrite hStore
      unfold SeenInv
      split
      case h_1 hBad => exact absurd hBad hQuiet.1
      case h_2 hBad => exact absurd hBad (hQuiet.2 hWait)
      case h_3 => exact hCurrent

/-- One edge keeps the monitor in step. -/
theorem seen_step {g : StoreSeen} (hNext : LsuPhase arch (s.step arch i).lsu oe' m')
    (h : SeenInv s.lsu g) : SeenInv (s.step arch i).lsu (g.watch s i) := by
  have hStore : s.lsu.lsuState ≠ .idle → s.lsu.storeFire (s.lsuIn i) = false := by
    intro hBusy
    simp [Lsu.storeFire, hBusy]
  cases hState : s.lsu.lsuState with
  | writeReq =>
      obtain ⟨hState', hAw', hW'⟩ := stateNext_of_writeReq arch i hState
      have hNoB : bFire s.lsuAxi i.lsu = false := by
        simp [bFire, Core.lsuAxi, Lsu.axi, hState]
      rw [SeenInv, hState] at h
      have hAw : awFire s.lsuAxi i.lsu = (s.lsu.aw.valid && i.lsu.awready) := rfl
      have hW : wFire s.lsuAxi i.lsu = (s.lsu.w.valid && i.lsu.wready) := rfl
      rw [SeenInv, hState', hAw', hW', StoreSeen.watch, hStore (by simp [hState]), hNoB, h, hAw, hW]
      cases s.lsu.aw.valid <;> cases s.lsu.w.valid <;> cases i.lsu.awready <;>
        cases i.lsu.wready <;> rfl
  | waitB =>
      rw [SeenInv, hState] at h
      have hState' : (s.step arch i).lsu.lsuState =
          if bFire s.lsuAxi i.lsu then .done else .waitB := by
        simp only [Core.step, Lsu.step, Lsu.stateNext, hState]
        rfl
      rw [SeenInv, hState', StoreSeen.watch, hStore (by simp [hState]), h]
      cases bFire s.lsuAxi i.lsu <;> simp
  | idle | readAddr | waitR | done =>
      rw [SeenInv, hState] at h
      exact seen_quiet (by simp [hState]) (by simp [hState]) hNext h

end Step

section Run

variable {arch : Arch} {s : Core} {inp : Nat → CoreIn}

theorem phase_at (inp : Nat → CoreIn) (h : s.AfterReset arch) (t : Nat) :
    ∃ oe m, LsuPhase arch (coreAt arch s inp t).lsu oe m := by
  obtain ⟨f, pc, hBack, -⟩ := coreInv_at h inp t
  exact ⟨f.lsu, f.log, hBack.phase⟩

theorem seen_at (inp : Nat → CoreIn) (h : s.AfterReset arch) (t : Nat) :
    SeenInv (coreAt arch s inp t).lsu (storeSeenAt arch s inp t) := by
  induction t with
  | zero =>
      have hIdle : (coreAt arch s inp 0).lsu.lsuState = .idle := h.lsuState
      rw [SeenInv, hIdle]
      rfl
  | succ t ih =>
      obtain ⟨oe, m, hNext⟩ := phase_at inp h (t + 1)
      exact seen_step hNext ih

/-- Two made handshakes and a response not awaited are the stuck state. -/
theorem completes_iff (h : s.AfterReset arch) (t : Nat) :
    Completes (coreAt arch s inp t).lsu (storeSeenAt arch s inp t) ↔
      ¬ Stuck (coreAt arch s inp t).lsu := by
  refine ⟨And.left, fun hNot => ⟨hNot, fun hSeen => ?_⟩⟩
  have hInv := seen_at inp h t
  rw [SeenInv, hSeen] at hInv
  cases hState : (coreAt arch s inp t).lsu.lsuState with
  | writeReq =>
      rw [hState] at hInv
      simp only [StoreSeen.mk.injEq, true_and, Bool.true_eq, Bool.not_eq_true'] at hInv
      exact absurd ⟨hState, hInv⟩ hNot
  | waitB => simp [Lsu.axi, hState]
  | idle | readAddr | waitR | done =>
      rw [hState] at hInv
      cases hInv

/-! ## Stores taken in two halves -/

/-- One half was taken alone in cycle `t`; the other is still up. -/
def Half (arch : Arch) (s : Core) (inp : Nat → CoreIn) (t k : Nat) : Prop :=
  BothUp (coreAt arch s inp t).lsu ∧ (coreAt arch s inp k).lsu.lsuState = .writeReq ∧
    (((inp t).lsu.awready = true ∧ (inp t).lsu.wready = false ∧
        (coreAt arch s inp k).lsu.aw.valid = false ∧ (coreAt arch s inp k).lsu.w.valid = true) ∨
      ((inp t).lsu.wready = true ∧ (inp t).lsu.awready = false ∧
        (coreAt arch s inp k).lsu.w.valid = false ∧ (coreAt arch s inp k).lsu.aw.valid = true))

/-- With one request left the state is never left. -/
theorem writeReq_stays {t : Nat} (hState : (coreAt arch s inp t).lsu.lsuState = .writeReq)
    (hLeft : (coreAt arch s inp t).lsu.aw.valid = false ∨
      (coreAt arch s inp t).lsu.w.valid = false) :
    (coreAt arch s inp (t + 1)).lsu.lsuState = .writeReq := by
  rw [coreAt_succ, (stateNext_of_writeReq arch (inp t) hState).1]
  rcases hLeft with hLow | hLow
  · simp [awFire, Core.lsuAxi, Lsu.axi, hLow]
  · simp [wFire, Core.lsuAxi, Lsu.axi, hLow]

/-- The half that is left stays up until it is taken. -/
theorem half_step {t k : Nat} (h : Half arch s inp t k) :
    (Late inp t k ∧ Stuck (coreAt arch s inp (k + 1)).lsu) ∨
      (¬ Late inp t k ∧ Half arch s inp t (k + 1)) := by
  obtain ⟨hUp, hState, hHalf⟩ := h
  obtain ⟨-, hAw, hW⟩ := stateNext_of_writeReq arch (inp k) hState
  rw [← coreAt_succ] at hAw hW
  rcases hHalf with ⟨hTaken, hNot, hLow, hLeft⟩ | ⟨hTaken, hNot, hLow, hLeft⟩
  · have hStays := writeReq_stays hState (.inl hLow)
    rw [hLow, Bool.false_and] at hAw
    rw [hLeft, Bool.true_and] at hW
    cases hReady : (inp k).lsu.wready with
    | true =>
        rw [hReady] at hW
        exact .inl ⟨.inl ⟨hTaken, hNot, hReady⟩, hStays, hAw, hW⟩
    | false =>
        rw [hReady] at hW
        refine .inr ⟨?_, hUp, hStays, .inl ⟨hTaken, hNot, hAw, hW⟩⟩
        simp [Late, hNot, hReady]
  · have hStays := writeReq_stays hState (.inr hLow)
    rw [hLow, Bool.false_and] at hW
    rw [hLeft, Bool.true_and] at hAw
    cases hReady : (inp k).lsu.awready with
    | true =>
        rw [hReady] at hAw
        exact .inl ⟨.inr ⟨hTaken, hNot, hReady⟩, hStays, hAw, hW⟩
    | false =>
        rw [hReady] at hAw
        refine .inr ⟨?_, hUp, hStays, .inr ⟨hTaken, hNot, hW, hAw⟩⟩
        simp [Late, hNot, hReady]

/-- From two requests up: both stay, both are taken, or one half is. -/
theorem bothUp_step {t : Nat} (h : BothUp (coreAt arch s inp t).lsu) :
    ((inp t).lsu.awready = (inp t).lsu.wready ∧
      ((coreAt arch s inp (t + 1)).lsu.lsuState = .waitB ∨
        BothUp (coreAt arch s inp (t + 1)).lsu)) ∨
      ((inp t).lsu.awready ≠ (inp t).lsu.wready ∧ Half arch s inp t (t + 1)) := by
  obtain ⟨hState, hAw, hW⟩ := id h
  obtain ⟨hState', hAw', hW'⟩ := stateNext_of_writeReq arch (inp t) hState
  rw [← coreAt_succ] at hState' hAw' hW'
  have hAwFire : awFire (coreAt arch s inp t).lsuAxi (inp t).lsu = (inp t).lsu.awready := by
    simp [awFire, Core.lsuAxi, Lsu.axi, hAw]
  have hWFire : wFire (coreAt arch s inp t).lsuAxi (inp t).lsu = (inp t).lsu.wready := by
    simp [wFire, Core.lsuAxi, Lsu.axi, hW]
  rw [hAwFire, hWFire] at hState'
  rw [hAw, Bool.true_and] at hAw'
  rw [hW, Bool.true_and] at hW'
  cases hA : (inp t).lsu.awready <;> cases hB : (inp t).lsu.wready <;>
    rw [hA, hB] at hState' <;> rw [hA] at hAw' <;> rw [hB] at hW'
  · exact .inl ⟨rfl, .inr ⟨hState', hAw', hW'⟩⟩
  · exact .inr ⟨by simp, h, hState', .inr ⟨hB, hA, hW', hAw'⟩⟩
  · exact .inr ⟨by simp, h, hState', .inl ⟨hA, hB, hAw', hW'⟩⟩
  · exact .inl ⟨rfl, .inl hState'⟩

/-- A store enters with both requests up. -/
theorem bothUp_of_enter {t : Nat} (hNot : (coreAt arch s inp t).lsu.lsuState ≠ .writeReq)
    (hState : (coreAt arch s inp (t + 1)).lsu.lsuState = .writeReq) :
    BothUp (coreAt arch s inp (t + 1)).lsu := by
  refine ⟨hState, ?_⟩
  rw [coreAt_succ] at hState ⊢
  cases hStore : (coreAt arch s inp t).lsu.storeFire ((coreAt arch s inp t).lsuIn (inp t)) with
  | true => exact raised_of_storeFire arch hStore
  | false => exact absurd hState (stateNext_quiet arch hNot hStore).1

/-- In a run without split stores a unit in `LSU_WRITE_REQ` has a request up. -/
theorem request_up (h : s.AfterReset arch) (hWhole : ¬ Split arch s inp) (t : Nat) :
    (coreAt arch s inp t).lsu.lsuState ≠ .writeReq ∨ BothUp (coreAt arch s inp t).lsu ∨
      ∃ t₀ < t, Half arch s inp t₀ t := by
  induction t with
  | zero =>
      have hIdle : (coreAt arch s inp 0).lsu.lsuState = .idle := h.lsuState
      exact .inl (by simp [hIdle])
  | succ t ih =>
      by_cases hState : (coreAt arch s inp (t + 1)).lsu.lsuState = .writeReq
      · right
        rcases ih with hNot | hUp | ⟨t₀, ht, hHalf⟩
        · exact .inl (bothUp_of_enter hNot hState)
        · rcases bothUp_step hUp with ⟨-, hWait | hUp'⟩ | ⟨-, hHalf⟩
          · rw [hState] at hWait
            cases hWait
          · exact .inl hUp'
          · exact .inr ⟨t, Nat.lt_succ_self t, hHalf⟩
        · rcases half_step hHalf with ⟨hLate, -⟩ | ⟨-, hHalf'⟩
          · exact absurd ⟨t₀, t, ht, hHalf.1, hLate⟩ hWhole
          · exact .inr ⟨t₀, Nat.lt_succ_of_lt ht, hHalf'⟩
      · exact .inl hState

/-- A split store ends in the stuck state. -/
theorem stuck_of_split (hSplit : Split arch s inp) : ∃ t, Stuck (coreAt arch s inp t).lsu := by
  obtain ⟨t, k, hk, hUp, hLate⟩ := hSplit
  by_contra hNone
  have hNever : ∀ j, ¬ Stuck (coreAt arch s inp j).lsu := fun j hj => hNone ⟨j, hj⟩
  have hLone : (inp t).lsu.awready ≠ (inp t).lsu.wready := by
    rcases hLate with ⟨hA, hB, -⟩ | ⟨hB, hA, -⟩ <;> simp [hA, hB]
  have hHalf : ∀ j, t + 1 ≤ j → Half arch s inp t j := by
    intro j hj
    induction j, hj using Nat.le_induction with
    | base =>
        rcases bothUp_step hUp with ⟨hSame, -⟩ | ⟨-, hHalf⟩
        · exact absurd hSame hLone
        · exact hHalf
    | succ j _ ih =>
        rcases half_step ih with ⟨-, hStuck⟩ | ⟨-, hHalf⟩
        · exact absurd hStuck (hNever _)
        · exact hHalf
  rcases half_step (hHalf k hk) with ⟨-, hStuck⟩ | ⟨hNot, -⟩
  · exact hNever _ hStuck
  · exact hNot hLate

/-- **Stores complete** in a run exactly if no store is taken in two halves. -/
theorem stores_complete_iff (h : s.AfterReset arch) :
    (∀ t, Completes (coreAt arch s inp t).lsu (storeSeenAt arch s inp t)) ↔
      ¬ Split arch s inp := by
  simp only [completes_iff h]
  constructor
  · intro hNever hSplit
    obtain ⟨t, hStuck⟩ := stuck_of_split hSplit
    exact hNever t hStuck
  · rintro hWhole t ⟨hState, hAw, hW⟩
    rcases request_up h hWhole t with hNot | ⟨-, hUp, -⟩ | ⟨t₀, -, -, -, hHalf⟩
    · exact hNot hState
    · rw [hAw] at hUp
      cases hUp
    · rcases hHalf with ⟨-, -, -, hUp⟩ | ⟨-, -, -, hUp⟩
      · rw [hW] at hUp
        cases hUp
      · rw [hAw] at hUp
        cases hUp

end Run

/-- A slave that takes both halves at once never splits a store. -/
theorem stores_complete_iff_prompt :
    (Core.powerUp .npc).AfterReset .npc ∧
      ∀ t, Completes (coreAt .npc (Core.powerUp .npc) (promptInp 0x00002023#32) t).lsu
        (storeSeenAt .npc (Core.powerUp .npc) (promptInp 0x00002023#32) t) := by
  refine ⟨Core.powerUp_afterReset .npc,
    (stores_complete_iff (Core.powerUp_afterReset .npc)).2 ?_⟩
  rintro ⟨t, k, -, -, hLate⟩
  simp [Late, promptInp] at hLate

/-- Every fetch returns `sw x0, 0(x0)`; the slave takes the address of the
first store in cycle 7 and its data in cycle 8. -/
def addressFirst (t : Nat) : CoreIn where
  ifu := { arready := true, rvalid := true, rdata := 0x00002023#32 }
  lsu := { awready := t == 7, wready := t == 8, bvalid := true }

/-- In cycle 9 both handshakes have been made and the unit still waits for them. -/
theorem address_first_stuck :
    (Core.powerUp .npc).AfterReset .npc ∧
      storeSeenAt .npc (Core.powerUp .npc) addressFirst 9 = ⟨true, true, true⟩ ∧
      Stuck (coreAt .npc (Core.powerUp .npc) addressFirst 9).lsu ∧
      ¬ Completes (coreAt .npc (Core.powerUp .npc) addressFirst 9).lsu
        (storeSeenAt .npc (Core.powerUp .npc) addressFirst 9) := by
  have hStuck : (coreAt .npc (Core.powerUp .npc) addressFirst 9).lsu.lsuState = .writeReq ∧
      (coreAt .npc (Core.powerUp .npc) addressFirst 9).lsu.aw.valid = false ∧
      (coreAt .npc (Core.powerUp .npc) addressFirst 9).lsu.w.valid = false := by decide +kernel
  exact ⟨Core.powerUp_afterReset .npc, by decide +kernel, hStuck, fun h => h.1 hStuck⟩

end Riscv32.Pipeline
