import Riscv32.Pipeline.Sequential

/-!
# An instruction in the load/store unit

`LsuPhase` says which instruction the unit holds, how far its bus transaction
has come, and which handshakes the port has made for it so far.  The lemmas
below move an instruction in, through its transaction, and out; each
handshake happens in exactly one of them.

The state machine leaves `LSU_WRITE_REQ` only when address and data are taken in
one cycle.  The phases do not assume that a slave does so: a store taken in two
halves stays in its phase, with the handshakes it has made.

## Main results

* `lsuPhase_take`, `lsuPhase_work`, `lsuPhase_leave` — the moves of the unit.
* `lsuPhase_finished` — a finished instruction has made exactly its own
  transaction, and its commit is what the sequential machine retires.
-/

namespace Riscv32.Pipeline

open Riscv32.Rtl

/-! ## Port logs -/

/-- The handshakes made on an AXI port, channel by channel, oldest first. -/
structure PortLog where
  ar : List Word := []
  r : List Word := []
  aw : List Word := []
  w : List (Word × BitVec 4) := []
  b : Nat := 0
deriving DecidableEq, Repr

namespace PortLog

instance : Append PortLog where
  append g h := ⟨g.ar ++ h.ar, g.r ++ h.r, g.aw ++ h.aw, g.w ++ h.w, g.b + h.b⟩

theorem append_def (g h : PortLog) :
    g ++ h = ⟨g.ar ++ h.ar, g.r ++ h.r, g.aw ++ h.aw, g.w ++ h.w, g.b + h.b⟩ := rfl

@[simp] theorem append_empty (g : PortLog) : g ++ ({} : PortLog) = g := by
  simp [append_def]

@[simp] theorem empty_append (g : PortLog) : ({} : PortLog) ++ g = g := by
  simp [append_def]

theorem append_assoc (f g h : PortLog) : f ++ g ++ h = f ++ (g ++ h) := by
  simp [append_def, List.append_assoc, Nat.add_assoc]

/-- The handshakes of one cycle. -/
def events (q : AxiReq) (p : AxiResp) : PortLog where
  ar := if arFire q p then [q.araddr] else []
  r := if rFire q p then [p.rdata] else []
  aw := if awFire q p then [q.awaddr] else []
  w := if wFire q p then [(q.wdata, q.wstrb)] else []
  b := if bFire q p then 1 else 0

end PortLog

/-- The complete transaction of an instruction: one read for a load, one write
for a store, nothing otherwise. -/
def Entry.transaction (e : Entry) (data : Word) : PortLog :=
  if e.d.isLoad then { ar := [e.d.aluResult], r := [data] }
  else if e.d.isStore then
    { aw := [e.d.aluResult]
      w := [(storeWdata e.d.storeSize e.d.aluResult e.d.storeData,
        storeWstrb e.d.storeSize e.d.aluResult)]
      b := 1 }
  else {}

/-! ## Phases -/

/-- No request is raised. -/
structure ChannelsLow (s : Lsu) : Prop where
  ar : s.ar.valid = false
  aw : s.aw.valid = false
  w : s.w.valid = false

/-- The latched registers are those of `e`. -/
def Latched (arch : Arch) (s : Lsu) (e : Entry) : Prop :=
  s.toLsuLatch = lsuLatchOf arch (e.d.execute e.csr)

/-- What the unit holds, and the handshakes made for it so far. -/
inductive LsuPhase (arch : Arch) (s : Lsu) : Option Entry → PortLog → Prop
  | empty (hState : s.lsuState = .idle) (hValid : s.outValid = false)
      (hLow : ChannelsLow s) : LsuPhase arch s none {}
  | passing (e : Entry) (hLatch : Latched arch s e) (hState : s.lsuState = .idle)
      (hValid : s.outValid = true) (hLow : ChannelsLow s)
      (hLoad : e.d.isLoad = false) (hStore : e.d.isStore = false)
      (hData : s.outWbData = e.d.wbData e.csr) : LsuPhase arch s (some e) {}
  | readAddr (e : Entry) (hLatch : Latched arch s e) (hState : s.lsuState = .readAddr)
      (hValid : s.outValid = false) (hLoad : e.d.isLoad = true)
      (hAr : s.ar = ⟨e.d.aluResult, true⟩) (hAw : s.aw.valid = false)
      (hW : s.w.valid = false) : LsuPhase arch s (some e) {}
  | waitR (e : Entry) (hLatch : Latched arch s e) (hState : s.lsuState = .waitR)
      (hValid : s.outValid = false) (hLow : ChannelsLow s) (hLoad : e.d.isLoad = true) :
      LsuPhase arch s (some e) { ar := [e.d.aluResult] }
  | loaded (e : Entry) (data : Word) (hLatch : Latched arch s e)
      (hState : s.lsuState = .done) (hValid : s.outValid = true) (hLow : ChannelsLow s)
      (hLoad : e.d.isLoad = true)
      (hData : s.outWbData = loadExtract e.d.loadSize e.d.aluResult data) :
      LsuPhase arch s (some e) { ar := [e.d.aluResult], r := [data] }
  | writeReq (e : Entry) (awLeft wLeft : Bool) (hLatch : Latched arch s e)
      (hState : s.lsuState = .writeReq) (hValid : s.outValid = false)
      (hLoad : e.d.isLoad = false) (hStore : e.d.isStore = true)
      (hAr : s.ar.valid = false) (hAw : s.aw = ⟨e.d.aluResult, awLeft⟩)
      (hW : s.w = ⟨storeWdata e.d.storeSize e.d.aluResult e.d.storeData,
        storeWstrb e.d.storeSize e.d.aluResult, wLeft⟩) :
      LsuPhase arch s (some e)
        { aw := if awLeft then [] else [e.d.aluResult]
          w := if wLeft then [] else
            [(storeWdata e.d.storeSize e.d.aluResult e.d.storeData,
              storeWstrb e.d.storeSize e.d.aluResult)] }
  | waitB (e : Entry) (hLatch : Latched arch s e) (hState : s.lsuState = .waitB)
      (hValid : s.outValid = false) (hLow : ChannelsLow s)
      (hLoad : e.d.isLoad = false) (hStore : e.d.isStore = true) :
      LsuPhase arch s (some e)
        { aw := [e.d.aluResult]
          w := [(storeWdata e.d.storeSize e.d.aluResult e.d.storeData,
            storeWstrb e.d.storeSize e.d.aluResult)] }
  | stored (e : Entry) (hLatch : Latched arch s e) (hState : s.lsuState = .done)
      (hValid : s.outValid = true) (hLow : ChannelsLow s)
      (hLoad : e.d.isLoad = false) (hStore : e.d.isStore = true) :
      LsuPhase arch s (some e)
        { aw := [e.d.aluResult]
          w := [(storeWdata e.d.storeSize e.d.aluResult e.d.storeData,
            storeWstrb e.d.storeSize e.d.aluResult)]
          b := 1 }

section Phase

variable {arch : Arch} {s : Lsu} {i : LsuIn} {e : Entry} {m : PortLog}

theorem lsuPhase_none_ready (h : LsuPhase arch s none m) : s.outReady = true := by
  cases h with
  | empty hState hValid _ => simp [Lsu.outReady, hState, hValid]

theorem lsuPhase_some_not_ready (h : LsuPhase arch s (some e) m) : s.outReady = false := by
  cases h <;> simp_all [Lsu.outReady]

theorem lsuPhase_none_invalid (h : LsuPhase arch s none m) : s.outValid = false := by
  cases h with
  | empty _ hValid _ => exact hValid

theorem lsuPhase_none_log (h : LsuPhase arch s none m) : m = {} := by
  cases h
  rfl

theorem lsuPhase_latched (h : LsuPhase arch s (some e) m) : Latched arch s e := by
  cases h <;> assumption

/-- A held instruction shows in one of the two windows of the interlock. -/
theorem lsuPhase_window (h : LsuPhase arch s (some e) m) :
    s.outValid = true ∨ s.outPendingValid = true := by
  cases h <;> simp_all [Lsu.outPendingValid]

/-- When nothing is held, or the held instruction is done, the port is quiet. -/
theorem events_quiet {oe : Option Entry} (h : LsuPhase arch s oe m)
    (hDone : oe = none ∨ s.outValid = true) (p : AxiResp) :
    PortLog.events s.axi p = {} := by
  cases h <;>
    simp_all [PortLog.events, arFire, rFire, awFire, wFire, bFire, Lsu.axi,
      (ChannelsLow.ar), ChannelsLow.aw, ChannelsLow.w]

/-- **A finished instruction** has made exactly its own transaction, and what
the commit port shows is what the sequential machine retires. -/
theorem lsuPhase_finished (h : LsuPhase arch s (some e) m) (hValid : s.outValid = true)
    (hWf : e.WellFormed) :
    ∃ data, m = e.transaction data ∧ retiredOf s.commit = e.retired data := by
  -- only the three phases with `out_valid` remain
  have hRetired : ∀ data, (e.d.rfWe = true → s.outWbData = e.result data) →
      retiredOf s.commit = e.retired data := by
    intro data hData
    have hLatch := lsuPhase_latched h
    simp only [Latched] at hLatch
    simp only [retiredOf, Lsu.commit, Entry.retired, Entry.npc, hLatch, lsuLatchOf,
      IduOut.execute]
    cases hWe : e.d.rfWe with
    | false => simp
    | true => rw [hData hWe]
  cases h with
  | passing _ _ _ _ _ hLoad hStore hData =>
      refine ⟨0, by simp [Entry.transaction, hLoad, hStore], hRetired 0 fun _ => ?_⟩
      simp [Entry.result, hLoad, hData]
  | loaded _ data _ _ _ _ hLoad hData =>
      refine ⟨data, by simp [Entry.transaction, hLoad], hRetired data fun _ => ?_⟩
      simp [Entry.result, hLoad, hData]
  | stored _ _ _ _ _ hLoad hStore =>
      refine ⟨0, by simp [Entry.transaction, hLoad, hStore], hRetired 0 fun hWe => ?_⟩
      rw [hWf.ctrl] at hStore hWe
      rw [rfWe_of_isStore hStore] at hWe
      cases hWe
  | _ => simp_all

/-! ## Moves -/

/-- An address channel that may be accepted. -/
theorem addrChan_next (c : AddrChan) (ready : Bool) :
    (if (c.valid && ready) = true then { c with valid := false } else c) =
      ⟨c.addr, c.valid && !ready⟩ := by
  obtain ⟨addr, valid⟩ := c
  cases valid <;> cases ready <;> rfl

theorem dataChan_next (c : DataChan) (ready : Bool) :
    (if (c.valid && ready) = true then { c with valid := false } else c) =
      ⟨c.data, c.strb, c.valid && !ready⟩ := by
  obtain ⟨data, strb, valid⟩ := c
  cases valid <;> cases ready <;> rfl

/-- Without a new load the address of the old one stays up until it is taken. -/
theorem ar_step (arch : Arch) (h : s.loadFire i = false) :
    (s.step arch i).ar = ⟨s.ar.addr, s.ar.valid && !i.axi.arready⟩ :=
  (if_neg (Bool.eq_false_iff.1 h)).trans (addrChan_next s.ar i.axi.arready)

theorem aw_step (arch : Arch) (h : s.storeFire i = false) :
    (s.step arch i).aw = ⟨s.aw.addr, s.aw.valid && !i.axi.awready⟩ :=
  (if_neg (Bool.eq_false_iff.1 h)).trans (addrChan_next s.aw i.axi.awready)

theorem w_step (arch : Arch) (h : s.storeFire i = false) :
    (s.step arch i).w = ⟨s.w.data, s.w.strb, s.w.valid && !i.axi.wready⟩ :=
  (if_neg (Bool.eq_false_iff.1 h)).trans (dataChan_next s.w i.axi.wready)

/-- A unit with an instruction takes no other; only the transaction moves, and
`out_valid` comes with the response and goes with the commit. -/
private theorem step_not_ready (arch : Arch) (i : LsuIn) (h : s.outReady = false) :
    (s.step arch i).toLsuLatch = s.toLsuLatch ∧
      (s.step arch i).outValid =
        (i.axi.rvalid && s.lsuState == .waitR || i.axi.bvalid && s.lsuState == .waitB ||
          s.outValid && !i.inReady) ∧
      (s.step arch i).ar = ⟨s.ar.addr, s.ar.valid && !i.axi.arready⟩ ∧
      (s.step arch i).aw = ⟨s.aw.addr, s.aw.valid && !i.axi.awready⟩ ∧
      (s.step arch i).w = ⟨s.w.data, s.w.strb, s.w.valid && !i.axi.wready⟩ := by
  have hLoad : s.loadFire i = false := by simp [Lsu.loadFire, h]
  have hStore : s.storeFire i = false := by simp [Lsu.storeFire, h]
  refine ⟨?_, ?_, ar_step arch hLoad, aw_step arch hStore, w_step arch hStore⟩
  · simp [Lsu.step, Lsu.latchNext, Lsu.inFire, h]
  · have hPass : s.passFire i = false := by simp [Lsu.passFire, Lsu.inFire, h]
    change s.outValidNext i =
      (rFire s.axi i.axi || bFire s.axi i.axi || s.outValid && !i.inReady)
    cases hValid : s.outValid <;> cases hReady : i.inReady <;>
      simp [Lsu.outValidNext, Lsu.outFire, hPass, hValid, hReady]

/-- The state machine over the unit's own registers. -/
private theorem lsuState_step (arch : Arch) (s : Lsu) (i : LsuIn) :
    (s.step arch i).lsuState = match s.lsuState with
      | .idle =>
          if i.inValid && s.outReady && i.inst.isLoad then .readAddr
          else if i.inValid && s.outReady && i.inst.isStore then .writeReq
          else .idle
      | .readAddr => if s.ar.valid && i.axi.arready then .waitR else .readAddr
      | .waitR => if i.axi.rvalid && s.lsuState == .waitR then .done else .waitR
      | .writeReq =>
          if (s.aw.valid && i.axi.awready) && (s.w.valid && i.axi.wready) then .waitB
          else .writeReq
      | .waitB => if i.axi.bvalid && s.lsuState == .waitB then .done else .waitB
      | .done => if s.outValid && i.inReady then .idle else .done := rfl

/-- The handshakes over the unit's own registers. -/
private theorem events_axi (s : Lsu) (p : AxiResp) : PortLog.events s.axi p =
    { ar := if s.ar.valid && p.arready then [s.ar.addr] else []
      r := if p.rvalid && s.lsuState == .waitR then [p.rdata] else []
      aw := if s.aw.valid && p.awready then [s.aw.addr] else []
      w := if s.w.valid && p.wready then [(s.w.data, s.w.strb)] else []
      b := if p.bvalid && s.lsuState == .waitB then 1 else 0 } := rfl

/-- An empty unit that is offered nothing stays empty. -/
theorem lsuPhase_idle (h : LsuPhase arch s none m) (hNone : i.inValid = false) :
    LsuPhase arch (s.step arch i) none {} := by
  cases h with
  | empty hState hValid hLow =>
      refine .empty ?_ ?_ ⟨?_, ?_, ?_⟩ <;>
        simp [Lsu.step, Lsu.stateNext, Lsu.outValidNext, Lsu.arNext, Lsu.awNext, Lsu.wNext,
          Lsu.loadFire, Lsu.storeFire, Lsu.passFire, Lsu.inFire, Lsu.outFire, arFire, rFire,
          awFire, wFire, bFire, Lsu.axi, hState, hValid, hNone, hLow.ar, hLow.aw, hLow.w]

/-- An empty unit takes the instruction it is offered. -/
theorem lsuPhase_take (h : LsuPhase arch s none m) (hSome : i.inValid = true)
    (hInst : i.inst = e.d.execute e.csr) (hWf : e.WellFormed) :
    LsuPhase arch (s.step arch i) (some e) {} := by
  cases h with
  | empty hState hValid hLow =>
      have hFire : s.inFire i = true := by
        simp [Lsu.inFire, hSome, Lsu.outReady, hState, hValid]
      have hLatch : Latched arch (s.step arch i) e := by
        simp [Latched, Lsu.step, Lsu.latchNext, hFire, hInst]
      cases hLoad : e.d.isLoad with
      | true =>
          have hStore : e.d.isStore = false := by
            rw [hWf.ctrl] at hLoad ⊢
            exact isStore_of_isLoad hLoad
          refine .readAddr e hLatch ?_ ?_ hLoad ?_ ?_ ?_ <;>
            simp [Lsu.step, Lsu.stateNext, Lsu.outValidNext, Lsu.arNext, Lsu.awNext,
              Lsu.wNext, Lsu.loadFire, Lsu.storeFire, Lsu.passFire, Lsu.outFire,
              Lsu.outReady, rFire, awFire, wFire, bFire, Lsu.axi, hState, hValid, hSome,
              hLoad, hStore, hLow.aw, hLow.w, hInst, IduOut.execute]
      | false =>
          cases hStore : e.d.isStore with
          | true =>
              have h := @LsuPhase.writeReq arch (s.step arch i) e true true hLatch
              refine h ?_ ?_ hLoad hStore ?_ ?_ ?_ <;>
                simp [Lsu.step, Lsu.stateNext, Lsu.outValidNext, Lsu.arNext, Lsu.awNext,
                  Lsu.wNext, Lsu.loadFire, Lsu.storeFire, Lsu.passFire, Lsu.outFire,
                  Lsu.outReady, rFire, arFire, bFire, Lsu.axi, hState, hValid, hSome,
                  hLoad, hStore, hLow.ar, hInst, IduOut.execute]
          | false =>
              refine .passing e hLatch ?_ ?_ ⟨?_, ?_, ?_⟩ hLoad hStore ?_ <;>
                simp [Lsu.step, Lsu.stateNext, Lsu.outValidNext, Lsu.arNext, Lsu.awNext,
                  Lsu.wNext, Lsu.wbDataNext, Lsu.loadFire, Lsu.storeFire, Lsu.passFire,
                  Lsu.inFire, Lsu.outReady, arFire, rFire, awFire, wFire, bFire,
                  Lsu.axi, hState, hValid, hSome, hLoad, hStore, hLow.ar, hLow.aw,
                  hLow.w, hInst, IduOut.execute]

/-- A finished instruction leaves; the commit port is always ready. -/
theorem lsuPhase_leave (h : LsuPhase arch s (some e) m) (hValid : s.outValid = true)
    (hReady : i.inReady = true) : LsuPhase arch (s.step arch i) none {} := by
  have hNotReady := lsuPhase_some_not_ready h
  obtain ⟨-, hValid', hAr', hAw', hW'⟩ := step_not_ready arch i hNotReady
  cases h with
  | passing _ _ hState _ hLow _ _ _ =>
      refine .empty ?_ ?_ ⟨?_, ?_, ?_⟩ <;>
        simp [lsuState_step, hValid', hAr', hAw', hW', hNotReady, hState, hValid, hReady,
          hLow.ar, hLow.aw, hLow.w]
  | loaded _ data _ hState _ hLow _ _ =>
      refine .empty ?_ ?_ ⟨?_, ?_, ?_⟩ <;>
        simp [lsuState_step, hValid', hAr', hAw', hW', hState, hValid, hReady, hLow.ar, hLow.aw,
          hLow.w]
  | stored _ _ hState _ hLow _ _ =>
      refine .empty ?_ ?_ ⟨?_, ?_, ?_⟩ <;>
        simp [lsuState_step, hValid', hAr', hAw', hW', hState, hValid, hReady, hLow.ar, hLow.aw,
          hLow.w]
  | _ => simp_all

/-! One cycle of each unfinished phase.  The unit is not ready, so only the
transaction itself moves. -/

private theorem step_working (i : LsuIn) (hLatch : Latched arch s e) (hState : s.lsuState ≠ .idle) :
    s.outReady = false ∧ Latched arch (s.step arch i) e ∧
      (s.step arch i).outValid =
        (i.axi.rvalid && s.lsuState == .waitR || i.axi.bvalid && s.lsuState == .waitB ||
          s.outValid && !i.inReady) ∧
      (s.step arch i).ar = ⟨s.ar.addr, s.ar.valid && !i.axi.arready⟩ ∧
      (s.step arch i).aw = ⟨s.aw.addr, s.aw.valid && !i.axi.awready⟩ ∧
      (s.step arch i).w = ⟨s.w.data, s.w.strb, s.w.valid && !i.axi.wready⟩ := by
  have hNotReady : s.outReady = false := by simp [Lsu.outReady, hState]
  obtain ⟨hKeep, hMove⟩ := step_not_ready arch i hNotReady
  refine ⟨hNotReady, ?_, hMove⟩
  rw [Latched, hKeep]
  exact hLatch

private theorem work_readAddr (hLatch : Latched arch s e) (hState : s.lsuState = .readAddr)
    (hValid : s.outValid = false) (hLoad : e.d.isLoad = true)
    (hAr : s.ar = ⟨e.d.aluResult, true⟩) (hAw : s.aw.valid = false)
    (hW : s.w.valid = false) :
    LsuPhase arch (s.step arch i) (some e) (PortLog.events s.axi i.axi) := by
  obtain ⟨-, hLatch', hValid', hAr', hAw', hW'⟩ := step_working i hLatch (by simp [hState])
  cases hGo : i.axi.arready with
  | true =>
      have hLog : PortLog.events s.axi i.axi = { ar := [e.d.aluResult] } := by
        simp [events_axi, hState, hAr, hAw, hW, hGo]
      rw [hLog]
      refine .waitR e hLatch' ?_ ?_ ⟨?_, ?_, ?_⟩ hLoad <;>
        simp [lsuState_step, hValid', hAr', hAw', hW', hState, hValid, hAr, hAw, hW, hGo]
  | false =>
      have hLog : PortLog.events s.axi i.axi = {} := by
        simp [events_axi, hState, hAr, hAw, hW, hGo]
      rw [hLog]
      refine .readAddr e hLatch' ?_ ?_ hLoad ?_ ?_ ?_ <;>
        simp [lsuState_step, hValid', hAr', hAw', hW', hState, hValid, hAr, hAw, hW, hGo]

private theorem work_waitR (hLatch : Latched arch s e) (hState : s.lsuState = .waitR)
    (hValid : s.outValid = false) (hLow : ChannelsLow s) (hLoad : e.d.isLoad = true) :
    LsuPhase arch (s.step arch i) (some e)
      ({ ar := [e.d.aluResult] } ++ PortLog.events s.axi i.axi) := by
  obtain ⟨hNotReady, hLatch', hValid', hAr', hAw', hW'⟩ := step_working i hLatch (by simp [hState])
  cases hGo : i.axi.rvalid with
  | true =>
      have hLog : ({ ar := [e.d.aluResult] } : PortLog) ++ PortLog.events s.axi i.axi =
          { ar := [e.d.aluResult], r := [i.axi.rdata] } := by
        simp [PortLog.append_def, events_axi, hState, hLow.ar, hLow.aw, hLow.w, hGo]
      have hSize : s.loadSize = e.d.loadSize ∧ s.memAddr = e.d.aluResult := by
        rw [Latched] at hLatch
        rw [hLatch]
        exact ⟨rfl, rfl⟩
      have hData : (s.step arch i).outWbData =
          loadExtract e.d.loadSize e.d.aluResult i.axi.rdata := by
        simp [Lsu.step, Lsu.wbDataNext, Lsu.passFire, Lsu.inFire, hNotReady, rFire, Lsu.axi, hState,
          hGo, hSize.1, hSize.2]
      rw [hLog]
      refine .loaded e i.axi.rdata hLatch' ?_ ?_ ⟨?_, ?_, ?_⟩ hLoad ?_ <;>
        simp [lsuState_step, hValid', hAr', hAw', hW', hData, hState, hLow.ar, hLow.aw, hLow.w, hGo]
  | false =>
      have hLog : ({ ar := [e.d.aluResult] } : PortLog) ++ PortLog.events s.axi i.axi =
          { ar := [e.d.aluResult] } := by
        simp [PortLog.append_def, events_axi, hState, hLow.ar, hLow.aw, hLow.w, hGo]
      rw [hLog]
      refine .waitR e hLatch' ?_ ?_ ⟨?_, ?_, ?_⟩ hLoad <;>
        simp [lsuState_step, hValid', hAr', hAw', hW', hState, hValid, hLow.ar, hLow.aw, hLow.w,
          hGo]

/-- The state machine leaves `LSU_WRITE_REQ` only when both channels are
accepted in one cycle; accepted one by one, they leave it waiting. -/
private theorem work_writeReq {awLeft wLeft : Bool} (hLatch : Latched arch s e)
    (hState : s.lsuState = .writeReq) (hValid : s.outValid = false)
    (hLoad : e.d.isLoad = false) (hStore : e.d.isStore = true) (hAr : s.ar.valid = false)
    (hAw : s.aw = ⟨e.d.aluResult, awLeft⟩)
    (hW : s.w = ⟨storeWdata e.d.storeSize e.d.aluResult e.d.storeData,
      storeWstrb e.d.storeSize e.d.aluResult, wLeft⟩) :
    LsuPhase arch (s.step arch i) (some e)
      ({ aw := if awLeft then [] else [e.d.aluResult]
         w := if wLeft then [] else
           [(storeWdata e.d.storeSize e.d.aluResult e.d.storeData,
             storeWstrb e.d.storeSize e.d.aluResult)] } ++
        PortLog.events s.axi i.axi) := by
  obtain ⟨-, hLatch', hValid', hAr', hAw', hW'⟩ := step_working i hLatch (by simp [hState])
  by_cases hBoth : (awLeft && i.axi.awready) = true ∧ (wLeft && i.axi.wready) = true
  · obtain ⟨h1, h2⟩ := hBoth
    simp only [Bool.and_eq_true] at h1 h2
    obtain ⟨rfl, hAwGo⟩ := h1
    obtain ⟨rfl, hWGo⟩ := h2
    have hLog : ({ aw := if true then [] else [e.d.aluResult]
                   w := if true then [] else
                     [(storeWdata e.d.storeSize e.d.aluResult e.d.storeData,
                       storeWstrb e.d.storeSize e.d.aluResult)] } : PortLog) ++
          PortLog.events s.axi i.axi =
        { aw := [e.d.aluResult]
          w := [(storeWdata e.d.storeSize e.d.aluResult e.d.storeData,
            storeWstrb e.d.storeSize e.d.aluResult)] } := by
      simp [PortLog.append_def, events_axi, hState, hAr, hAw, hW, hAwGo, hWGo]
    rw [hLog]
    refine .waitB e hLatch' ?_ ?_ ⟨?_, ?_, ?_⟩ hLoad hStore <;>
      simp [lsuState_step, hValid', hAr', hAw', hW', hState, hValid, hAr, hAw, hW, hAwGo, hWGo]
  · have hLog : ({ aw := if awLeft then [] else [e.d.aluResult]
                   w := if wLeft then [] else
                     [(storeWdata e.d.storeSize e.d.aluResult e.d.storeData,
                       storeWstrb e.d.storeSize e.d.aluResult)] } : PortLog) ++
          PortLog.events s.axi i.axi =
        { aw := if awLeft && !i.axi.awready then [] else [e.d.aluResult]
          w := if wLeft && !i.axi.wready then [] else
            [(storeWdata e.d.storeSize e.d.aluResult e.d.storeData,
              storeWstrb e.d.storeSize e.d.aluResult)] } := by
      cases awLeft <;> cases wLeft <;> cases hAwGo : i.axi.awready <;>
        cases hWGo : i.axi.wready <;>
        simp [PortLog.append_def, events_axi, hState, hAr, hAw, hW, hAwGo, hWGo]
    rw [hLog]
    refine .writeReq e _ _ hLatch' ?_ ?_ hLoad hStore ?_ ?_ ?_ <;>
      cases awLeft <;> cases wLeft <;> cases hAwGo : i.axi.awready <;>
      cases hWGo : i.axi.wready <;>
      simp [lsuState_step, hValid', hAr', hAw', hW', hState, hValid, hAr, hAw, hW, hAwGo,
        hWGo] at hBoth ⊢

private theorem work_waitB (hLatch : Latched arch s e) (hState : s.lsuState = .waitB)
    (hValid : s.outValid = false) (hLow : ChannelsLow s)
    (hLoad : e.d.isLoad = false) (hStore : e.d.isStore = true) {w : List (Word × BitVec 4)}
    (hw : w = [(storeWdata e.d.storeSize e.d.aluResult e.d.storeData,
      storeWstrb e.d.storeSize e.d.aluResult)]) :
    LsuPhase arch (s.step arch i) (some e)
      ({ aw := [e.d.aluResult], w := w } ++ PortLog.events s.axi i.axi) := by
  obtain ⟨-, hLatch', hValid', hAr', hAw', hW'⟩ := step_working i hLatch (by simp [hState])
  cases hGo : i.axi.bvalid with
  | true =>
      have hLog : ({ aw := [e.d.aluResult], w := w } : PortLog) ++
          PortLog.events s.axi i.axi = { aw := [e.d.aluResult], w := w, b := 1 } := by
        simp [PortLog.append_def, events_axi, hState, hLow.ar, hLow.aw, hLow.w, hGo]
      rw [hLog, hw]
      refine .stored e hLatch' ?_ ?_ ⟨?_, ?_, ?_⟩ hLoad hStore <;>
        simp [lsuState_step, hValid', hAr', hAw', hW', hState, hLow.ar, hLow.aw, hLow.w, hGo]
  | false =>
      have hLog : ({ aw := [e.d.aluResult], w := w } : PortLog) ++
          PortLog.events s.axi i.axi = { aw := [e.d.aluResult], w := w } := by
        simp [PortLog.append_def, events_axi, hState, hLow.ar, hLow.aw, hLow.w, hGo]
      rw [hLog, hw]
      refine .waitB e hLatch' ?_ ?_ ⟨?_, ?_, ?_⟩ hLoad hStore <;>
        simp [lsuState_step, hValid', hAr', hAw', hW', hState, hValid, hLow.ar, hLow.aw, hLow.w,
          hGo]

/-- An unfinished instruction keeps working; every handshake of the port is
logged for it. -/
theorem lsuPhase_work (h : LsuPhase arch s (some e) m) (hBusy : s.outValid = false) :
    LsuPhase arch (s.step arch i) (some e) (m ++ PortLog.events s.axi i.axi) := by
  cases h with
  | passing _ _ _ hValid => simp [hBusy] at hValid
  | loaded _ _ _ _ hValid => simp [hBusy] at hValid
  | stored _ _ _ hValid => simp [hBusy] at hValid
  | readAddr _ hLatch hState hValid hLoad hAr hAw hW =>
      rw [PortLog.empty_append]
      exact work_readAddr hLatch hState hValid hLoad hAr hAw hW
  | waitR _ hLatch hState hValid hLow hLoad =>
      exact work_waitR hLatch hState hValid hLow hLoad
  | writeReq _ awLeft wLeft hLatch hState hValid hLoad hStore hAr hAw hW =>
      exact work_writeReq hLatch hState hValid hLoad hStore hAr hAw hW
  | waitB _ hLatch hState hValid hLow hLoad hStore =>
      exact work_waitB hLatch hState hValid hLow hLoad hStore rfl

end Phase

end Riscv32.Pipeline
