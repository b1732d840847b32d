import Riscv32.Fabric.Reads

/-!
# Read routing

What the bookkeeping of `Fabric.Reads` says on the ports: every beat goes, in
its cycle, from the slave that was asked to the master that asked, no read is
accepted before the one before it is complete, and no request is dropped or
repeated.  Fetches are not aimed at the timer.

`Routed` is the statement for one cycle, `reads_routed` its proof for every cycle
of every run.  `Kept` is the part about requests: until its handshake a request
stays as it is, and after it, it is gone; that is what "no request is dropped or
repeated" means on a bus.
-/

namespace Riscv32.Fabric

open Riscv32.Rtl
open Riscv32.Cache
open Riscv32.Clocked

/-- No accepted refill is aimed at the timer. -/
def NoClintFetch (s : Fabric) (inp : Nat → FabricIn) : Prop :=
  ∀ t r, readAr s inp t = some r → r.master = .ifu → inClint r.addr = false

/-! ## Routing -/

/-- A beat with this data reaches the master and not the other one. -/
def Delivered (s : Fabric) (i : FabricIn) (master : Owner) (data : Word) : Prop :=
  match master with
  | .lsu =>
      rFire s.lsu.axi (s.lsuResp i) = true ∧ (s.lsuResp i).rdata = data ∧
        (s.icacheResp i).rvalid = false
  | .ifu =>
      rFire s.icache.axiOut (s.icacheResp i) = true ∧ (s.icacheResp i).rdata = data ∧
        (s.lsuResp i).rvalid = false
  | .idle => False

/-- The handshake behind an accepted read: its master's and its slave's, with
the same payload, and nobody else's. -/
structure Handshake (s : Fabric) (i : FabricIn) (r : ReadReq) : Prop where
  lsu : arFire s.lsu.axi (s.lsuResp i) = true ↔ r.master = .lsu
  icache : arFire s.icache.axiOut (s.icacheResp i) = true ↔ r.master = .ifu
  soc : arFire s.socReq i.soc = true ↔ r.slave = .soc
  clint : arFire s.clintReq i.clint = true ↔ r.slave = .clint
  lsuPayload : r.master = .lsu → r.addr = s.lsu.axi.araddr ∧ r.len = s.lsu.axi.arlen
  icachePayload : r.master = .ifu → r.addr = s.icache.axiOut.araddr ∧ r.len = s.icache.axiOut.arlen
  socPayload : r.slave = .soc → s.socReq.araddr = r.addr ∧ s.socReq.arlen = r.len
  clintPayload : r.slave = .clint → s.clintReq.araddr = r.addr - clintBase .ysyxsoc

/-- Until its handshake a request stays as it is; after it, it is gone. -/
structure Kept (q : AxiReq) (p : AxiResp) (q' : AxiReq) : Prop where
  pending : q.arvalid = true → arFire q p = false →
    q'.arvalid = true ∧ q'.araddr = q.araddr ∧ q'.arlen = q.arlen ∧ q'.arsize = q.arsize ∧
      q'.arburst = q.arburst
  done : arFire q p = true → q'.arvalid = false

/-- What read routing guarantees in cycle `t`. -/
structure Routed (s : Fabric) (inp : Nat → FabricIn) (t : Nat) : Prop where
  /-- Grant and owner are never both in use. -/
  exclusive : (fabricAt s inp t).arb.readGrant = .idle ∨ (fabricAt s inp t).arb.readOwner = .idle
  /-- A slave is selected exactly while a master owns the bus. -/
  selected : (fabricAt s inp t).xbar.readSlave ≠ .idle ↔ (fabricAt s inp t).arb.readOwner ≠ .idle
  /-- An owned bus has one outstanding read, the last one accepted; its master
  has the beats its slave gave. -/
  outstanding : (fabricAt s inp t).arb.readOwner ≠ .idle →
    ∃ a r, LastRead s inp a r t ∧ r.master = (fabricAt s inp t).arb.readOwner ∧
      r.slave = (fabricAt s inp t).xbar.readSlave ∧ beatsOf s inp a r t ≤ r.len.toNat ∧
      logFrom (masterBeat s inp r.master) (a + 1) t = logFrom (slaveBeat s inp r.slave) (a + 1) t
  /-- A read is accepted only when nobody owns the bus and all beats of the
  read before it have been delivered. -/
  single : (readAr s inp t).isSome = true →
    (fabricAt s inp t).arb.readOwner = .idle ∧
      ∀ a r, LastRead s inp a r t → beatsOf s inp a r t = r.len.toNat + 1
  /-- A beat taken from a slave goes to the master of the last accepted read. -/
  delivered : ∀ slave data, slaveBeat s inp slave t = some data →
    ∃ a r, LastRead s inp a r t ∧ r.slave = slave ∧
      Delivered (fabricAt s inp t) (inp t) r.master data
  /-- A beat taken by a master comes from the selected slave. -/
  taken : (rFire (fabricAt s inp t).lsu.axi ((fabricAt s inp t).lsuResp (inp t)) = true ∨
      rFire (fabricAt s inp t).icache.axiOut ((fabricAt s inp t).icacheResp (inp t)) = true) →
    (slaveBeat s inp (fabricAt s inp t).xbar.readSlave t).isSome = true
  /-- Every accepted read is one handshake of one master with one slave. -/
  accepted : ∀ r, readAr s inp t = some r → Handshake (fabricAt s inp t) (inp t) r
  /-- Without an accepted read there is no read handshake anywhere. -/
  quiet : readAr s inp t = none →
    arFire (fabricAt s inp t).lsu.axi ((fabricAt s inp t).lsuResp (inp t)) = false ∧
      arFire (fabricAt s inp t).icache.axiOut ((fabricAt s inp t).icacheResp (inp t)) = false ∧
      arFire (fabricAt s inp t).socReq (inp t).soc = false ∧
      arFire (fabricAt s inp t).clintReq (inp t).clint = false
  /-- The load/store unit's request is neither dropped nor repeated. -/
  lsuKept : Kept (fabricAt s inp t).lsu.axi ((fabricAt s inp t).lsuResp (inp t))
    (fabricAt s inp (t + 1)).lsu.axi
  /-- Nor is the cache's. -/
  icacheKept : Kept (fabricAt s inp t).icache.axiOut ((fabricAt s inp t).icacheResp (inp t))
    (fabricAt s inp (t + 1)).icache.axiOut

section Main

variable {s : Fabric} {inp : Nat → FabricIn} {t : Nat} {i : FabricIn}

theorem lsu_kept (h : BusInv s) : Kept s.lsu.axi (s.lsuResp i) (s.step i).lsu.axi := by
  have hAsks := h.lsuAsks
  have hNoLoad : s.lsu.ar.valid = true → s.lsu.loadFire (s.lsuIn i) = false := by
    intro hValid
    rw [hValid] at hAsks
    have hState : s.lsu.lsuState = .readAddr := by simpa using hAsks.symm
    simp [Lsu.loadFire, hState]
  have hAr : (s.step i).lsu.ar =
      if s.lsu.loadFire (s.lsuIn i) then ⟨i.lsuInst.memAddr, true⟩
      else if arFire s.lsu.axi (s.lsuResp i) then { s.lsu.ar with valid := false }
      else s.lsu.ar := rfl
  constructor
  · intro hValid hFire
    have hReg : s.lsu.ar.valid = true := hValid
    have hSame : (s.step i).lsu.ar = s.lsu.ar := by
      rw [hAr, hNoLoad hReg, hFire]
      rfl
    simp [Lsu.axi, hSame, hReg]
  · intro hFire
    have hReg : s.lsu.ar.valid = true := by
      simp only [arFire, Bool.and_eq_true] at hFire
      exact hFire.1
    have hOff : (s.step i).lsu.ar = { s.lsu.ar with valid := false } := by
      rw [hAr, hNoLoad hReg, hFire]
      rfl
    simp [Lsu.axi, hOff]

theorem icache_kept (h : Link s.frontend) :
    Kept s.icache.axiOut (s.icacheResp i) (s.step i).icache.axiOut := by
  have hStep : (s.step i).icache =
      s.icache.step s.frontend.flush (s.frontend.ifuAxi (s.frontendIn i)) (s.icacheResp i) := rfl
  have hSending : s.icache.arvalid = true →
      s.frontend.flush = false ∧ s.icache.state = .sendAr := by
    intro hValid
    have hState : s.icache.state = .sendAr := by
      rw [show s.icache.arvalid = _ from h.arvalid] at hValid
      exact beq_iff_eq.mp hValid
    exact ⟨h.no_flush (show s.icache.state ≠ .idle by simp [hState]), hState⟩
  constructor
  · intro hValid hFire
    obtain ⟨hFlush, hState⟩ := hSending hValid
    have hSame : (s.step i).icache = s.icache := by
      rw [hStep]
      simp [Icache.step, hFlush, hState, hFire]
    rw [hSame]
    exact ⟨hValid, rfl, rfl, rfl, rfl⟩
  · intro hFire
    have hValid : s.icache.arvalid = true := by
      simp only [arFire, Bool.and_eq_true] at hFire
      exact hFire.1
    obtain ⟨hFlush, hState⟩ := hSending hValid
    have hSent : (s.step i).icache = s.icache.sent := by
      rw [hStep]
      simp [Icache.step, hFlush, hState, hFire]
    rw [hSent]
    rfl

theorem handshake_of_readAr {r : ReadReq} (hAr : readAr s inp t = some r) :
    Handshake (fabricAt s inp t) (inp t) r := by
  have hFire : arbAr (fabricAt s inp t) (inp t) = true := by
    cases hFire : arbAr (fabricAt s inp t) (inp t) with
    | true => rfl
    | false => simp [readAr, hFire] at hAr
  rw [readAr, if_pos hFire] at hAr
  cases hAr
  constructor
  · rw [lsuAr_eq, hFire]
    simp
  · rw [icacheAr_eq, hFire]
    simp
  · rw [socAr_eq, hFire]
    cases inClint (fabricAt s inp t).arbReq.araddr <;> simp
  · rw [clintAr_eq, hFire]
    cases inClint (fabricAt s inp t).arbReq.araddr <;> simp
  · intro hLsu
    have hGrant : (fabricAt s inp t).arb.readGrant = .lsu := hLsu
    simp [Fabric.arbReq, Arbiter.axiArb, Arbiter.granted, hGrant]
  · intro hIfu
    have hGrant : (fabricAt s inp t).arb.readGrant = .ifu := hIfu
    simp [Fabric.arbReq, Arbiter.axiArb, Arbiter.granted, hGrant]
  · intro hSoc
    cases hIn : inClint (fabricAt s inp t).arbReq.araddr with
    | true => simp [hIn] at hSoc
    | false => simp [Fabric.socReq, SocXbar.axiSoc, hIn]
  · intro hClint
    cases hIn : inClint (fabricAt s inp t).arbReq.araddr with
    | true => simp [Fabric.clintReq, SocXbar.axiClint, hIn]
    | false => simp [hIn] at hClint

/-- A beat of the bus reaches the owner. -/
private theorem delivered_to_owner {s : Fabric} {i : FabricIn} (hFire : arbR s i = true) :
    Delivered s i s.arb.readOwner (s.arbResp i).rdata := by
  have hOwner := arbR_owned hFire
  have hLsu := lsuR_eq s i
  have hIfu := icacheR_eq s i
  cases hO : s.arb.readOwner with
  | idle => exact absurd hO hOwner
  | lsu =>
      refine ⟨?_, ?_, ?_⟩
      · rw [hLsu, hFire, hO]
        rfl
      · simp [Fabric.lsuResp, Arbiter.axiLsu, hO]
      · simp [Fabric.icacheResp, Arbiter.axiIfu, hO]
  | ifu =>
      refine ⟨?_, ?_, ?_⟩
      · rw [hIfu, hFire, hO]
        rfl
      · simp [Fabric.icacheResp, Arbiter.axiIfu, hO]
      · simp [Fabric.lsuResp, Arbiter.axiLsu, hO]

/-- Without fetches from the timer the asked slave stays selected. -/
theorem Outstanding.selected_of_noClintFetch {a : Nat} {r : ReadReq} (h : Outstanding s inp t a r)
    (hFetch : NoClintFetch s inp) : r.slave = (fabricAt s inp t).xbar.readSlave := by
  rcases h.slave with hSlave | ⟨hIfu, hClint, -⟩
  · exact hSlave
  · rw [slave_of_readAr h.ar, hFetch a r h.ar hIfu] at hClint
    cases hClint

private theorem delivered_of_beat (h : RouteInv s inp t) (hFetch : NoClintFetch s inp)
    {slave : SlaveOwner} {data : Word} (hBeat : slaveBeat s inp slave t = some data) :
    ∃ a r, LastRead s inp a r t ∧ r.slave = slave ∧
      Delivered (fabricAt s inp t) (inp t) r.master data := by
  have hOwner : (fabricAt s inp t).arb.readOwner ≠ .idle := by
    intro hIdle
    rw [slaveBeat_free slave hIdle] at hBeat
    cases hBeat
  obtain ⟨a, r, hOut⟩ := h.owned hOwner
  have hSlaveX := hOut.selected_of_noClintFetch hFetch
  have hSel : (fabricAt s inp t).xbar.readSlave ≠ .idle := hSlaveX ▸ slave_ne_idle hOut.ar
  have hSlave : r.slave = slave := by
    rw [hSlaveX]
    cases slave with
    | idle => cases hBeat
    | soc =>
        by_contra hNot
        simp [slaveBeat, socBeat, socR_eq (.inl hSel), hNot] at hBeat
    | clint =>
        by_contra hNot
        simp [slaveBeat, clintBeat, clintR_eq, hNot] at hBeat
  have hFire : arbR (fabricAt s inp t) (inp t) = true := by
    cases hFire : arbR (fabricAt s inp t) (inp t) with
    | true => rfl
    | false =>
        rw [← hSlave, slaveBeat_none hOut hFire] at hBeat
        cases hBeat
  have hData := slaveBeat_some hOut hFire
  rw [hSlave, hBeat] at hData
  refine ⟨a, r, hOut.toLastRead, hSlave, ?_⟩
  rw [hOut.master, Option.some.inj hData]
  exact delivered_to_owner hFire

private theorem taken_from_selected (h : RouteInv s inp t)
    (hTaken : rFire (fabricAt s inp t).lsu.axi ((fabricAt s inp t).lsuResp (inp t)) = true ∨
      rFire (fabricAt s inp t).icache.axiOut ((fabricAt s inp t).icacheResp (inp t)) = true) :
    (slaveBeat s inp (fabricAt s inp t).xbar.readSlave t).isSome = true := by
  rw [lsuR_eq, icacheR_eq, Bool.and_eq_true, Bool.and_eq_true] at hTaken
  have hFire : arbR (fabricAt s inp t) (inp t) = true := hTaken.elim And.right And.right
  obtain ⟨a, r, hOut⟩ := h.owned (arbR_owned hFire)
  rw [← hOut.selected hFire, slaveBeat_some hOut hFire]
  rfl

/-- **Read routing.**  For every interleaving of loads and refills and every
slave latency, in every cycle. -/
theorem reads_routed (hReset : s.AfterReset) (hSoc : SocBursts s inp)
    (hFetch : NoClintFetch s inp) (t : Nat) : Routed s inp t := by
  have h : RouteInv s inp t := routeInv hReset hSoc t
  refine ⟨h.bus.exclusive, ?_, ?_, ?_, fun slave data => delivered_of_beat h hFetch,
    taken_from_selected h, fun r => handshake_of_readAr, ?_, lsu_kept h.bus, icache_kept h.bus.link⟩
  · constructor
    · exact fun hSel hOwner => hSel (h.free hOwner)
    · intro hOwner
      obtain ⟨a, r, hOut⟩ := h.owned hOwner
      exact hOut.selected_of_noClintFetch hFetch ▸ slave_ne_idle hOut.ar
  · intro hOwner
    obtain ⟨a, r, hOut⟩ := h.owned hOwner
    exact ⟨a, r, hOut.toLastRead, hOut.master, hOut.selected_of_noClintFetch hFetch, hOut.beats,
      hOut.log⟩
  · intro hSome
    have hFire : arbAr (fabricAt s inp t) (inp t) = true := by
      cases hFire : arbAr (fabricAt s inp t) (inp t) with
      | true => rfl
      | false => simp [readAr, hFire] at hSome
    have hOwner := h.bus.exclusive.resolve_left (arbAr_granted hFire)
    exact ⟨hOwner, h.complete hOwner⟩
  · intro hNone
    have hNo : arbAr (fabricAt s inp t) (inp t) = false := by
      cases hFire : arbAr (fabricAt s inp t) (inp t) with
      | false => rfl
      | true => simp [readAr, hFire] at hNone
    rw [lsuAr_eq, icacheAr_eq, socAr_eq, clintAr_eq, hNo]
    simp

end Main

/-- One load, taken in cycle 0. -/
def sampleLoad : ExuOut := { (default : ExuOut) with isLoad := true, memAddr := 0x80000000#32 }

def sampleFabric : Fabric where
  ifu := Ifu.reset .ysyxsoc
  icache := (default : Icache).reset
  lsu := default
  arb := Arbiter.reset
  xbar := ⟨.idle⟩

/-- The load and the first fetch compete: the load is read in cycle 3, the
refill in cycles 6 to 9. -/
def sampleTraffic (t : Nat) : FabricIn where
  inFenceiDone := false
  inRedirectPc := 0
  inRedirectFire := false
  inReady := true
  lsuInValid := t == 0
  lsuInReady := true
  lsuInst := sampleLoad
  soc :=
    if t < 12 then
      { arready := true, rvalid := true, rdata := BitVec.ofNat 32 t, rlast := t == 3 || t == 9 }
    else {}
  clint := {}

theorem reads_routed_sample :
    (List.range 12).filterMap (readAr sampleFabric sampleTraffic) =
        [⟨.lsu, .soc, 0x80000000#32, 0⟩, ⟨.ifu, .soc, 0x30000000#32, 3⟩] ∧
      Routed sampleFabric sampleTraffic 9 := by
  have hReset : sampleFabric.AfterReset :=
    ⟨⟨rfl, Icache.reset_afterReset _⟩, rfl, rfl, rfl, rfl, rfl, rfl, rfl⟩
  have hSoc : SocBursts sampleFabric sampleTraffic := by
    refine lastOnBeat_of_test (n := 12) (by decide +kernel) fun t ht => ?_
    simp [socBeat, rFire, sampleTraffic, show ¬ t < 12 by omega]
  have hFetch : NoClintFetch sampleFabric sampleTraffic := by
    intro t r hAr hIfu
    by_cases hLate : t < 12
    · have hAll : ∀ t < 12, ∀ r ∈ readAr sampleFabric sampleTraffic t,
          inClint r.addr = false := by decide +kernel
      exact hAll t hLate r hAr
    · have hNo : arbAr (fabricAt sampleFabric sampleTraffic t) (sampleTraffic t) = false := by
        simp [arbAr, arFire, Fabric.arbResp, SocXbar.axiArb, sampleTraffic, hLate]
      rw [readAr_none hNo] at hAr
      cases hAr
  exact ⟨by decide +kernel, reads_routed hReset hSoc hFetch 9⟩

end Riscv32.Fabric
