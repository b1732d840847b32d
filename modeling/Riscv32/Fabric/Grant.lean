import Riscv32.Cache.Link
import Riscv32.Rtl.Soc

/-!
# Grant and ownership

The handshakes the masters and the slaves see are those of the arbitrated bus,
gated by the grant, the owner and the selected slave.  `ReadMove` lists what
one edge can do to grant and owner.  `BusInv` ties both registers to the
masters' own states: a granted master is asking, an owner is waiting, and at
most one of the two registers is in use.

The first half of the file is about one cycle: each port's handshakes as
functions of `arbAr` and `arbR`.  The second is the invariant, `busInv_step`, and
holds whatever the slaves do; no promise of theirs is needed for grants.
-/

namespace Riscv32.Fabric

open Riscv32.Rtl
open Riscv32.Cache

/-! ## Handshakes seen from each port -/

section Ports

variable (s : Fabric) (i : FabricIn)

/-- A read request is accepted on the arbitrated bus. -/
def arbAr : Bool := arFire s.arbReq (s.arbResp i)

/-- A read beat is taken on the arbitrated bus. -/
def arbR : Bool := rFire s.arbReq (s.arbResp i)

theorem lsuAr_eq : arFire s.lsu.axi (s.lsuResp i) = (s.arb.readGrant == .lsu && arbAr s i) := by
  simp only [arbAr, arFire, Fabric.lsuResp, Arbiter.axiLsu, Fabric.arbReq, Arbiter.axiArb,
    Arbiter.granted]
  cases s.arb.readGrant <;> simp [beq_eq_decide]

theorem icacheAr_eq :
    arFire s.icache.axiOut (s.icacheResp i) = (s.arb.readGrant == .ifu && arbAr s i) := by
  simp only [arbAr, arFire, Fabric.icacheResp, Arbiter.axiIfu, Fabric.arbReq, Arbiter.axiArb,
    Arbiter.granted]
  cases s.arb.readGrant <;> simp [beq_eq_decide]

theorem lsuR_eq : rFire s.lsu.axi (s.lsuResp i) = (s.arb.readOwner == .lsu && arbR s i) := by
  simp only [arbR, rFire, Fabric.lsuResp, Arbiter.axiLsu, Fabric.arbReq, Arbiter.axiArb]
  cases s.arb.readOwner <;> simp [beq_eq_decide]

theorem icacheR_eq :
    rFire s.icache.axiOut (s.icacheResp i) = (s.arb.readOwner == .ifu && arbR s i) := by
  simp only [arbR, rFire, Fabric.icacheResp, Arbiter.axiIfu, Fabric.arbReq, Arbiter.axiArb]
  cases s.arb.readOwner <;> simp [beq_eq_decide]

theorem socAr_eq : arFire s.socReq i.soc = (!inClint s.arbReq.araddr && arbAr s i) := by
  simp only [arbAr, arFire, Fabric.socReq, SocXbar.axiSoc, Fabric.arbResp, SocXbar.axiArb]
  cases inClint s.arbReq.araddr <;> simp

theorem clintAr_eq : arFire s.clintReq i.clint = (inClint s.arbReq.araddr && arbAr s i) := by
  simp only [arbAr, arFire, Fabric.clintReq, SocXbar.axiClint, Fabric.arbResp, SocXbar.axiArb]
  cases inClint s.arbReq.araddr <;> simp

theorem clintR_eq : rFire s.clintReq i.clint = (s.xbar.readSlave == .clint && arbR s i) := by
  simp only [arbR, rFire, Fabric.clintReq, SocXbar.axiClint, Fabric.arbResp, SocXbar.axiArb]
  cases s.xbar.readSlave <;> simp [beq_eq_decide]

variable {s i}

/-- Off-chip beats are those of the bus, except that a bus without a selected
slave also offers to take one. -/
theorem socR_eq (h : s.xbar.readSlave ≠ .idle ∨ s.arb.readOwner = .idle) :
    rFire s.socReq i.soc = (s.xbar.readSlave == .soc && arbR s i) := by
  simp only [arbR, rFire, Fabric.socReq, SocXbar.axiSoc, Fabric.arbResp, SocXbar.axiArb,
    Fabric.arbReq, Arbiter.axiArb]
  rcases h with h | h
  · cases hSlave : s.xbar.readSlave <;> simp_all
  · cases s.xbar.readSlave <;> simp [h]

/-- A request on the bus needs a grant, a beat an owner. -/
theorem arbAr_granted (h : arbAr s i = true) : s.arb.readGrant ≠ .idle := by
  intro hGrant
  simp [arbAr, arFire, Fabric.arbReq, Arbiter.axiArb, Arbiter.granted, hGrant] at h

theorem arbR_owned (h : arbR s i = true) : s.arb.readOwner ≠ .idle := by
  intro hOwner
  simp [arbR, rFire, Fabric.arbReq, Arbiter.axiArb, hOwner] at h

theorem arbAr_idle (i : FabricIn) (hGrant : s.arb.readGrant = .idle) : arbAr s i = false :=
  Bool.eq_false_iff.mpr fun hAr => arbAr_granted hAr hGrant

theorem arbR_idle (i : FabricIn) (hOwner : s.arb.readOwner = .idle) : arbR s i = false :=
  Bool.eq_false_iff.mpr fun hR => arbR_owned hR hOwner

/-- The crossbar's register through an edge. -/
theorem readSlave_step (s : Fabric) (i : FabricIn) :
    (s.step i).xbar.readSlave =
      if arbAr s i then if inClint s.arbReq.araddr then .clint else .soc
      else if arbR s i then
        match s.xbar.readSlave with
        | .soc => if (s.arbResp i).rlast then .idle else s.xbar.readSlave
        | .clint => .idle
        | .idle => s.xbar.readSlave
      else s.xbar.readSlave := rfl

/-- The arbiter's grant through an edge. -/
theorem readGrant_step (s : Fabric) (i : FabricIn) :
    (s.step i).arb.readGrant =
      if s.arb.readGrant = .idle ∧ s.arb.readOwner = .idle then
        if s.lsu.ar.valid then .lsu else if s.icache.arvalid then .ifu else .idle
      else if arbAr s i then .idle else s.arb.readGrant := rfl

/-- The arbiter's owner through an edge. -/
theorem readOwner_step (s : Fabric) (i : FabricIn) :
    (s.step i).arb.readOwner =
      if arbAr s i then if s.arb.readOwner = .idle then s.arb.readGrant else s.arb.readOwner
      else if arbR s i then
        match s.arb.readOwner with
        | .lsu => .idle
        | .ifu => if (s.arbResp i).rlast then .idle else .ifu
        | .idle => .idle
      else s.arb.readOwner := rfl

end Ports

/-! ## What one edge can do -/

/-- The moves of `read_grant` and `read_owner`. -/
inductive ReadMove (s : Fabric) (i : FabricIn) : Owner → Owner → Prop
  /-- The granted request is accepted: its master owns the read. -/
  | accept (hGrant : s.arb.readGrant ≠ .idle) (hOwner : s.arb.readOwner = .idle)
      (hFire : arbAr s i = true) : ReadMove s i .idle s.arb.readGrant
  /-- A grant waits for the slave. -/
  | wait (hGrant : s.arb.readGrant ≠ .idle) (hOwner : s.arb.readOwner = .idle)
      (hFire : arbAr s i = false) : ReadMove s i s.arb.readGrant .idle
  /-- A free bus grants the first master that asks. -/
  | grant (hGrant : s.arb.readGrant = .idle) (hOwner : s.arb.readOwner = .idle) :
      ReadMove s i
        (if s.lsu.ar.valid then .lsu else if s.icache.arvalid then .ifu else .idle) .idle
  /-- The last beat of the owner's read. -/
  | last (hGrant : s.arb.readGrant = .idle) (hOwner : s.arb.readOwner ≠ .idle)
      (hFire : arbR s i = true)
      (hLast : s.arb.readOwner = .lsu ∨ (s.arbResp i).rlast = true) : ReadMove s i .idle .idle
  /-- A beat of a burst. -/
  | beat (hGrant : s.arb.readGrant = .idle) (hOwner : s.arb.readOwner = .ifu)
      (hFire : arbR s i = true) (hLast : (s.arbResp i).rlast = false) : ReadMove s i .idle .ifu
  /-- The owner waits for the slave. -/
  | hold (hGrant : s.arb.readGrant = .idle) (hOwner : s.arb.readOwner ≠ .idle)
      (hFire : arbR s i = false) : ReadMove s i .idle s.arb.readOwner

theorem readMove {s : Fabric} {i : FabricIn}
    (h : s.arb.readGrant = .idle ∨ s.arb.readOwner = .idle) :
    ReadMove s i (s.step i).arb.readGrant (s.step i).arb.readOwner := by
  rw [readGrant_step, readOwner_step]
  by_cases hGrant : s.arb.readGrant = .idle
  · have hAr := arbAr_idle i hGrant
    cases hR : arbR s i with
    | true =>
        have hOwner := arbR_owned hR
        cases hO : s.arb.readOwner with
        | idle => exact absurd hO hOwner
        | lsu => simpa [hGrant, hAr] using ReadMove.last hGrant hOwner hR (.inl hO)
        | ifu =>
            cases hLast : (s.arbResp i).rlast with
            | true => simpa [hGrant, hAr] using ReadMove.last hGrant hOwner hR (.inr hLast)
            | false => simpa [hGrant, hAr] using ReadMove.beat hGrant hO hR hLast
    | false =>
        by_cases hOwner : s.arb.readOwner = .idle
        · simpa [hGrant, hAr, hOwner] using ReadMove.grant (i := i) hGrant hOwner
        · simpa [hGrant, hAr, hOwner] using ReadMove.hold hGrant hOwner hR
  · have hOwner : s.arb.readOwner = .idle := h.resolve_left hGrant
    have hR := arbR_idle i hOwner
    cases hAr : arbAr s i with
    | true => simpa [hGrant, hOwner] using ReadMove.accept hGrant hOwner hAr
    | false => simpa [hGrant, hOwner, hR] using ReadMove.wait hGrant hOwner hAr

/-! ## The masters' read states -/

section Masters

variable {l : Lsu} {x : LsuIn}

/-- The load/store unit asks exactly in `LSU_READ_ADDR`. -/
theorem lsuAsks_step (h : l.ar.valid = (l.lsuState == .readAddr)) :
    (l.step .ysyxsoc x).ar.valid = ((l.step .ysyxsoc x).lsuState == .readAddr) := by
  simp only [Lsu.step, Lsu.arNext, Lsu.stateNext, Lsu.loadFire]
  cases hState : l.lsuState with
  | idle =>
      rw [hState] at h
      have hNo : arFire l.axi x.axi = false := by simp [arFire, Lsu.axi, h]
      cases hLoad : x.inValid && l.outReady && x.inst.isLoad with
      | true =>
          simp only [Bool.and_eq_true] at hLoad
          simp [hLoad]
      | false =>
          have hKeep : (LsuState.idle == LsuState.idle && x.inValid && l.outReady &&
              x.inst.isLoad) = false := hLoad
          rw [hKeep]
          cases x.inValid && l.outReady && x.inst.isStore <;> simp [hNo, h]
  | readAddr => cases hFire : arFire l.axi x.axi <;> simp [h, hState]
  | waitR => cases arFire l.axi x.axi <;> cases rFire l.axi x.axi <;> simp [h, hState]
  | writeReq =>
      cases arFire l.axi x.axi <;> cases awFire l.axi x.axi && wFire l.axi x.axi <;>
        simp [h, hState]
  | waitB => cases arFire l.axi x.axi <;> cases bFire l.axi x.axi <;> simp [h, hState]
  | done =>
      cases arFire l.axi x.axi <;> cases l.outValid && x.inReady <;> simp [h, hState]

/-- It waits for data from its accepted request to the beat it takes. -/
theorem lsuWaits_step :
    (l.step .ysyxsoc x).lsuState = .waitR ↔
      (l.lsuState = .readAddr ∧ arFire l.axi x.axi = true) ∨
        (l.lsuState = .waitR ∧ rFire l.axi x.axi = false) := by
  simp only [Lsu.step, Lsu.stateNext]
  cases l.lsuState with
  | idle =>
      cases x.inValid && l.outReady && x.inst.isLoad <;>
        cases x.inValid && l.outReady && x.inst.isStore <;> simp
  | readAddr => cases arFire l.axi x.axi <;> simp
  | waitR => cases rFire l.axi x.axi <;> simp
  | writeReq => cases awFire l.axi x.axi && wFire l.axi x.axi <;> simp
  | waitB => cases bFire l.axi x.axi <;> simp
  | done => cases l.outValid && x.inReady <;> simp

/-- A request that is not accepted stays. -/
theorem lsuAsks_hold (h : l.lsuState = .readAddr) (hFire : arFire l.axi x.axi = false) :
    (l.step .ysyxsoc x).lsuState = .readAddr := by
  simp [Lsu.step, Lsu.stateNext, h, hFire]

variable {f : Frontend} {y : FrontendIn}

/-- The cache waits for data from its accepted request to the last beat. -/
theorem icacheWaits_step (h : Link f) :
    (f.step y).icache.state = .waitR ↔
      (f.icache.state = .sendAr ∧ arFire f.icache.axiOut y.axi = true) ∨
        (f.icache.state = .waitR ∧ (rFire f.icache.axiOut y.axi && y.axi.rlast) = false) := by
  have hMove := cacheMove f.icache f.flush (f.ifuAxi y) y.axi
  have hBusy : f.icache.state ≠ .idle → f.flush = false := h.no_flush
  change (f.icache.step f.flush (f.ifuAxi y) y.axi).state = .waitR ↔ _
  generalize f.icache.step f.flush (f.ifuAxi y) y.axi = c at hMove
  cases hMove with
  | flush hFlush =>
      have hIdle : f.icache.state = .idle := (h.idle_of_flush hFlush).2
      simp [hIdle]
  | hit _ hIdle | miss _ hIdle => simp [hIdle]
  | respond _ hResp => simp [hResp]
  | sent _ hSend hFire => simp [hSend, hFire]
  | beat _ hWait hFire hLast => simp [hWait, hLast]
  | last _ hWait hFire hLast => simp [hWait, hFire, hLast]
  | keep _ _ _ hSend hWait =>
      cases hState : f.icache.state with
      | idle | resp => simp
      | sendAr => simp [hSend hState]
      | waitR => simp [hWait hState]

/-- A refill request that is not accepted stays. -/
theorem icacheAsks_hold (h : Link f) (hState : f.icache.state = .sendAr)
    (hFire : arFire f.icache.axiOut y.axi = false) : (f.step y).icache.state = .sendAr := by
  have hFlush : f.flush = false := h.no_flush (by simp [hState])
  simp [Frontend.step, Icache.step, hFlush, hState, hFire]

end Masters

/-! ## The invariant -/

structure BusInv (s : Fabric) : Prop where
  link : Link s.frontend
  lsuAsks : s.lsu.ar.valid = (s.lsu.lsuState == .readAddr)
  exclusive : s.arb.readGrant = .idle ∨ s.arb.readOwner = .idle
  grantLsu : s.arb.readGrant = .lsu → s.lsu.lsuState = .readAddr
  grantIfu : s.arb.readGrant = .ifu → s.icache.state = .sendAr
  ownerLsu : s.arb.readOwner = .lsu ↔ s.lsu.lsuState = .waitR
  ownerIfu : s.arb.readOwner = .ifu ↔ s.icache.state = .waitR

theorem busInv_reset {s : Fabric} (h : s.AfterReset) : BusInv s := by
  refine ⟨link_reset h.frontend, ?_, ?_, ?_, ?_, ?_, ?_⟩
  · simp [h.lsuAr, h.lsuState]
  · exact .inl (by rw [h.arb]; rfl)
  · simp [h.arb, Arbiter.reset]
  · simp [h.arb, Arbiter.reset]
  · simp [h.arb, Arbiter.reset, h.lsuState]
  · have hState : s.icache.state = .idle := h.frontend.icache.state
    simp [h.arb, Arbiter.reset, hState]

section Step

variable {s : Fabric} {i : FabricIn}

private theorem exclusive_step (h : BusInv s) :
    (s.step i).arb.readGrant = .idle ∨ (s.step i).arb.readOwner = .idle := by
  have hMove := @readMove s i h.exclusive
  generalize (s.step i).arb.readGrant = g at hMove
  generalize (s.step i).arb.readOwner = o at hMove
  cases hMove with
  | accept | last | beat | hold => exact .inl rfl
  | wait | grant => exact .inr rfl

private theorem grantLsu_step (h : BusInv s) (hGrant : (s.step i).arb.readGrant = .lsu) :
    (s.step i).lsu.lsuState = .readAddr := by
  have hMove := @readMove s i h.exclusive
  rw [hGrant] at hMove
  have hAsks : s.lsu.lsuState = .readAddr → arbAr s i = false →
      (s.step i).lsu.lsuState = .readAddr := by
    intro hState hNo
    exact lsuAsks_hold hState ((lsuAr_eq s i).trans (by simp [hNo]))
  generalize (s.step i).arb.readOwner = o at hMove
  generalize hg : Owner.lsu = g at hMove
  cases hMove with
  | accept | last | beat | hold => cases hg
  | wait _ _ hFire => exact hAsks (h.grantLsu hg.symm) hFire
  | grant hIdle _ =>
      refine hAsks ?_ (arbAr_idle i hIdle)
      have hValid := h.lsuAsks
      cases hV : s.lsu.ar.valid with
      | true => simpa [hV] using hValid
      | false => cases hC : s.icache.arvalid <;> simp [hV, hC] at hg

private theorem grantIfu_step (h : BusInv s) (hGrant : (s.step i).arb.readGrant = .ifu) :
    (s.step i).icache.state = .sendAr := by
  have hMove := @readMove s i h.exclusive
  rw [hGrant] at hMove
  have hAsks : s.icache.state = .sendAr → arbAr s i = false →
      (s.step i).icache.state = .sendAr := by
    intro hState hNo
    exact icacheAsks_hold h.link hState ((icacheAr_eq s i).trans (by simp [hNo]))
  generalize (s.step i).arb.readOwner = o at hMove
  generalize hg : Owner.ifu = g at hMove
  cases hMove with
  | accept | last | beat | hold => cases hg
  | wait _ _ hFire => exact hAsks (h.grantIfu hg.symm) hFire
  | grant hIdle _ =>
      refine hAsks ?_ (arbAr_idle i hIdle)
      have hValid : s.icache.arvalid = (s.icache.state == .sendAr) := h.link.arvalid
      cases hC : s.icache.arvalid with
      | true => simpa [hC] using hValid
      | false => cases hV : s.lsu.ar.valid <;> simp [hV, hC] at hg

private theorem ownerLsu_step (h : BusInv s) :
    (s.step i).arb.readOwner = .lsu ↔ (s.step i).lsu.lsuState = .waitR := by
  have hMove := @readMove s i h.exclusive
  have hWaits : (s.step i).lsu.lsuState = .waitR ↔
      (s.lsu.lsuState = .readAddr ∧ (s.arb.readGrant == .lsu && arbAr s i) = true) ∨
        (s.lsu.lsuState = .waitR ∧ (s.arb.readOwner == .lsu && arbR s i) = false) := by
    rw [← lsuAr_eq, ← lsuR_eq]
    exact lsuWaits_step
  rw [hWaits, ← h.ownerLsu]
  have hGrantLsu := h.grantLsu
  generalize (s.step i).arb.readGrant = g at hMove
  generalize (s.step i).arb.readOwner = o at hMove
  cases hMove with
  | accept hGrant hOwner hFire => simp [hOwner, hFire]; exact hGrantLsu
  | wait _ hOwner hFire => simp [hOwner, hFire]
  | grant hGrant hOwner => simp [hGrant, hOwner]
  | last hGrant hOwner hFire => simp [hGrant, hFire]
  | beat hGrant hOwner => simp [hGrant, hOwner]
  | hold hGrant hOwner hFire => simp [hGrant, hFire]

private theorem ownerIfu_step (h : BusInv s) :
    (s.step i).arb.readOwner = .ifu ↔ (s.step i).icache.state = .waitR := by
  have hMove := @readMove s i h.exclusive
  have hLast : (s.icacheResp i).rlast = (s.arb.readOwner == .ifu && (s.arbResp i).rlast) := rfl
  have hWaits : (s.step i).icache.state = .waitR ↔
      (s.icache.state = .sendAr ∧ (s.arb.readGrant == .ifu && arbAr s i) = true) ∨
        (s.icache.state = .waitR ∧
          ((s.arb.readOwner == .ifu && arbR s i) && (s.icacheResp i).rlast) = false) := by
    rw [← icacheAr_eq, ← icacheR_eq]
    exact icacheWaits_step h.link
  rw [hWaits, ← h.ownerIfu, hLast]
  have hGrantIfu := h.grantIfu
  generalize (s.step i).arb.readGrant = g at hMove
  generalize (s.step i).arb.readOwner = o at hMove
  cases hMove with
  | accept hGrant hOwner hFire => simp [hOwner, hFire]; exact hGrantIfu
  | wait _ hOwner hFire => simp [hOwner, hFire]
  | grant hGrant hOwner => simp [hGrant, hOwner]
  | last hGrant hOwner hFire hEnd =>
      rcases hEnd with hLsu | hEnd
      · simp [hGrant, hLsu]
      · simp [hGrant, hFire, hEnd]
  | beat hGrant hOwner hFire hMore => simp [hGrant, hOwner, hMore]
  | hold hGrant hOwner hFire => simp [hGrant, hFire]

/-- **Grant and ownership through one edge**, whatever the slaves do. -/
theorem busInv_step (h : BusInv s) : BusInv (s.step i) where
  link := link_step h.link
  lsuAsks := lsuAsks_step h.lsuAsks
  exclusive := exclusive_step h
  grantLsu := grantLsu_step h
  grantIfu := grantIfu_step h
  ownerLsu := ownerLsu_step h
  ownerIfu := ownerIfu_step h

end Step

end Riscv32.Fabric
