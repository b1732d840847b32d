import Riscv32.Chip.Run

/-!
# Stability at the chip boundary

A request on `io_master` that is not yet accepted stays, with its payload,
whatever redirects, flushes and competing requests happen meanwhile.  For
reads the grant pins the master and the master pins the request; for writes
the channels stay connected to the load/store unit from the address request to
the response.

Valid and payload are proved together, channel by channel (`ar_stable`,
`aw_stable`, `w_stable`), since on this bus the same registers decide both.
`io_master_stable` collects them for every cycle of every run, under every slave.
-/

namespace Riscv32.Chip

open Riscv32.Rtl
open Riscv32.Pipeline
open Riscv32.Fabric
open Riscv32.Cache

section Fabric

variable {s : Fabric} {i : FabricIn}

/-! ## Reads -/

/-- While the granted request waits, the bus shows the same request. -/
private theorem granted_stable (h : BusInv s) (hValid : s.arbReq.arvalid = true)
    (hFire : arbAr s i = false) :
    (s.step i).arbReq.arvalid = true ∧ (s.step i).arbReq.araddr = s.arbReq.araddr ∧
      (s.step i).arbReq.arlen = s.arbReq.arlen ∧ (s.step i).arbReq.arsize = s.arbReq.arsize ∧
      (s.step i).arbReq.arburst = s.arbReq.arburst := by
  have hGrant : s.arb.readGrant ≠ .idle := by
    intro hIdle
    simp [Fabric.arbReq, Arbiter.axiArb, Arbiter.granted, hIdle] at hValid
  have hNext : (s.step i).arb.readGrant = s.arb.readGrant := by
    have hMove := @readMove s i h.exclusive
    generalize (s.step i).arb.readGrant = g at hMove
    generalize (s.step i).arb.readOwner = o at hMove
    cases hMove with
    | wait => rfl
    | accept _ _ hBad => simp [hFire] at hBad
    | grant hBad | last hBad | beat hBad | hold hBad => exact absurd hBad hGrant
  cases hG : s.arb.readGrant with
  | idle => exact absurd hG hGrant
  | lsu =>
      rw [hG] at hNext
      have hReq : s.lsu.axi.arvalid = true := by
        simpa [Fabric.arbReq, Arbiter.axiArb, Arbiter.granted, hG] using hValid
      have hNo : arFire s.lsu.axi (s.lsuResp i) = false := by simp [lsuAr_eq, hFire]
      simpa [Fabric.arbReq, Arbiter.axiArb, Arbiter.granted, hG, hNext] using
        (lsu_kept h).pending hReq hNo
  | ifu =>
      rw [hG] at hNext
      have hReq : s.icache.axiOut.arvalid = true := by
        simpa [Fabric.arbReq, Arbiter.axiArb, Arbiter.granted, hG] using hValid
      have hNo : arFire s.icache.axiOut (s.icacheResp i) = false := by simp [icacheAr_eq, hFire]
      simpa [Fabric.arbReq, Arbiter.axiArb, Arbiter.granted, hG, hNext] using
        (icache_kept h.link).pending hReq hNo

/-- The read channel of the boundary. -/
theorem ar_stable (h : BusInv s) (hValid : s.socReq.arvalid = true)
    (hReady : i.soc.arready = false) :
    (s.step i).socReq.arvalid = true ∧ (s.step i).socReq.araddr = s.socReq.araddr ∧
      (s.step i).socReq.arlen = s.socReq.arlen ∧ (s.step i).socReq.arsize = s.socReq.arsize ∧
      (s.step i).socReq.arburst = s.socReq.arburst := by
  simp only [Fabric.socReq, SocXbar.axiSoc, Bool.and_eq_true, Bool.not_eq_true'] at hValid
  obtain ⟨hOut, hReq⟩ := hValid
  have hFire : arbAr s i = false := by
    simp [arbAr, arFire, Fabric.arbResp, SocXbar.axiArb, hOut, hReady]
  obtain ⟨h1, h2, h3, h4, h5⟩ := granted_stable h hReq hFire
  simp [Fabric.socReq, SocXbar.axiSoc, hOut, h1, h2, h3, h4, h5]

/-! ## Writes -/

/-- The write channels are in use only in `LSU_WRITE_REQ`. -/
def Writing (l : Lsu) : Prop :=
  (l.aw.valid = true → l.lsuState = .writeReq) ∧ (l.w.valid = true → l.lsuState = .writeReq)

theorem writing_of_phase {arch : Arch} {l : Lsu} {oe : Option Entry} {m : PortLog}
    (h : LsuPhase arch l oe m) : Writing l := by
  cases h with
  | readAddr _ _ _ _ _ _ hAw hW => simp [Writing, hAw, hW]
  | writeReq _ _ _ _ hState => exact ⟨fun _ => hState, fun _ => hState⟩
  | empty _ _ hLow | passing _ _ _ _ hLow | waitR _ _ _ _ hLow | loaded _ _ _ _ _ hLow
  | waitB _ _ _ _ hLow | stored _ _ _ _ hLow => simp [Writing, hLow.aw, hLow.w]

private theorem noStore {l : Lsu} {x : LsuIn} (h : l.lsuState = .writeReq) :
    l.storeFire x = false := by
  simp [Lsu.storeFire, h]

/-- The write-address channel of the boundary. -/
theorem aw_stable (hWriting : Writing s.lsu) (hValid : s.socReq.awvalid = true)
    (hReady : i.soc.awready = false) :
    (s.step i).socReq.awvalid = true ∧ (s.step i).socReq.awaddr = s.socReq.awaddr := by
  have hReg : s.lsu.aw.valid = true := by
    simp only [Fabric.socReq, SocXbar.axiSoc, Fabric.arbReq, Arbiter.axiArb,
      Bool.and_eq_true] at hValid
    exact hValid.2
  have hOpen : s.arb.writeOpen s.lsu.axi = true := by simp [Arbiter.writeOpen, Lsu.axi, hReg]
  have hNo : awFire s.lsu.axi (s.lsuResp i) = false := by
    simp [awFire, Fabric.lsuResp, Arbiter.axiLsu, Fabric.arbResp, SocXbar.axiArb, hReady]
  have hSame : (s.step i).lsu.aw = s.lsu.aw := by
    have hNext : (s.step i).lsu.aw =
        if s.lsu.storeFire (s.lsuIn i) then ⟨i.lsuInst.memAddr, true⟩
        else if awFire s.lsu.axi (s.lsuResp i) then { s.lsu.aw with valid := false }
        else s.lsu.aw := rfl
    rw [hNext, noStore (hWriting.1 hReg), hNo]
    rfl
  have hOpen' : (s.step i).arb.writeOpen (s.step i).lsu.axi = true := by
    simp [Arbiter.writeOpen, Lsu.axi, hSame, hReg]
  simp only [Fabric.socReq, SocXbar.axiSoc, Fabric.arbReq, Arbiter.axiArb, hOpen, hOpen', if_true,
    Bool.true_and]
  simp [Lsu.axi, hSame, hReg]

/-- The write channels stay connected while data is offered. -/
private theorem open_stable (hWriting : Writing s.lsu) (hData : s.lsu.w.valid = true)
    (hOpen : s.arb.writeOpen s.lsu.axi = true) :
    (s.step i).arb.writeOpen (s.step i).lsu.axi = true := by
  have hState := hWriting.2 hData
  have hOwner : (s.step i).arb.writeOwner =
      if awFire s.arbReq (s.arbResp i) then
        if s.lsu.aw.valid then .lsu else if s.icache.axiOut.awvalid then .ifu else s.arb.writeOwner
      else if bFire s.arbReq (s.arbResp i) then .idle
      else s.arb.writeOwner := rfl
  have hNoB : bFire s.arbReq (s.arbResp i) = false := by
    simp [bFire, Fabric.arbReq, Arbiter.axiArb, Lsu.axi, hState]
  have hAw : (s.step i).lsu.aw =
      if s.lsu.storeFire (s.lsuIn i) then ⟨i.lsuInst.memAddr, true⟩
      else if awFire s.lsu.axi (s.lsuResp i) then { s.lsu.aw with valid := false }
      else s.lsu.aw := rfl
  have hFires : awFire s.arbReq (s.arbResp i) = awFire s.lsu.axi (s.lsuResp i) := by
    simp [awFire, Fabric.arbReq, Arbiter.axiArb, Fabric.lsuResp, Arbiter.axiLsu, hOpen]
  simp only [Arbiter.writeOpen, Lsu.axi, Bool.or_eq_true, beq_iff_eq] at hOpen ⊢
  cases hFire : awFire s.lsu.axi (s.lsuResp i) with
  | true =>
      -- the accepted address makes the unit the owner
      have hReg : s.lsu.aw.valid = true := by
        simp only [awFire, Bool.and_eq_true] at hFire
        exact hFire.1
      right
      rw [hOwner, hFires, hFire, hReg]
      rfl
  | false =>
      rcases hOpen with hReg | hOwned
      · left
        rw [hAw, noStore hState, hFire]
        exact hReg
      · right
        rw [hOwner, hFires, hFire, hNoB]
        exact hOwned

/-- The write-data channel of the boundary. -/
theorem w_stable (hWriting : Writing s.lsu) (hValid : s.socReq.wvalid = true)
    (hReady : i.soc.wready = false) :
    (s.step i).socReq.wvalid = true ∧ (s.step i).socReq.wdata = s.socReq.wdata ∧
      (s.step i).socReq.wstrb = s.socReq.wstrb := by
  simp only [Fabric.socReq, SocXbar.axiSoc, Fabric.arbReq, Arbiter.axiArb,
    Bool.and_eq_true] at hValid
  obtain ⟨hOpen, hReg⟩ := hValid
  have hOpen' := @open_stable s i hWriting hReg hOpen
  have hNo : wFire s.lsu.axi (s.lsuResp i) = false := by
    simp [wFire, Fabric.lsuResp, Arbiter.axiLsu, Fabric.arbResp, SocXbar.axiArb, hReady]
  have hSame : (s.step i).lsu.w = s.lsu.w := by
    have hNext : (s.step i).lsu.w =
        if s.lsu.storeFire (s.lsuIn i) then
          ⟨storeWdata i.lsuInst.storeSize i.lsuInst.memAddr i.lsuInst.storeData,
            storeWstrb i.lsuInst.storeSize i.lsuInst.memAddr, true⟩
        else if wFire s.lsu.axi (s.lsuResp i) then { s.lsu.w with valid := false }
        else s.lsu.w := rfl
    rw [hNext, noStore (hWriting.2 hReg), hNo]
    rfl
  have hData : (s.step i).lsu.axi.wvalid = true ∧ (s.step i).lsu.axi.wdata = s.lsu.axi.wdata ∧
      (s.step i).lsu.axi.wstrb = s.lsu.axi.wstrb := by
    refine ⟨?_, ?_, ?_⟩ <;> simp only [Lsu.axi, hSame]
    exact hReg
  simp only [Fabric.socReq, SocXbar.axiSoc, Fabric.arbReq, Arbiter.axiArb, hOpen, hOpen', if_true,
    Bool.true_and]
  exact hData

end Fabric

/-! ## The chip -/

/-- **Stability of `io_master`.**  In every cycle of every run of the chip,
under every slave. -/
theorem io_master_stable {s : Soc} (h : s.AfterReset) (io : Nat → AxiResp) (t : Nat) :
    ((socAt s io t).ioMaster.arvalid = true → (io t).arready = false →
      (socAt s io (t + 1)).ioMaster.arvalid = true ∧
        (socAt s io (t + 1)).ioMaster.araddr = (socAt s io t).ioMaster.araddr ∧
        (socAt s io (t + 1)).ioMaster.arlen = (socAt s io t).ioMaster.arlen ∧
        (socAt s io (t + 1)).ioMaster.arsize = (socAt s io t).ioMaster.arsize ∧
        (socAt s io (t + 1)).ioMaster.arburst = (socAt s io t).ioMaster.arburst) ∧
      ((socAt s io t).ioMaster.awvalid = true → (io t).awready = false →
        (socAt s io (t + 1)).ioMaster.awvalid = true ∧
          (socAt s io (t + 1)).ioMaster.awaddr = (socAt s io t).ioMaster.awaddr) ∧
      ((socAt s io t).ioMaster.wvalid = true → (io t).wready = false →
        (socAt s io (t + 1)).ioMaster.wvalid = true ∧
          (socAt s io (t + 1)).ioMaster.wdata = (socAt s io t).ioMaster.wdata ∧
          (socAt s io (t + 1)).ioMaster.wstrb = (socAt s io t).ioMaster.wstrb) := by
  have hBus : BusInv (socAt s io t).fabric := busInv_socAt h t
  have hWriting : Writing (socAt s io t).fabric.lsu := by
    obtain ⟨f, pc, hBack, -⟩ := @coreInv_socAt s io h t
    exact writing_of_phase hBack.phase
  exact ⟨@ar_stable _ ((socAt s io t).fabricIn (io t)) hBus,
    @aw_stable _ ((socAt s io t).fabricIn (io t)) hWriting,
    @w_stable _ ((socAt s io t).fabricIn (io t)) hWriting⟩

/-- The first refill request of a chip whose slave never answers. -/
theorem io_master_stable_powerUp :
    (socAt Soc.powerUp (fun _ => {}) 3).ioMaster.arvalid = true ∧
      (socAt Soc.powerUp (fun _ => {}) 4).ioMaster.arvalid = true ∧
      (socAt Soc.powerUp (fun _ => {}) 4).ioMaster.araddr =
        (socAt Soc.powerUp (fun _ => {}) 3).ioMaster.araddr :=
  have hValid : (socAt Soc.powerUp (fun _ => {}) 3).ioMaster.arvalid = true := by decide +kernel
  have hStable := (io_master_stable Soc.powerUp_afterReset (fun _ => {}) 3).1 hValid rfl
  ⟨hValid, hStable.1, hStable.2.1⟩

end Riscv32.Chip
