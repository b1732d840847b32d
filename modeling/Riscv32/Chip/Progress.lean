import Riscv32.Chip.Npc
import Riscv32.Chip.Run
import Riscv32.Clocked.Progress

/-!
# Does a `fence.i` come back?

In the SoC build the fetch port is the cache's, which is ready whenever it is
idle.  A slave that answers gets the cache idle, so the sequencer flushes,
reports, and the next fetch goes out, unless a refill was aimed at the timer:
the timer never flags a last beat, and that refill never ends.

That a core *can* recover is shown by closing the loop with slaves that answer at
once (`answering`) and a rank for the work that is left; that it cannot is an
invariant, `TimerRefill`.

## Main results

* `soc_recovers`, `soc_wedged` — the two cases of the SoC build.
* `fencei_comes_back` — over both builds: a committed `fence.i` comes back exactly
  from the states that are `Open`.
-/

namespace Riscv32.Chip

open Riscv32.Rtl
open Riscv32.Clocked
open Riscv32.Fetch
open Riscv32.Pipeline
open Riscv32.Fabric
open Riscv32.Cache

/-! ## Refills from the timer -/

/-- The fetch under way is, or will be, refilled from the timer: it misses and
its line lies in the timer's window, or that refill is asked for or open. -/
def TimerRefill (s : Fabric) : Prop :=
  match s.icache.state with
  | .idle => s.ifu.axiState = .sendAr ∧ s.icache.hit s.ifu.outstandingPc = false ∧
      inClint (lineAddrOf s.ifu.outstandingPc) = true
  | .resp => False
  | .sendAr => inClint s.icache.araddr = true
  | .waitR => s.xbar.readSlave ≠ .soc

instance (s : Fabric) : Decidable (TimerRefill s) :=
  match h : s.icache.state with
  | .idle => decidable_of_iff (s.ifu.axiState = .sendAr ∧
      s.icache.hit s.ifu.outstandingPc = false ∧
      inClint (lineAddrOf s.ifu.outstandingPc) = true) (by simp [TimerRefill, h])
  | .resp => .isFalse (by simp [TimerRefill, h])
  | .sendAr => decidable_of_iff (inClint s.icache.araddr = true) (by simp [TimerRefill, h])
  | .waitR => decidable_of_iff (s.xbar.readSlave ≠ .soc) (by simp [TimerRefill, h])

section Step

variable {s : Fabric} {i : FabricIn}

/-- The read channel is busy with it. -/
theorem TimerRefill.busy (h : Link s.frontend) (hTimer : TimerRefill s) :
    s.ifu.axiState ≠ .idle := by
  have hWait : s.ifu.axiState = .waitR ↔ s.icache.state ≠ .idle := h.wait
  cases hState : s.icache.state with
  | idle =>
      simp only [TimerRefill, hState] at hTimer
      simp [hTimer.1]
  | resp | sendAr | waitR =>
      rw [hWait.mpr (by simp [hState])]
      simp

/-- An accepted refill request selects its slave by the line's address. -/
private theorem slave_of_sent
    (hFire : arFire s.icache.axiOut (s.icacheResp i) = true) :
    (s.step i).xbar.readSlave = if inClint s.icache.araddr then .clint else .soc := by
  rw [icacheAr_eq, Bool.and_eq_true, beq_iff_eq] at hFire
  obtain ⟨hGrant, hAr⟩ := hFire
  have hAddr : s.arbReq.araddr = s.icache.araddr := by
    simp [Fabric.arbReq, Arbiter.axiArb, Arbiter.granted, hGrant, Icache.axiOut]
  rw [readSlave_step, if_pos hAr, hAddr]

/-- Off-chip beats serve a refill to its end, and no others do. -/
private theorem slave_of_open (h : BusInv s) (hWait : s.icache.state = .waitR)
    (hMore : (rFire s.icache.axiOut (s.icacheResp i) && (s.icacheResp i).rlast) = false) :
    (s.step i).xbar.readSlave = .soc ↔ s.xbar.readSlave = .soc := by
  have hOwner : s.arb.readOwner = .ifu := h.ownerIfu.mpr hWait
  have hGrant : s.arb.readGrant = .idle := h.exclusive.resolve_right (by simp [hOwner])
  have hLast : (s.icacheResp i).rlast = (s.arbResp i).rlast := by
    simp [Fabric.icacheResp, Arbiter.axiIfu, hOwner]
  rw [icacheR_eq, hOwner, hLast] at hMore
  rw [readSlave_step, arbAr_idle i hGrant]
  cases hSlave : s.xbar.readSlave with
  | idle => simp
  | clint => cases arbR s i <;> simp
  | soc =>
      cases hR : arbR s i with
      | false => simp
      | true =>
          have hEnd : (s.arbResp i).rlast = false := by simpa [hR] using hMore
          simp [hEnd]

/-- The last beat of a refill comes from off chip. -/
private theorem slave_of_last (hFire : rFire s.icache.axiOut (s.icacheResp i) = true)
    (hLast : (s.icacheResp i).rlast = true) : s.xbar.readSlave = .soc := by
  rw [icacheR_eq, Bool.and_eq_true, beq_iff_eq] at hFire
  simp only [Fabric.icacheResp, Arbiter.axiIfu, hFire.1, Fabric.arbResp, SocXbar.axiArb,
    Bool.and_eq_true, beq_iff_eq] at hLast
  exact hLast.2.1

/-- A request in the idle cache is looked up. -/
private theorem timerRefill_lookup (h : Link s.frontend) (hIdle : s.icache.state = .idle)
    (hSend : s.ifu.axiState = .sendAr) : TimerRefill (s.step i) ↔ TimerRefill s := by
  have hNext : (s.step i).icache = s.icache.lookup s.ifu.outstandingPc := by
    have hFire : arFire (s.frontend.ifuAxi (s.frontendIn i)) s.icache.axiIn = true := by
      simp [arFire, Frontend.ifuAxi, Ifu.axi, Icache.axiIn, Fabric.frontend, hIdle, hSend]
    have hFlush : s.frontend.flush = false := by
      cases hFlush : s.frontend.flush with
      | false => rfl
      | true =>
          have hBad : s.ifu.axiState = .idle := (h.idle_of_flush hFlush).1
          rw [hSend] at hBad
          cases hBad
    change s.icache.step s.frontend.flush (s.frontend.ifuAxi (s.frontendIn i)) _ = _
    simp only [Icache.step, hFlush, hIdle, hFire, Bool.false_eq_true, if_false, if_true]
    rfl
  cases hHit : s.icache.hit s.ifu.outstandingPc <;>
    simp [TimerRefill, hNext, Icache.lookup, hHit, hIdle, hSend]

/-- **An open fetch keeps its source**: it is refilled from the timer after an
edge exactly if it was to be before. -/
theorem timerRefill_step (h : BusInv s) (hBusy : s.ifu.axiState ≠ .idle) :
    TimerRefill (s.step i) ↔ TimerRefill s := by
  have hWait : s.ifu.axiState = .waitR ↔ s.icache.state ≠ .idle := h.link.wait
  by_cases hIdle : s.icache.state = .idle
  · have hSend : s.ifu.axiState = .sendAr := by
      cases hAxi : s.ifu.axiState with
      | idle => exact absurd hAxi hBusy
      | sendAr => rfl
      | waitR => exact absurd hIdle (hWait.mp hAxi)
    exact timerRefill_lookup h.link hIdle hSend
  · have hAxi := hWait.mpr hIdle
    have hFlush := h.link.no_flush hIdle
    have hMove := cacheMove s.icache s.frontend.flush (s.frontend.ifuAxi (s.frontendIn i))
      (s.icacheResp i)
    have hNext : (s.step i).icache = s.icache.step s.frontend.flush
        (s.frontend.ifuAxi (s.frontendIn i)) (s.icacheResp i) := rfl
    rw [TimerRefill, hNext]
    generalize s.icache.step s.frontend.flush (s.frontend.ifuAxi (s.frontendIn i))
      (s.icacheResp i) = next at hMove
    cases hMove with
    | flush hBad => rw [hFlush] at hBad; cases hBad
    | hit _ hBad | miss _ hBad => exact absurd hBad hIdle
    | respond _ hResp hFire =>
        have hDone : (s.step i).ifu.axiState = .idle := by
          have hAnswer : s.ifu.ifuRFire (s.frontend.ifuIn (s.frontendIn i)) = true := hFire
          change (s.ifu.axiBlock (s.frontend.ifuIn (s.frontendIn i))).axiState = .idle
          simp [Ifu.axiBlock, hAxi, hAnswer]
        simp [TimerRefill, hResp, hDone]
    | sent _ hSend hFire =>
        have hSlave := slave_of_sent hFire
        cases hClint : inClint s.icache.araddr <;> simp [TimerRefill, hSend, hSlave, hClint]
    | beat _ hOpen _ hLast =>
        have hSame := @slave_of_open s i h hOpen (by simp [hLast])
        simp [TimerRefill, hOpen, hSame]
    | last _ hOpen hFire hLast => simp [TimerRefill, hOpen, slave_of_last hFire hLast]
    | keep _ _ _ _ hNone =>
        cases hState : s.icache.state with
        | idle => exact absurd hState hIdle
        | resp | sendAr => simp [TimerRefill, hState]
        | waitR =>
            have hSame := @slave_of_open s i h hState (by simp [hNone hState])
            simp [TimerRefill, hState, hSame]

end Step

/-! ## A slave that answers -/

/-- Off chip, every request is accepted and every beat is there; the fourth of
a refill is flagged. -/
def answering (s : Soc) : AxiResp where
  arready := true
  rvalid := true
  rlast := s.icache.refillCnt == 3

/-- A drained core whose open fetch, if there is one, is not refilled from the
timer. -/
structure Serving (s : Soc) (pc : Word) : Prop where
  drained : Drained s.core pc
  bus : BusInv s.fabric
  clear : ¬ TimerRefill s.fabric

/-- Cycles until the report, at most. -/
def distance (s : Soc) : Nat :=
  match s.core.ifu.fenceiState, s.core.ifu.axiState, s.icache.state with
  | .idle, _, _ => 0
  | .busy, _, _ => 1
  | .wait, .idle, _ => 2
  | .wait, .waitR, .resp => 3
  | .wait, .waitR, .waitR => 7 - s.icache.refillCnt.toNat
  | .wait, .waitR, .sendAr => if s.arb.readGrant = .ifu then 8 else 9
  | .wait, .waitR, .idle => 0
  | .wait, .sendAr, _ => 10

section Serve

variable {s : Soc} {pc : Word} {io : AxiResp}

/-- No new fetch starts before the report. -/
private theorem clear_step (h : Serving s pc) (hBusy : s.core.ifu.fenceiState ≠ .idle) :
    ¬ TimerRefill (s.step io).fabric := by
  have hBus : BusInv (s.step io).fabric := @busInv_step s.fabric (s.fabricIn io) h.bus
  intro hTimer
  have hNext : (s.step io).core.ifu.axiState ≠ .idle := hTimer.busy hBus.link
  have hOld : s.fabric.ifu.axiState ≠ .idle := fun hIdle =>
    hNext (@axi_rests .ysyxsoc s.core (s.coreIn io) hBusy hIdle)
  exact h.clear ((@timerRefill_step s.fabric (s.fabricIn io) h.bus hOld).mp hTimer)

theorem serving_step (h : Serving s pc) (hBusy : s.core.ifu.fenceiState ≠ .idle) :
    Serving (s.step io) pc where
  drained := drained_step h.drained hBusy
  bus := @busInv_step s.fabric (s.fabricIn io) h.bus
  clear := clear_step h hBusy

/-- With the channel busy the sequencer keeps waiting. -/
private theorem wait_keeps (h : Serving s pc) (hWait : s.core.ifu.fenceiState = .wait)
    (hAxi : s.core.ifu.axiState ≠ .idle) : (s.step io).core.ifu.fenceiState = .wait := by
  have hNext := @Drained.fencei_step .ysyxsoc s.core (s.coreIn io) pc h.drained
  rw [Soc.core_step, hNext, hWait]
  simp [hAxi]

/-- Behind the wait the cache runs its own state machine. -/
private theorem icache_wait (h : Serving s pc) (hWait : s.core.ifu.fenceiState = .wait) :
    (s.step io).icache = s.icache.step false s.core.ifuAxi
      (s.fabric.icacheResp (s.fabricIn io)) := by
  have hFlush : s.core.ifu.outIcacheFlush = false := by
    have hFlush : s.core.ifu.outIcacheFlush = (s.core.ifu.fenceiState == .busy) := h.bus.link.flush
    rw [hFlush, hWait]
    rfl
  rw [← hFlush]
  rfl

/-- The cache works only while the channel waits for it. -/
private theorem Serving.icache_idle (h : Serving s pc) (hAxi : s.core.ifu.axiState ≠ .waitR) :
    s.icache.state = .idle := by
  by_contra hNot
  exact hAxi (h.bus.link.wait.mpr hNot)

/-- An idle channel: the cache is ready and the sequencer flushes. -/
private theorem distance_idle (h : Serving s pc) (hWait : s.core.ifu.fenceiState = .wait)
    (hAxi : s.core.ifu.axiState = .idle) : distance (s.step io) = 1 := by
  have hCache := h.icache_idle (by simp [hAxi])
  have hReady : (s.coreIn io).ifu.arready = true := by simp [Soc.coreIn, Icache.axiIn, hCache]
  have hNext := @Drained.fencei_step .ysyxsoc s.core (s.coreIn io) pc h.drained
  rw [hWait, hAxi, hReady] at hNext
  have hBusy : (s.step io).core.ifu.fenceiState = .busy := hNext
  simp [distance, hBusy]

/-- A request goes into the idle cache. -/
private theorem distance_asking (h : Serving s pc) (hWait : s.core.ifu.fenceiState = .wait)
    (hAxi : s.core.ifu.axiState = .sendAr) : distance (s.step io) < 10 := by
  have hCache := h.icache_idle (by simp [hAxi])
  have hFire : arFire s.core.ifuAxi s.icache.axiIn = true := by
    simp [arFire, Core.ifuAxi, Ifu.axi, Icache.axiIn, hAxi, hCache]
  have hPort : s.core.ifu.ifuArFire (s.core.ifuIn (s.coreIn io)) = true := hFire
  have hNextAxi : (s.step io).core.ifu.axiState = .waitR := by
    simp [Soc.step, Core.step, Ifu.step, Ifu.axiBlock, hAxi, hPort]
  have hNextWait := @wait_keeps s pc io h hWait (by simp [hAxi])
  have hNextCache := @icache_wait s pc io h hWait
  rw [distance, hNextWait, hNextAxi, hNextCache]
  cases hHit : s.icache.hit s.core.ifuAxi.araddr with
  | true => simp [Icache.step, hCache, hFire, Icache.lookup, hHit]
  | false =>
      simp only [Icache.step, hCache, hFire, Icache.lookup, hHit, Bool.false_eq_true, if_false,
        if_true]
      split <;> decide

/-- The response goes to the empty slot's unit. -/
private theorem distance_resp (h : Serving s pc) (hWait : s.core.ifu.fenceiState = .wait)
    (hAxi : s.core.ifu.axiState = .waitR) (hCache : s.icache.state = .resp) :
    distance (s.step io) = 2 := by
  have hValid : s.icache.rvalid = (s.icache.state == .resp) := h.bus.link.rvalid
  have hFire : s.core.ifu.ifuRFire (s.core.ifuIn (s.coreIn io)) = true := by
    simp [Ifu.ifuRFire, rFire, Ifu.axi, Ifu.outValid, hAxi, h.drained.slot, Core.ifuIn, Soc.coreIn,
      Icache.axiIn, hValid, hCache]
  have hNextAxi : (s.step io).core.ifu.axiState = .idle := by
    simp [Soc.step, Core.step, Ifu.step, Ifu.axiBlock, hAxi, hFire]
  simp [distance, @wait_keeps s pc io h hWait (by simp [hAxi]), hNextAxi]

/-- While the cache works the fetch unit waits. -/
private theorem axi_waits (h : Serving s pc) (hAxi : s.core.ifu.axiState = .waitR)
    (hCache : s.icache.state ≠ .resp) : (s.step io).core.ifu.axiState = .waitR := by
  have hValid : s.icache.rvalid = (s.icache.state == .resp) := h.bus.link.rvalid
  have hFire : s.core.ifu.ifuRFire (s.core.ifuIn (s.coreIn io)) = false := by
    simp [Ifu.ifuRFire, rFire, Core.ifuIn, Soc.coreIn, Icache.axiIn, hValid, hCache]
  cases hRedirect : (s.core.ifuIn (s.coreIn io)).inRedirectFire <;>
    simp [Soc.step, Core.step, Ifu.step, Ifu.axiBlock, hAxi, hFire, hRedirect]

/-- A beat of the refill; the fourth completes it. -/
private theorem distance_beat (h : Serving s pc) (hWait : s.core.ifu.fenceiState = .wait)
    (hAxi : s.core.ifu.axiState = .waitR) (hCache : s.icache.state = .waitR) :
    distance (s.step (answering s)) < distance s := by
  have hOwner : s.arb.readOwner = .ifu := h.bus.ownerIfu.mpr hCache
  have hSlave : s.xbar.readSlave = .soc := by
    by_contra hNot
    exact h.clear (by simpa [TimerRefill, Soc.fabric, hCache] using hNot)
  have hFire : rFire s.icache.axiOut (s.fabric.icacheResp (s.fabricIn (answering s))) = true := by
    simp [rFire, Icache.axiOut, hCache, Fabric.icacheResp, Arbiter.axiIfu, Soc.fabric, hOwner,
      Fabric.arbResp, SocXbar.axiArb, hSlave, Soc.fabricIn, answering]
  have hLast : (s.fabric.icacheResp (s.fabricIn (answering s))).rlast =
      (s.icache.refillCnt == 3) := by
    simp [Fabric.icacheResp, Arbiter.axiIfu, Soc.fabric, hOwner, Fabric.arbResp, SocXbar.axiArb,
      hSlave, Soc.fabricIn, answering]
  have hNextCache := @icache_wait s pc (answering s) h hWait
  have hNextAxi := @axi_waits s pc (answering s) h hAxi (by simp [hCache])
  have hNow : distance s = 7 - s.icache.refillCnt.toNat := by simp [distance, hWait, hAxi, hCache]
  have hLt := s.icache.refillCnt.isLt
  rw [hNow, distance, @wait_keeps s pc (answering s) h hWait (by simp [hAxi]), hNextAxi,
    hNextCache]
  simp only [Icache.step, hCache, hFire, Icache.beat, hLast, Bool.false_eq_true, if_false, if_true]
  by_cases hEnd : s.icache.refillCnt = 3
  · simp [hEnd]
  · have hNe : s.icache.refillCnt.toNat ≠ 3 := fun hBad => hEnd (BitVec.eq_of_toNat_eq hBad)
    have hCnt : (s.icache.refillCnt + 1).toNat = s.icache.refillCnt.toNat + 1 := by
      rw [BitVec.toNat_add]
      exact Nat.mod_eq_of_lt (by simp; omega)
    simp only [beq_eq_false_iff_ne.mpr hEnd, Bool.false_eq_true, if_false, hCnt]
    omega

/-- The drained load/store unit has no grant and asks for none. -/
private theorem lsu_silent (h : Serving s pc) :
    s.arb.readGrant ≠ .lsu ∧ s.core.lsuAxi.arvalid = false := by
  have hLsu := h.drained.lsuState
  constructor
  · intro hGrant
    have hBad : s.core.lsu.lsuState = .readAddr := h.bus.grantLsu hGrant
    rw [hLsu] at hBad
    cases hBad
  · have hAsks : s.core.lsu.ar.valid = (s.core.lsu.lsuState == .readAddr) := h.bus.lsuAsks
    change s.core.lsu.ar.valid = false
    rw [hAsks, hLsu]
    rfl

/-- While the cache asks, no read is under way. -/
private theorem owner_idle (h : Serving s pc) (hCache : s.icache.state = .sendAr) :
    s.arb.readOwner = .idle := by
  cases hOwner : s.arb.readOwner with
  | idle => rfl
  | lsu =>
      have hBad : s.core.lsu.lsuState = .waitR := h.bus.ownerLsu.mp hOwner
      rw [h.drained.lsuState] at hBad
      cases hBad
  | ifu =>
      have hBad : s.icache.state = .waitR := h.bus.ownerIfu.mp hOwner
      rw [hCache] at hBad
      cases hBad

/-- The refill request is granted in one cycle. -/
private theorem request_granted (h : Serving s pc) (hCache : s.icache.state = .sendAr)
    (hGrant : s.arb.readGrant = .idle) : (s.step io).arb.readGrant = .ifu := by
  have hValid : s.icache.arvalid = (s.icache.state == .sendAr) := h.bus.link.arvalid
  simp [Soc.step, Arbiter.step, Arbiter.readGrantNext, hGrant, owner_idle h hCache,
    (lsu_silent h).2, Icache.axiOut, hValid, hCache]

/-- Once granted it is accepted. -/
private theorem request_taken (h : Serving s pc) (hCache : s.icache.state = .sendAr)
    (hGrant : s.arb.readGrant = .ifu) :
    arFire s.icache.axiOut (s.fabric.icacheResp (s.fabricIn (answering s))) = true := by
  have hValid : s.icache.arvalid = (s.icache.state == .sendAr) := h.bus.link.arvalid
  have hAddr : inClint s.icache.araddr = false := by
    rw [Bool.eq_false_iff]
    intro hClint
    exact h.clear (by simpa [TimerRefill, Soc.fabric, hCache] using hClint)
  simp [arFire, Icache.axiOut, hValid, hCache, Fabric.icacheResp, Arbiter.axiIfu, Soc.fabric,
    hGrant, Fabric.arbResp, SocXbar.axiArb, Fabric.arbReq, Arbiter.axiArb, Arbiter.granted, hAddr,
    Soc.fabricIn, answering]

/-- A request comes nearer to its first beat. -/
private theorem distance_sending (h : Serving s pc) (hWait : s.core.ifu.fenceiState = .wait)
    (hAxi : s.core.ifu.axiState = .waitR) (hCache : s.icache.state = .sendAr) :
    distance (s.step (answering s)) < distance s := by
  have hNextCache := @icache_wait s pc (answering s) h hWait
  have hNextAxi := @axi_waits s pc (answering s) h hAxi (by simp [hCache])
  have hNextWait := @wait_keeps s pc (answering s) h hWait (by simp [hAxi])
  cases hGrant : s.arb.readGrant with
  | lsu => exact absurd hGrant (lsu_silent h).1
  | idle =>
      have hNow : distance s = 9 := by simp [distance, hWait, hAxi, hCache, hGrant]
      have hNoFire : arFire s.icache.axiOut
          (s.fabric.icacheResp (s.fabricIn (answering s))) = false :=
        (icacheAr_eq s.fabric (s.fabricIn (answering s))).trans (by simp [Soc.fabric, hGrant])
      have hNextGrant := @request_granted s pc (answering s) h hCache hGrant
      rw [hNow, distance, hNextWait, hNextAxi, hNextCache, hNextGrant]
      simp [Icache.step, hCache, hNoFire]
  | ifu =>
      have hNow : distance s = 8 := by simp [distance, hWait, hAxi, hCache, hGrant]
      rw [hNow, distance, hNextWait, hNextAxi, hNextCache]
      simp only [Icache.step, hCache, request_taken h hCache hGrant, Icache.sent,
        Bool.false_eq_true, if_false, if_true]
      omega

/-- **Every cycle brings the report nearer.** -/
theorem distance_step (h : Serving s pc) (hBusy : s.core.ifu.fenceiState ≠ .idle) :
    distance (s.step (answering s)) < distance s := by
  cases hState : s.core.ifu.fenceiState with
  | idle => exact absurd hState hBusy
  | busy =>
      have hNext := @Drained.fencei_step .ysyxsoc s.core (s.coreIn (answering s)) pc h.drained
      rw [hState] at hNext
      have hIdle : (s.step (answering s)).core.ifu.fenceiState = .idle := hNext
      simp [distance, hState, hIdle]
  | wait =>
      cases hAxi : s.core.ifu.axiState with
      | idle =>
          rw [distance_idle h hState hAxi]
          simp [distance, hState, hAxi]
      | sendAr =>
          have hNow : distance s = 10 := by simp [distance, hState, hAxi]
          rw [hNow]
          exact distance_asking h hState hAxi
      | waitR =>
          cases hCache : s.icache.state with
          | idle => exact absurd hCache (h.bus.link.wait.mp hAxi)
          | resp =>
              rw [distance_resp h hState hAxi hCache]
              simp [distance, hState, hAxi, hCache]
          | waitR => exact distance_beat h hState hAxi hCache
          | sendAr => exact distance_sending h hState hAxi hCache

end Serve

/-! ## Every run -/

section Run

variable {s : Soc} {io : Nat → AxiResp} {c t : Nat}

/-- In cycle `n + 1` of a served run the next fetch is accepted. -/
private theorem recovers_of_report {s : Soc} {pc : Word} {io : Nat → AxiResp} {n : Nat}
    (h : Serving (socAt s io n) pc) (hIdle : (socAt s io n).core.ifu.fenceiState = .idle) :
    Recovers .ysyxsoc s.core (coreInp s io) pc := by
  obtain ⟨hClear, hSend, hPc⟩ :=
    @drained_report .ysyxsoc _ ((socAt s io n).coreIn (io n)) _ h.drained hIdle
  have hReport : (socAt s io n).core.ifu.outFenceiFlushDone = true := by
    rw [h.drained.sequencer, hIdle]
    rfl
  have hLink : Link (socAt s io (n + 1)).fabric.frontend :=
    (@busInv_step _ ((socAt s io n).fabricIn (io n)) h.bus).link
  have hAxi : (socAt s io (n + 1)).core.ifu.axiState = .sendAr := hSend
  have hCache : (socAt s io (n + 1)).icache.state = .idle := by
    by_contra hNot
    have hBad : (socAt s io (n + 1)).core.ifu.axiState = .waitR := hLink.wait.mpr hNot
    rw [hAxi] at hBad
    cases hBad
  refine ⟨n, n + 1, Nat.lt_succ_self n, ?_, ?_, ?_, ?_⟩
  · rw [← core_socAt]
    exact hReport
  · rw [← core_socAt]
    exact hClear
  · rw [← core_socAt]
    simp [arFire, Core.ifuAxi, Ifu.axi, hAxi, coreInp, Soc.coreIn, Icache.axiIn, hCache]
  · rw [← core_socAt]
    exact hPc

/-- **In the SoC build a committed `fence.i` comes back** under a slave that
answers, unless its fetch is refilled from the timer. -/
theorem soc_recovers (hReset : s.AfterReset)
    (hDrain : Draining .ysyxsoc s.core (coreInp s io) c t)
    (hClear : ¬ TimerRefill (socAt s io t).fabric) :
    ∃ io', (∀ k, (io' k).rlast = ((socAt (socAt s io t) io' k).icache.refillCnt == 3)) ∧
      Recovers .ysyxsoc (socAt s io t).core (coreInp (socAt s io t) io')
        ((socAt s io c).core.commit.pc + 4) := by
  have hDrained := hDrain.drained hReset.core
  rw [← core_socAt, ← core_socAt] at hDrained
  have hServing : Serving (socAt s io t) ((socAt s io c).core.commit.pc + 4) :=
    ⟨hDrained, busInv_socAt hReset t, hClear⟩
  generalize (socAt s io c).core.commit.pc + 4 = pc at hServing
  generalize socAt s io t = s' at hServing
  obtain ⟨n, -, hEnd, hIdle⟩ := iterate_reaches
    (f := closed Soc.step answering) (fun s => Serving s pc)
    (fun s => s.core.ifu.fenceiState = .idle) distance
    (fun s hInv hBusy => ⟨serving_step hInv hBusy, distance_step hInv hBusy⟩) s' hServing
  rw [← run_chosen] at hEnd hIdle
  refine ⟨chosen Soc.step answering s', fun k => ?_, recovers_of_report hEnd hIdle⟩
  rw [socAt, run_chosen]
  rfl

/-- A refill from the timer never ends. -/
theorem timerRefill_socAt {s : Soc} (hBus : BusInv s.fabric) (hTimer : TimerRefill s.fabric)
    (io : Nat → AxiResp) (n : Nat) : (socAt s io n).core.ifu.axiState ≠ .idle := by
  have hRun : BusInv (socAt s io n).fabric ∧ TimerRefill (socAt s io n).fabric := by
    induction n with
    | zero => exact ⟨hBus, hTimer⟩
    | succ n ih =>
        exact ⟨@busInv_step _ ((socAt s io n).fabricIn (io n)) ih.1,
          (@timerRefill_step _ ((socAt s io n).fabricIn (io n)) ih.1 (ih.2.busy ih.1.link)).mpr
            ih.2⟩
  exact hRun.2.busy hRun.1.link

/-- **A refill from the timer wedges the core**: a committed `fence.i` behind it
never comes back. -/
theorem soc_wedged (hReset : s.AfterReset)
    (hDrain : Draining .ysyxsoc s.core (coreInp s io) c t)
    (hTimer : TimerRefill (socAt s io t).fabric) (io' : Nat → AxiResp) (n : Nat) :
    (socAt (socAt s io t) io' n).core.idu.fencePending = true := by
  have hDrained := hDrain.drained hReset.core
  rw [← core_socAt] at hDrained
  have hOpen := timerRefill_socAt (busInv_socAt hReset t) hTimer io'
  have hWait : (socAt s io t).core.ifu.fenceiState = .wait := by
    by_contra hNot
    exact hOpen 0 (hDrained.channel hNot)
  have hStuck := @drained_stuck .ysyxsoc _ (coreInp (socAt s io t) io') _ hDrained hWait
    (fun k _ hIdle => by
      rw [← core_socAt] at hIdle
      exact absurd hIdle (hOpen k)) n
  rw [← core_socAt] at hStuck
  exact hStuck.1.pending

end Run

/-! ## Both builds -/

/-- The core up to the bus that slaves answer on: `axi_arb` in the NPC build,
`io_master` in the SoC build. -/
def Top : Arch → Type
  | .npc => NpcCore
  | .ysyxsoc => Soc

namespace Top

variable {arch : Arch}

def step : {arch : Arch} → Top arch → AxiResp → Top arch
  | .npc => NpcCore.step
  | .ysyxsoc => Soc.step

def core : {arch : Arch} → Top arch → Core
  | .npc => NpcCore.core
  | .ysyxsoc => Soc.core

/-- What the core's ports see. -/
def coreIn : {arch : Arch} → Top arch → AxiResp → CoreIn
  | .npc => NpcCore.coreIn
  | .ysyxsoc => Soc.coreIn

def AfterReset : {arch : Arch} → Top arch → Prop
  | .npc => NpcCore.AfterReset
  | .ysyxsoc => Soc.AfterReset

/-- A `rlast` as slaves drive it: the NPC build makes single reads, a refill of
the SoC build has four beats. -/
def LastFlagged : {arch : Arch} → Top arch → AxiResp → Prop
  | .npc, _, resp => resp.rlast = true
  | .ysyxsoc, s, resp => resp.rlast = ((Soc.icache s).refillCnt == 3)

/-- The build has the cache on its fetch port, and the open fetch, if there is
one, is not refilled from the timer. -/
def Open : {arch : Arch} → Top arch → Prop
  | .npc, _ => False
  | .ysyxsoc, s => ¬ TimerRefill (Soc.fabric s)

end Top

section Both

variable {arch : Arch} (s : Top arch) (io : Nat → AxiResp)

def topAt (t : Nat) : Top arch := run Top.step s io t

def topInp (t : Nat) : CoreIn := (topAt s io t).coreIn (io t)

variable {s io}

/-- **When a committed `fence.i` comes back**: exactly in the SoC build, and
there from every state whose open fetch is not refilled from the timer.  From
such a state slaves that flag last beats as they should bring it back; from any
other state nothing they answer does. -/
theorem fencei_comes_back {c t : Nat} (hReset : s.AfterReset)
    (hDrain : Draining arch s.core (topInp s io) c t) :
    ((topAt s io t).Open → ∃ io', (∀ k, (topAt (topAt s io t) io' k).LastFlagged (io' k)) ∧
      Recovers arch (topAt s io t).core (topInp (topAt s io t) io')
        ((topAt s io c).core.commit.pc + 4)) ∧
    ((∃ io' pc, Recovers arch (topAt s io t).core (topInp (topAt s io t) io') pc) →
      (topAt s io t).Open) := by
  cases arch with
  | npc =>
      refine ⟨False.elim, ?_⟩
      rintro ⟨io', pc, hBack⟩
      refine not_recovers_of_pending (fun n => ?_) pc hBack
      have hWedged := npc_wedged hReset hDrain io' n
      rw [core_npcAt] at hWedged
      exact hWedged
  | ysyxsoc =>
      refine ⟨fun hOpen => ?_, ?_⟩
      · exact soc_recovers hReset hDrain hOpen
      · rintro ⟨io', pc, hBack⟩ hTimer
        refine not_recovers_of_pending (fun n => ?_) pc hBack
        have hWedged := soc_wedged hReset hDrain hTimer io' n
        rw [core_socAt] at hWedged
        exact hWedged

end Both

/-- A memory full of `fence.i`. -/
def allFencei (_ : Nat) (_ : Word) : Word := 0x0000100f#32

/-- The same behind `io_master`: the first line is read in cycles 4 to 7. -/
def fenceiLine (t : Nat) : AxiResp :=
  { arready := true, rvalid := true, rdata := 0x0000100f#32, rlast := t == 7 }

/-- `lui x1, 0x2000` and `jalr x0, -4(x1)` lead to a `fence.i` in front of the
timer's window. -/
def fenceiBeforeClint (t : Nat) : AxiResp where
  arready := true
  rvalid := true
  rdata :=
    if t == 4 then 0x020000b7#32
    else if t == 5 then 0xffc08067#32
    else if t < 8 then 0x00000013#32
    else 0x0000100f#32
  rlast := t == 7 || t == 22

private theorem draining_npc :
    Draining .npc Npc.powerUp.core (npcInp Npc.powerUp.npcCore (npcArb Npc.powerUp allFencei))
      7 8 := by
  refine ⟨by decide, by decide +kernel, fun k h1 h2 => ?_⟩
  obtain rfl : k = 8 := by omega
  decide +kernel

private theorem draining_soc :
    Draining .ysyxsoc Soc.powerUp.core (coreInp Soc.powerUp fenceiLine) 12 13 := by
  refine ⟨by decide, by decide +kernel, fun k h1 h2 => ?_⟩
  obtain rfl : k = 13 := by omega
  decide +kernel

private theorem draining_clint :
    Draining .ysyxsoc Soc.powerUp.core (coreInp Soc.powerUp fenceiBeforeClint) 27 30 := by
  refine ⟨by decide, by decide +kernel, fun k h1 h2 => ?_⟩
  have hAll : ∀ k, k ≤ 30 → 27 < k →
      (coreAt .ysyxsoc Soc.powerUp.core (coreInp Soc.powerUp fenceiBeforeClint)
        k).idu.fencePending = true := by decide +kernel
  exact hAll k h2 h1

/-- One run for each case: wedged in the NPC build, back in the SoC build,
wedged there with the next line in the timer's window. -/
theorem fencei_comes_back_runs :
    (¬ ∃ io' pc, Recovers .npc
      (npcAt Npc.powerUp.npcCore (npcArb Npc.powerUp allFencei) 8).core
      (npcInp (npcAt Npc.powerUp.npcCore (npcArb Npc.powerUp allFencei) 8) io') pc) ∧
    (∃ io', Recovers .ysyxsoc (socAt Soc.powerUp fenceiLine 13).core
      (coreInp (socAt Soc.powerUp fenceiLine 13) io')
      ((socAt Soc.powerUp fenceiLine 12).core.commit.pc + 4)) ∧
    ¬ ∃ io' pc, Recovers .ysyxsoc (socAt Soc.powerUp fenceiBeforeClint 30).core
      (coreInp (socAt Soc.powerUp fenceiBeforeClint 30) io') pc := by
  have hNpc := @fencei_comes_back .npc Npc.powerUp.npcCore (npcArb Npc.powerUp allFencei) 7 8
    Npc.powerUp_afterReset draining_npc
  have hSoc := @fencei_comes_back .ysyxsoc Soc.powerUp fenceiLine 12 13
    Soc.powerUp_afterReset draining_soc
  have hClint := @fencei_comes_back .ysyxsoc Soc.powerUp fenceiBeforeClint 27 30
    Soc.powerUp_afterReset draining_clint
  have hOpen : ¬ TimerRefill (socAt Soc.powerUp fenceiLine 13).fabric := by decide +kernel
  have hTimer : TimerRefill (socAt Soc.powerUp fenceiBeforeClint 30).fabric := by decide +kernel
  obtain ⟨io', -, hBack⟩ := hSoc.1 hOpen
  exact ⟨hNpc.2, ⟨io', hBack⟩, fun hAny => hClint.2 hAny hTimer⟩

/-- The NPC build with its own crossbar and memory, eight cycles after reset:
a `fence.i` has committed, and no answer of any slave clears `fence_pending`. -/
theorem npc_fencei_wedged :
    Draining .npc Npc.powerUp.core (npcInp Npc.powerUp.npcCore (npcArb Npc.powerUp allFencei))
        7 8 ∧
      ∀ arb' pc, ¬ Recovers .npc (run Npc.step Npc.powerUp allFencei 8).core
        (npcInp (run Npc.step Npc.powerUp allFencei 8).npcCore arb') pc := by
  refine ⟨draining_npc, fun arb' => not_recovers_of_pending fun n => ?_⟩
  have hRun := npcCore_run Npc.powerUp allFencei 8
  have hWedged := npc_wedged Npc.powerUp_afterReset draining_npc arb' n
  rw [← hRun, core_npcAt] at hWedged
  exact hWedged

end Riscv32.Chip
