import Riscv32.Cache.Line
import Riscv32.Fetch.Tracks

/-!
# The fetch unit and its cache in step

`CacheMove` lists what one edge can do to the cache.  `Link` is the handshake
both machines keep: the fetch unit waits for a response exactly while the
cache works on its request, and the `fence.i` sequencer asserts the flush only
while the read channel, and with it the cache, is idle.  So the flush branch,
which overrides the cache's state machine, never overrides anything.

`link_step` needs no promise of the memory side: the handshake is between these
two machines, and holds however long a refill takes.
-/

namespace Riscv32.Cache

open Riscv32.Rtl
open Riscv32.Fetch

/-! ## What one edge can do -/

inductive CacheMove (s : Icache) (inIcacheFlush : Bool) (req : AxiReq) (resp : AxiResp) :
    Icache → Prop
  /-- Every line is invalidated. -/
  | flush (hFlush : inIcacheFlush = true) :
      CacheMove s inIcacheFlush req resp { s with validArray := fun _ => false }
  /-- A request for a present line. -/
  | hit (hFlush : inIcacheFlush = false) (hIdle : s.state = .idle)
      (hFire : arFire req s.axiIn = true) (hHit : s.hit req.araddr = true) :
      CacheMove s inIcacheFlush req resp
        { s with
          rdata := (s.dataArray (indexOf req.araddr)).read ((offsetOf req.araddr).toNat * 8)
          rvalid := true, rresp := 0, state := .resp }
  /-- A request for an absent line. -/
  | miss (hFlush : inIcacheFlush = false) (hIdle : s.state = .idle)
      (hFire : arFire req s.axiIn = true) (hMiss : s.hit req.araddr = false) :
      CacheMove s inIcacheFlush req resp
        { s with
          refillCnt := 0, reqWordOffset := wordOffsetOf req.araddr
          refillAddr := lineAddrOf req.araddr, araddr := lineAddrOf req.araddr
          arvalid := true, arburst := 0b01#2, arlen := 3, arsize := 0b010#3
          state := .sendAr }
  /-- The response is taken. -/
  | respond (hFlush : inIcacheFlush = false) (hResp : s.state = .resp)
      (hFire : rFire req s.axiIn = true) :
      CacheMove s inIcacheFlush req resp { s with rvalid := false, state := .idle }
  /-- The refill request is accepted. -/
  | sent (hFlush : inIcacheFlush = false) (hSend : s.state = .sendAr)
      (hFire : arFire s.axiOut resp = true) :
      CacheMove s inIcacheFlush req resp
        { s with arvalid := false, arburst := 0, arlen := 0, arsize := 0, state := .waitR }
  /-- A beat that is not the last. -/
  | beat (hFlush : inIcacheFlush = false) (hWait : s.state = .waitR)
      (hFire : rFire s.axiOut resp = true) (hLast : resp.rlast = false) :
      CacheMove s inIcacheFlush req resp
        { s with
          dataArray := s.filled resp.rdata
          refillAddr := s.refillAddr + 4, refillCnt := s.refillCnt + 1 }
  /-- The last beat. -/
  | last (hFlush : inIcacheFlush = false) (hWait : s.state = .waitR)
      (hFire : rFire s.axiOut resp = true) (hLast : resp.rlast = true) :
      CacheMove s inIcacheFlush req resp
        { s with
          dataArray := s.filled resp.rdata
          validArray := setAt s.validArray (indexOf s.refillAddr) true
          tagArray := setAt s.tagArray (indexOf s.refillAddr) (tagOf s.refillAddr)
          rdata :=
            if s.reqWordOffset = s.refillCnt then resp.rdata
            else (s.dataArray (indexOf s.refillAddr)).read (s.reqWordOffset.toNat * 32)
          rvalid := true, rresp := 0, state := .resp }
  /-- Nothing happens. -/
  | keep (hFlush : inIcacheFlush = false)
      (hIdle : s.state = .idle → arFire req s.axiIn = false)
      (hResp : s.state = .resp → rFire req s.axiIn = false)
      (hSend : s.state = .sendAr → arFire s.axiOut resp = false)
      (hWait : s.state = .waitR → rFire s.axiOut resp = false) :
      CacheMove s inIcacheFlush req resp s

/-- What one cycle of the cache does is one of the moves. -/
theorem cacheMove (s : Icache) (inIcacheFlush : Bool) (req : AxiReq) (resp : AxiResp) :
    CacheMove s inIcacheFlush req resp (s.step inIcacheFlush req resp) := by
  unfold Icache.step
  cases hFlush : inIcacheFlush with
  | true => exact .flush rfl
  | false =>
      cases hState : s.state with
      | idle =>
          cases hFire : arFire req s.axiIn with
          | false =>
              exact .keep rfl (fun _ => hFire) (by simp [hState]) (by simp [hState])
                (by simp [hState])
          | true =>
              cases hHit : s.hit req.araddr with
              | true => simpa [Icache.lookup, hHit] using CacheMove.hit rfl hState hFire hHit
              | false => simpa [Icache.lookup, hHit] using CacheMove.miss rfl hState hFire hHit
      | resp =>
          cases hFire : rFire req s.axiIn with
          | false =>
              exact .keep rfl (by simp [hState]) (fun _ => hFire) (by simp [hState])
                (by simp [hState])
          | true => exact .respond rfl hState hFire
      | sendAr =>
          cases hFire : arFire s.axiOut resp with
          | false =>
              exact .keep rfl (by simp [hState]) (by simp [hState]) (fun _ => hFire)
                (by simp [hState])
          | true => exact .sent rfl hState hFire
      | waitR =>
          cases hFire : rFire s.axiOut resp with
          | false =>
              exact .keep rfl (by simp [hState]) (by simp [hState]) (by simp [hState])
                (fun _ => hFire)
          | true =>
              cases hLast : resp.rlast with
              | true => simpa [Icache.beat, hLast] using CacheMove.last rfl hState hFire hLast
              | false => simpa [Icache.beat, hLast] using CacheMove.beat rfl hState hFire hLast

/-! ## The handshake -/

structure Link (s : Frontend) : Prop where
  wait : s.ifu.axiState = .waitR ↔ s.icache.state ≠ .idle
  rvalid : s.icache.rvalid = (s.icache.state == .resp)
  arvalid : s.icache.arvalid = (s.icache.state == .sendAr)
  flush : s.ifu.outIcacheFlush = (s.ifu.fenceiState == .busy)
  busy : s.ifu.fenceiState = .busy → s.ifu.axiState = .idle
  aligned : s.ifu.axiState ≠ .idle → misaligned s.ifu.outstandingPc = false
  len : s.icache.state = .sendAr → s.icache.arlen = 3

section Step

variable {s : Frontend} {i : FrontendIn}

/-- The reset state of the pair. -/
theorem link_reset {arch : Arch} (h : s.AfterReset arch) : Link s := by
  obtain ⟨hIfu, hCache⟩ := h
  constructor <;> simp [hIfu, Ifu.reset, hCache.state, hCache.rvalid, hCache.arvalid]

/-- The flush finds the read channel idle. -/
theorem Link.idle_of_flush (h : Link s) (hFlush : s.flush = true) :
    s.ifu.axiState = .idle ∧ s.icache.state = .idle := by
  have hBusy : s.ifu.fenceiState = .busy := by
    have := h.flush
    rw [show s.ifu.outIcacheFlush = true from hFlush] at this
    simpa using this.symm
  have hIdle := h.busy hBusy
  refine ⟨hIdle, ?_⟩
  by_contra hNot
  rw [h.wait.mpr hNot] at hIdle
  cases hIdle

/-- No flush reaches the cache while it answers. -/
theorem Link.no_flush (h : Link s) (hState : s.icache.state ≠ .idle) : s.flush = false := by
  cases hFlush : s.flush with
  | false => rfl
  | true => exact absurd (h.idle_of_flush hFlush).2 hState

/-- A request reaches the cache only while the fetch unit asks. -/
theorem arFire_asking (hFire : arFire (s.ifuAxi i) s.icache.axiIn = true) :
    s.ifu.axiState = .sendAr ∧ s.icache.state = .idle := by
  simpa [arFire, Frontend.ifuAxi, Ifu.axi, Icache.axiIn] using hFire

/-- A response leaves the cache only while it offers one. -/
theorem Link.rFire_responding (h : Link s) (hFire : rFire (s.ifuAxi i) s.icache.axiIn = true) :
    s.ifu.axiState = .waitR ∧ s.icache.state = .resp := by
  have hState := h.rvalid
  simp only [rFire, Frontend.ifuAxi, Ifu.axi, Icache.axiIn, Bool.and_eq_true, beq_iff_eq] at hFire
  rw [hFire.1] at hState
  exact ⟨hFire.2.1, by simpa using hState.symm⟩

/-- The address of an outstanding request does not change. -/
theorem outstandingPc_keep (hBusy : s.ifu.axiState ≠ .idle) :
    (s.step i).ifu.outstandingPc = s.ifu.outstandingPc := by
  have hMove := axiMove s.ifu (s.ifuIn i)
  change (s.ifu.axiBlock (s.ifuIn i)).outstandingPc = _
  generalize s.ifu.axiBlock (s.ifuIn i) = ax at hMove
  cases hMove with
  | start hIdle => exact absurd hIdle hBusy
  | rest | ask | asked | answered | await => rfl

private theorem wait_step (h : Link s) :
    (s.step i).ifu.axiState = .waitR ↔ (s.step i).icache.state ≠ .idle := by
  have hMove := axiMove s.ifu (s.ifuIn i)
  have hCache := cacheMove s.icache s.flush (s.ifuAxi i) i.axi
  change (s.ifu.axiBlock (s.ifuIn i)).axiState = .waitR ↔
    (s.icache.step s.flush (s.ifuAxi i) i.axi).state ≠ .idle
  generalize s.ifu.axiBlock (s.ifuIn i) = ax at hMove
  generalize s.icache.step s.flush (s.ifuAxi i) i.axi = c at hCache
  have hWait := h.wait
  -- both sides see the same handshakes on the link
  have hAr : s.ifu.ifuArFire (s.ifuIn i) = arFire (s.ifuAxi i) s.icache.axiIn := rfl
  have hR : s.ifu.ifuRFire (s.ifuIn i) = rFire (s.ifuAxi i) s.icache.axiIn := rfl
  cases hMove with
  | start hIdle | rest hIdle =>
      have hState : s.icache.state = .idle := by simpa [hIdle] using hWait
      have hNo : arFire (s.ifuAxi i) s.icache.axiIn = false := by
        simp [arFire, Frontend.ifuAxi, Ifu.axi, hIdle]
      cases hCache <;> simp_all
  | ask hSend hFire =>
      have hState : s.icache.state = .idle := by simpa [hSend] using hWait
      rw [hAr] at hFire
      cases hCache <;> simp_all
  | asked hSend hFire =>
      have hState : s.icache.state = .idle := by simpa [hSend] using hWait
      have hNoFlush : s.flush = false := by
        cases hFlush : s.flush with
        | false => rfl
        | true => simp [(h.idle_of_flush hFlush).1] at hSend
      rw [hAr] at hFire
      cases hCache <;> simp_all
  | answered hOld hFire =>
      rw [hR] at hFire
      have hState := (h.rFire_responding hFire).2
      have hNoFlush := h.no_flush (by simp [hState])
      cases hCache <;> simp_all
  | await hOld hFire =>
      have hState : s.icache.state ≠ .idle := hWait.mp hOld
      have hNoFlush := h.no_flush hState
      rw [hR] at hFire
      cases hCache <;> simp_all

private theorem valids_step (h : Link s) :
    (s.step i).icache.rvalid = ((s.step i).icache.state == .resp) ∧
      (s.step i).icache.arvalid = ((s.step i).icache.state == .sendAr) := by
  have hCache := cacheMove s.icache s.flush (s.ifuAxi i) i.axi
  have hRv := h.rvalid
  have hAv := h.arvalid
  change (s.icache.step s.flush (s.ifuAxi i) i.axi).rvalid =
      ((s.icache.step s.flush (s.ifuAxi i) i.axi).state == .resp) ∧
    (s.icache.step s.flush (s.ifuAxi i) i.axi).arvalid =
      ((s.icache.step s.flush (s.ifuAxi i) i.axi).state == .sendAr)
  generalize s.icache.step s.flush (s.ifuAxi i) i.axi = c at hCache
  cases hCache <;> simp_all

private theorem sequencer_step (h : Link s) :
    (s.step i).ifu.outIcacheFlush = ((s.step i).ifu.fenceiState == .busy) ∧
      ((s.step i).ifu.fenceiState = .busy → (s.step i).ifu.axiState = .idle) := by
  have hFlush := h.flush
  have hBusy := h.busy
  change (s.ifu.fenceiBlock (s.ifuIn i)).outIcacheFlush =
      ((s.ifu.fenceiBlock (s.ifuIn i)).fenceiState == .busy) ∧
    ((s.ifu.fenceiBlock (s.ifuIn i)).fenceiState = .busy →
      (s.ifu.axiBlock (s.ifuIn i)).axiState = .idle)
  unfold Ifu.fenceiBlock
  cases hState : s.ifu.fenceiState with
  | idle =>
      rw [hState] at hFlush
      cases (s.ifuIn i).inFenceiDone <;> simp [hFlush]
  | busy => simp
  | wait =>
      rw [hState] at hFlush
      dsimp only
      split
      · -- the sequencer leaves its wait in a cycle with an idle channel
        rename_i hGo
        simp only [Bool.and_eq_true, beq_iff_eq] at hGo
        refine ⟨by simp, fun _ => ?_⟩
        have hMove := axiMove s.ifu (s.ifuIn i)
        generalize s.ifu.axiBlock (s.ifuIn i) = ax at hMove
        cases hMove <;> simp_all
      · simpa [hState] using hFlush

/-- A misaligned pc never becomes a request. -/
private theorem aligned_step (h : Link s) (hBusy : (s.step i).ifu.axiState ≠ .idle) :
    misaligned (s.step i).ifu.outstandingPc = false := by
  have hMove := axiMove s.ifu (s.ifuIn i)
  have hAligned := h.aligned
  change (s.ifu.axiBlock (s.ifuIn i)).axiState ≠ .idle at hBusy
  change misaligned (s.ifu.axiBlock (s.ifuIn i)).outstandingPc = false
  generalize s.ifu.axiBlock (s.ifuIn i) = ax at hMove hBusy
  cases hMove with
  | start _ _ _ _ _ hMis => exact hMis
  | rest | answered => exact absurd rfl hBusy
  | ask hSend | asked hSend => exact hAligned (by simp [hSend])
  | await hWait => exact hAligned (by simp [hWait])

/-- A refill always asks for the whole line. -/
private theorem len_step (h : Link s) (hSend : (s.step i).icache.state = .sendAr) :
    (s.step i).icache.arlen = 3 := by
  have hCache := cacheMove s.icache s.flush (s.ifuAxi i) i.axi
  have hLen := h.len
  change (s.icache.step s.flush (s.ifuAxi i) i.axi).state = .sendAr at hSend
  change (s.icache.step s.flush (s.ifuAxi i) i.axi).arlen = 3
  generalize s.icache.step s.flush (s.ifuAxi i) i.axi = c at hCache hSend
  cases hCache with
  | miss => rfl
  | flush | keep => exact hLen hSend
  | hit | respond | sent | last => cases hSend
  | beat _ hWait => simp [hWait] at hSend

/-- **The handshake through one edge.** -/
theorem link_step (h : Link s) : Link (s.step i) where
  wait := wait_step h
  rvalid := (valids_step h).1
  arvalid := (valids_step h).2
  flush := (sequencer_step h).1
  busy := (sequencer_step h).2
  aligned := aligned_step h
  len := len_step h

end Step

end Riscv32.Cache
