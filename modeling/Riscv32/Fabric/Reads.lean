import Riscv32.Clocked.Burst
import Riscv32.Fabric.Grant

/-!
# Reads in flight

Over whole runs of the fabric: the read that owns the bus is the last one
accepted, and it has received fewer beats than it asked for, each taken by its
master in the cycle its slave gave it; when nobody owns the bus the last read
is complete.  The slave behind `io_master` flags the last beat of each burst.

The timer answers with one beat and no flag.  A refill aimed at it therefore
never ends: its owner keeps the bus with no slave selected.  The invariant keeps
this case (the last alternative of `Outstanding`), so that it holds in every run
and not only where fetches stay away from the timer.

`routeInv` is the invariant in every cycle; `owned_hold`, `owned_beat`,
`free_last` and `free_keep` are the edges it is made of.
-/

namespace Riscv32.Fabric

open Riscv32.Rtl
open Riscv32.Cache
open Riscv32.Clocked

/-! ## Events of a run -/

/-- An accepted read request: who asked, who was asked, and for what. -/
structure ReadReq where
  master : Owner
  slave : SlaveOwner
  addr : Word
  len : BitVec 8
deriving DecidableEq, Repr

section Run

variable (s : Fabric) (inp : Nat → FabricIn)

def fabricAt (t : Nat) : Fabric := run Fabric.step s inp t

theorem fabricAt_succ (t : Nat) :
    fabricAt s inp (t + 1) = (fabricAt s inp t).step (inp t) := rfl

/-- The read accepted on the bus in cycle `t`. -/
def readAr (t : Nat) : Option ReadReq :=
  if arbAr (fabricAt s inp t) (inp t) then
    some
      { master := (fabricAt s inp t).arb.readGrant
        slave := if inClint (fabricAt s inp t).arbReq.araddr then .clint else .soc
        addr := (fabricAt s inp t).arbReq.araddr
        len := (fabricAt s inp t).arbReq.arlen }
  else none

/-- The request accepted off chip in cycle `t`: its address and `arlen`. -/
def socAr (t : Nat) : Option (Word × BitVec 8) :=
  if arFire (fabricAt s inp t).socReq (inp t).soc then
    some ((fabricAt s inp t).socReq.araddr, (fabricAt s inp t).socReq.arlen)
  else none

/-- The beat taken from off chip in cycle `t`. -/
def socBeat (t : Nat) : Option Word :=
  if rFire (fabricAt s inp t).socReq (inp t).soc then some (inp t).soc.rdata else none

/-- The beat taken from the timer in cycle `t`. -/
def clintBeat (t : Nat) : Option Word :=
  if rFire (fabricAt s inp t).clintReq (inp t).clint then some (inp t).clint.rdata else none

/-- The beats taken from a slave. -/
def slaveBeat (slave : SlaveOwner) (t : Nat) : Option Word :=
  match slave with
  | .soc => socBeat s inp t
  | .clint => clintBeat s inp t
  | .idle => none

/-- The beat taken by a master in cycle `t`. -/
def masterBeat (master : Owner) (t : Nat) : Option Word :=
  match master with
  | .lsu =>
      if rFire (fabricAt s inp t).lsu.axi ((fabricAt s inp t).lsuResp (inp t)) then
        some ((fabricAt s inp t).lsuResp (inp t)).rdata
      else none
  | .ifu =>
      if rFire (fabricAt s inp t).icache.axiOut ((fabricAt s inp t).icacheResp (inp t)) then
        some ((fabricAt s inp t).icacheResp (inp t)).rdata
      else none
  | .idle => none

/-- The slave behind `io_master` flags exactly the last beat of each burst. -/
def SocBursts : Prop :=
  LastOnBeat (socAr s inp) (fun b => b.2.toNat) (socBeat s inp) fun t => (inp t).soc.rlast

/-- `r`, accepted in cycle `a`, is the last read accepted before cycle `t`. -/
structure LastRead (a : Nat) (r : ReadReq) (t : Nat) : Prop where
  before : a < t
  ar : readAr s inp a = some r
  quiet : QuietBetween (readAr s inp) a t

/-- Beats of a read accepted in cycle `a`. -/
def beatsOf (a : Nat) (r : ReadReq) (t : Nat) : Nat :=
  (logFrom (slaveBeat s inp r.slave) (a + 1) t).length

end Run

section Events

variable {s : Fabric} {inp : Nat → FabricIn} {a a' t : Nat} {r r' : ReadReq}

/-- There is one last read. -/
theorem LastRead.unique (h : LastRead s inp a r t) (h' : LastRead s inp a' r' t) :
    a = a' ∧ r = r' := by
  rcases Nat.lt_trichotomy a a' with hLt | rfl | hGt
  · have hNone := h.quiet a' hLt h'.before
    rw [h'.ar] at hNone
    cases hNone
  · exact ⟨rfl, Option.some.inj (h.ar.symm.trans h'.ar)⟩
  · have hNone := h'.quiet a hGt h.before
    rw [h.ar] at hNone
    cases hNone

theorem LastRead.succ (h : LastRead s inp a r t) (hNone : readAr s inp t = none) :
    LastRead s inp a r (t + 1) :=
  ⟨Nat.lt_succ_of_lt h.before, h.ar, h.quiet.succ hNone⟩

theorem LastRead.pred (h : LastRead s inp a r (t + 1)) (hNone : readAr s inp t = none) :
    LastRead s inp a r t := by
  have hNe : a ≠ t := by
    rintro rfl
    rw [h.ar] at hNone
    cases hNone
  have hBefore := h.before
  exact ⟨by omega, h.ar, fun k h1 h2 => h.quiet k h1 (by omega)⟩

/-- What an off-chip read looks like on the port. -/
theorem socAr_of_readAr (hAr : readAr s inp t = some r) (hSlave : r.slave = .soc) :
    socAr s inp t = some (r.addr, r.len) := by
  unfold readAr at hAr
  split at hAr
  · rename_i hFire
    cases hAr
    have hOut : inClint (fabricAt s inp t).arbReq.araddr = false := by
      cases hIn : inClint (fabricAt s inp t).arbReq.araddr with
      | false => rfl
      | true => simp [hIn] at hSlave
    have hSoc : arFire (fabricAt s inp t).socReq (inp t).soc = true := by
      rw [socAr_eq, hOut, hFire]
      rfl
    rw [socAr, if_pos hSoc]
    simp [Fabric.socReq, SocXbar.axiSoc, hOut]
  · cases hAr

theorem readAr_none (h : arbAr (fabricAt s inp t) (inp t) = false) : readAr s inp t = none := by
  simp [readAr, h]

theorem socAr_none (h : readAr s inp t = none) : socAr s inp t = none := by
  have hNo : arbAr (fabricAt s inp t) (inp t) = false := by
    cases hFire : arbAr (fabricAt s inp t) (inp t) with
    | false => rfl
    | true => simp [readAr, hFire] at h
  simp [socAr, socAr_eq, hNo]

theorem QuietBetween.soc (h : QuietBetween (readAr s inp) a t) :
    QuietBetween (socAr s inp) a t := fun k h1 h2 => socAr_none (h k h1 h2)

theorem arbAr_of_readAr (hAr : readAr s inp t = some r) :
    arbAr (fabricAt s inp t) (inp t) = true := by
  cases hFire : arbAr (fabricAt s inp t) (inp t) with
  | true => rfl
  | false => simp [readAr, hFire] at hAr

/-- The slave asked is off chip or the timer. -/
theorem slave_of_readAr (hAr : readAr s inp t = some r) :
    r.slave = if inClint r.addr then .clint else .soc := by
  rw [readAr, if_pos (arbAr_of_readAr hAr)] at hAr
  cases hAr
  rfl

theorem slave_ne_idle (hAr : readAr s inp t = some r) : r.slave ≠ .idle := by
  rw [slave_of_readAr hAr]
  cases inClint r.addr <;> simp

/-- A refill asks for four beats, a load for one. -/
theorem len_of_readAr (h : BusInv (fabricAt s inp t)) (hAr : readAr s inp t = some r) :
    (r.master = .lsu → r.len = 0) ∧ (r.master = .ifu → r.len = 3) := by
  rw [readAr, if_pos (arbAr_of_readAr hAr)] at hAr
  cases hAr
  constructor
  · intro hLsu
    have hGrant : (fabricAt s inp t).arb.readGrant = .lsu := hLsu
    simp [Fabric.arbReq, Arbiter.axiArb, Arbiter.granted, hGrant, Lsu.axi]
  · intro hIfu
    have hGrant : (fabricAt s inp t).arb.readGrant = .ifu := hIfu
    have hLen : (fabricAt s inp t).icache.arlen = 3 := h.link.len (h.grantIfu hGrant)
    simp [Fabric.arbReq, Arbiter.axiArb, Arbiter.granted, hGrant, Icache.axiOut, hLen]

end Events

/-! ## The invariant -/

/-- The read that owns the bus.  The last alternative of `slave` is the refill
the timer has answered with its only beat. -/
structure Outstanding (s : Fabric) (inp : Nat → FabricIn) (t a : Nat) (r : ReadReq) : Prop
    extends LastRead s inp a r t where
  master : r.master = (fabricAt s inp t).arb.readOwner
  slave : r.slave = (fabricAt s inp t).xbar.readSlave ∨
    (r.master = .ifu ∧ r.slave = .clint ∧ (fabricAt s inp t).xbar.readSlave = .idle)
  log : logFrom (masterBeat s inp r.master) (a + 1) t = logFrom (slaveBeat s inp r.slave) (a + 1) t
  beats : beatsOf s inp a r t ≤ r.len.toNat
  clintBeats : (fabricAt s inp t).xbar.readSlave = .clint → beatsOf s inp a r t = 0
  lsuLen : r.master = .lsu → r.len = 0
  ifuLen : r.master = .ifu → r.len = 3

structure RouteInv (s : Fabric) (inp : Nat → FabricIn) (t : Nat) : Prop where
  bus : BusInv (fabricAt s inp t)
  owned : (fabricAt s inp t).arb.readOwner ≠ .idle → ∃ a r, Outstanding s inp t a r
  free : (fabricAt s inp t).arb.readOwner = .idle → (fabricAt s inp t).xbar.readSlave = .idle
  complete : (fabricAt s inp t).arb.readOwner = .idle → ∀ a r, LastRead s inp a r t →
    beatsOf s inp a r t = r.len.toNat + 1

theorem routeInv_zero {s : Fabric} {inp : Nat → FabricIn} (h : s.AfterReset) :
    RouteInv s inp 0 := by
  refine ⟨busInv_reset h, ?_, fun _ => h.xbar, ?_⟩
  · intro hOwner
    exact absurd (show s.arb.readOwner = .idle by rw [h.arb]; rfl) hOwner
  · intro _ a r hLast
    exact absurd hLast.before (Nat.not_lt_zero a)

section Step

variable {s : Fabric} {inp : Nat → FabricIn} {t a : Nat} {r : ReadReq}

/-! ### Beats -/

/-- A beat of the bus comes from the slave that was asked. -/
theorem Outstanding.selected (h : Outstanding s inp t a r)
    (hFire : arbR (fabricAt s inp t) (inp t) = true) :
    r.slave = (fabricAt s inp t).xbar.readSlave := by
  rcases h.slave with hSlave | ⟨-, -, hIdle⟩
  · exact hSlave
  · simp [arbR, rFire, Fabric.arbResp, SocXbar.axiArb, hIdle] at hFire

theorem slaveBeat_some (h : Outstanding s inp t a r)
    (hFire : arbR (fabricAt s inp t) (inp t) = true) :
    slaveBeat s inp r.slave t = some ((fabricAt s inp t).arbResp (inp t)).rdata := by
  have hSlave := h.selected hFire
  have hSel : (fabricAt s inp t).xbar.readSlave ≠ .idle := hSlave ▸ slave_ne_idle h.ar
  cases hX : (fabricAt s inp t).xbar.readSlave with
  | idle => exact absurd hX hSel
  | soc =>
      rw [hX] at hSlave
      simp [hSlave, slaveBeat, socBeat, socR_eq (.inl hSel), hX, hFire, Fabric.arbResp,
        SocXbar.axiArb]
  | clint =>
      rw [hX] at hSlave
      simp [hSlave, slaveBeat, clintBeat, clintR_eq, hX, hFire, Fabric.arbResp, SocXbar.axiArb]

theorem clintBeat_none (hNo : arbR (fabricAt s inp t) (inp t) = false) :
    clintBeat s inp t = none := by
  simp [clintBeat, clintR_eq, hNo]

/-- Without a beat on the bus the slave that was asked gives none. -/
theorem slaveBeat_none (h : Outstanding s inp t a r)
    (hNo : arbR (fabricAt s inp t) (inp t) = false) : slaveBeat s inp r.slave t = none := by
  cases hSlave : r.slave with
  | idle => rfl
  | clint => exact clintBeat_none hNo
  | soc =>
      have hX : (fabricAt s inp t).xbar.readSlave = .soc := by
        rcases h.slave with hSel | ⟨-, hClint, -⟩
        · exact hSel.symm.trans hSlave
        · rw [hSlave] at hClint
          cases hClint
      have hSel : (fabricAt s inp t).xbar.readSlave ≠ .idle := by simp [hX]
      simp [slaveBeat, socBeat, socR_eq (.inl hSel), hNo]

/-- A free bus takes no beat from anybody. -/
theorem slaveBeat_free (slave : SlaveOwner) (hOwner : (fabricAt s inp t).arb.readOwner = .idle) :
    slaveBeat s inp slave t = none := by
  have hNo := arbR_idle (inp t) hOwner
  cases slave with
  | idle => rfl
  | soc => simp [slaveBeat, socBeat, socR_eq (.inr hOwner), hNo]
  | clint => exact clintBeat_none hNo

/-- The owner takes the beats of the bus. -/
theorem masterBeat_owner (s : Fabric) (inp : Nat → FabricIn) (t : Nat) :
    masterBeat s inp (fabricAt s inp t).arb.readOwner t =
      if arbR (fabricAt s inp t) (inp t) then
        some ((fabricAt s inp t).arbResp (inp t)).rdata
      else none := by
  cases hO : (fabricAt s inp t).arb.readOwner with
  | idle =>
      simp [masterBeat, arbR_idle (inp t) hO]
  | lsu =>
      simp only [masterBeat, lsuR_eq, hO]
      simp [Fabric.lsuResp, Arbiter.axiLsu, hO]
  | ifu =>
      simp only [masterBeat, icacheR_eq, hO]
      simp [Fabric.icacheResp, Arbiter.axiIfu, hO]

/-- Master and slave see the same beats. -/
private theorem log_succ (h : Outstanding s inp t a r) :
    logFrom (masterBeat s inp r.master) (a + 1) (t + 1) =
      logFrom (slaveBeat s inp r.slave) (a + 1) (t + 1) := by
  have hMaster := masterBeat_owner s inp t
  rw [← h.master] at hMaster
  rw [logFrom_succ _ h.before, logFrom_succ _ h.before, h.log, hMaster]
  cases hR : arbR (fabricAt s inp t) (inp t) with
  | true => rw [slaveBeat_some h hR]; rfl
  | false => rw [slaveBeat_none h hR]; rfl

/-- The flag of an off-chip beat says whether the burst is complete. -/
theorem soc_last_iff (hSoc : SocBursts s inp) (h : Outstanding s inp t a r)
    (hFire : arbR (fabricAt s inp t) (inp t) = true) (hSlave : r.slave = .soc) :
    ((fabricAt s inp t).arbResp (inp t)).rlast = true ↔ beatsOf s inp a r t = r.len.toNat := by
  have hBeat := slaveBeat_some h hFire
  have hEv : slaveBeat s inp r.slave = socBeat s inp := by
    funext k
    rw [hSlave]
    rfl
  have hX : (fabricAt s inp t).xbar.readSlave = .soc := (h.selected hFire).symm.trans hSlave
  have hFlag : ((fabricAt s inp t).arbResp (inp t)).rlast = (inp t).soc.rlast := by
    simp [Fabric.arbResp, SocXbar.axiArb, hX]
  rw [hEv] at hBeat
  rw [hFlag, beatsOf, hEv]
  exact hSoc a t _ h.before (socAr_of_readAr h.ar hSlave) (QuietBetween.soc h.quiet)
    (by simp [hBeat])

/-- The timer never flags a beat. -/
theorem clint_no_last (h : (fabricAt s inp t).xbar.readSlave ≠ .soc) :
    ((fabricAt s inp t).arbResp (inp t)).rlast = false := by
  simp [Fabric.arbResp, SocXbar.axiArb, h]

theorem beatsOf_keep (ha : a < t) (hNo : slaveBeat s inp r.slave t = none) :
    beatsOf s inp a r (t + 1) = beatsOf s inp a r t := by
  rw [beatsOf, beatsOf, logFrom_none ha hNo]

theorem beatsOf_beat (h : Outstanding s inp t a r)
    (hFire : arbR (fabricAt s inp t) (inp t) = true) :
    beatsOf s inp a r (t + 1) = beatsOf s inp a r t + 1 := by
  rw [beatsOf, beatsOf, logFrom_some h.before (slaveBeat_some h hFire), List.length_append]
  rfl

/-! ### One lemma for each move -/

private theorem owned_accept (h : RouteInv s inp t)
    (hFire : arbAr (fabricAt s inp t) (inp t) = true)
    (hOwner : (fabricAt s inp (t + 1)).arb.readOwner = (fabricAt s inp t).arb.readGrant) :
    ∃ a r, Outstanding s inp (t + 1) a r := by
  have hAr : ∃ r, readAr s inp t = some r ∧ r.master = (fabricAt s inp t).arb.readGrant ∧
      r.slave = (fabricAt s inp (t + 1)).xbar.readSlave := by
    refine ⟨_, by rw [readAr, if_pos hFire], rfl, ?_⟩
    rw [fabricAt_succ, readSlave_step, if_pos hFire]
  obtain ⟨r, hAr, hMaster, hSlave⟩ := hAr
  have hNone : beatsOf s inp t r (t + 1) = 0 := by simp [beatsOf, logFrom_self]
  obtain ⟨hLsu, hIfu⟩ := len_of_readAr h.bus hAr
  exact ⟨t, r, ⟨⟨Nat.lt_succ_self t, hAr, quietBetween_next _ t⟩, hMaster.trans hOwner.symm,
    .inl hSlave, by rw [logFrom_self, logFrom_self], by omega, fun _ => hNone, hLsu, hIfu⟩⟩

/-- With the owner unchanged and no beat the outstanding read stays. -/
private theorem owned_hold (h : RouteInv s inp t)
    (hAr : arbAr (fabricAt s inp t) (inp t) = false)
    (hR : arbR (fabricAt s inp t) (inp t) = false)
    (hOwner : (fabricAt s inp (t + 1)).arb.readOwner = (fabricAt s inp t).arb.readOwner)
    (hOwned : (fabricAt s inp t).arb.readOwner ≠ .idle) :
    ∃ a r, Outstanding s inp (t + 1) a r := by
  obtain ⟨a, r, hOut⟩ := h.owned hOwned
  have hSame : (fabricAt s inp (t + 1)).xbar.readSlave = (fabricAt s inp t).xbar.readSlave := by
    rw [fabricAt_succ, readSlave_step]
    simp [hAr, hR]
  have hBeats := beatsOf_keep hOut.before (slaveBeat_none hOut hR)
  refine ⟨a, r, ⟨hOut.toLastRead.succ (readAr_none hAr), hOut.master.trans hOwner.symm, ?_,
    log_succ hOut, ?_, ?_, hOut.lsuLen, hOut.ifuLen⟩⟩
  · rw [hSame]
    exact hOut.slave
  · rw [hBeats]
    exact hOut.beats
  · rw [hSame, hBeats]
    exact hOut.clintBeats

/-- A beat of a refill that is not the last: off chip the burst goes on, the
timer falls silent. -/
private theorem owned_beat (h : RouteInv s inp t) (hSoc : SocBursts s inp)
    (hAr : arbAr (fabricAt s inp t) (inp t) = false)
    (hR : arbR (fabricAt s inp t) (inp t) = true)
    (hIfu : (fabricAt s inp t).arb.readOwner = .ifu)
    (hLast : ((fabricAt s inp t).arbResp (inp t)).rlast = false)
    (hOwner : (fabricAt s inp (t + 1)).arb.readOwner = .ifu) :
    ∃ a r, Outstanding s inp (t + 1) a r := by
  obtain ⟨a, r, hOut⟩ := h.owned (by simp [hIfu])
  have hMaster : r.master = .ifu := hOut.master.trans hIfu
  have hSel := hOut.selected hR
  have hBeats := beatsOf_beat hOut hR
  have hBound := hOut.beats
  have hSlaveNext : (fabricAt s inp (t + 1)).xbar.readSlave = _ :=
    readSlave_step (fabricAt s inp t) (inp t)
  refine ⟨a, r, ⟨hOut.toLastRead.succ (readAr_none hAr), hMaster.trans hOwner.symm, ?_,
    log_succ hOut, ?_, ?_, hOut.lsuLen, hOut.ifuLen⟩⟩
  · cases hSlave : r.slave with
    | idle => exact absurd hSlave (slave_ne_idle hOut.ar)
    | soc => left; simp [hSlaveNext, hAr, hR, ← hSel, hSlave, hLast]
    | clint => right; simp [hSlaveNext, hAr, hR, ← hSel, hSlave, hMaster]
  · rw [hBeats]
    cases hSlave : r.slave with
    | idle => exact absurd hSlave (slave_ne_idle hOut.ar)
    | soc =>
        have hMore : beatsOf s inp a r t ≠ r.len.toNat := fun hEnd => by
          rw [(soc_last_iff hSoc hOut hR hSlave).mpr hEnd] at hLast
          cases hLast
        omega
    | clint =>
        have hNone := hOut.clintBeats (hSel.symm.trans hSlave)
        have hLen : r.len.toNat = 3 := by rw [hOut.ifuLen hMaster]; rfl
        omega
  · intro hClint
    cases hX : (fabricAt s inp t).xbar.readSlave <;> simp [hSlaveNext, hAr, hR, hX, hLast] at hClint

/-- The last beat frees owner and slave together. -/
private theorem free_last (h : RouteInv s inp t) (hSoc : SocBursts s inp)
    (hAr : arbAr (fabricAt s inp t) (inp t) = false)
    (hR : arbR (fabricAt s inp t) (inp t) = true)
    (hOwned : (fabricAt s inp t).arb.readOwner ≠ .idle)
    (hEnd : (fabricAt s inp t).arb.readOwner = .lsu ∨
      ((fabricAt s inp t).arbResp (inp t)).rlast = true) :
    (fabricAt s inp (t + 1)).xbar.readSlave = .idle ∧
      ∀ a r, LastRead s inp a r (t + 1) → beatsOf s inp a r (t + 1) = r.len.toNat + 1 := by
  obtain ⟨a, r, hOut⟩ := h.owned hOwned
  have hBeats := hOut.beats
  have hSel := hOut.selected hR
  have hLsuLen : (fabricAt s inp t).arb.readOwner = .lsu → r.len.toNat = 0 := fun hLsu => by
    rw [hOut.lsuLen (hOut.master.trans hLsu)]
    rfl
  -- off chip the flag is set, on the timer there is one beat
  have hKey : (r.slave = .soc → ((fabricAt s inp t).arbResp (inp t)).rlast = true) ∧
      beatsOf s inp a r t = r.len.toNat := by
    cases hSlave : r.slave with
    | idle => exact absurd hSlave (slave_ne_idle hOut.ar)
    | soc =>
        have hIff := soc_last_iff hSoc hOut hR hSlave
        rcases hEnd with hLsu | hLast
        · have hAll : beatsOf s inp a r t = r.len.toNat := by
            have := hLsuLen hLsu
            omega
          exact ⟨fun _ => hIff.mpr hAll, hAll⟩
        · exact ⟨fun _ => hLast, hIff.mp hLast⟩
    | clint =>
        refine ⟨by simp, ?_⟩
        have hLsu : (fabricAt s inp t).arb.readOwner = .lsu := by
          rcases hEnd with hLsu | hLast
          · exact hLsu
          · rw [clint_no_last (by simp [← hSel, hSlave])] at hLast
            cases hLast
        have := hLsuLen hLsu
        omega
  constructor
  · rw [fabricAt_succ, readSlave_step]
    cases hX : (fabricAt s inp t).xbar.readSlave with
    | idle => simp [hAr, hR]
    | clint => simp [hAr, hR]
    | soc => simp [hAr, hR, hKey.1 (hSel.trans hX)]
  · intro a' r' hLast
    obtain ⟨rfl, rfl⟩ := hOut.toLastRead.unique (hLast.pred (readAr_none hAr))
    rw [beatsOf_beat hOut hR, hKey.2]

/-- With the bus free and no request accepted it stays free. -/
private theorem free_keep (h : RouteInv s inp t)
    (hOwner : (fabricAt s inp t).arb.readOwner = .idle)
    (hAr : arbAr (fabricAt s inp t) (inp t) = false) :
    (fabricAt s inp (t + 1)).xbar.readSlave = .idle ∧
      ∀ a r, LastRead s inp a r (t + 1) → beatsOf s inp a r (t + 1) = r.len.toNat + 1 := by
  have hR := arbR_idle (inp t) hOwner
  constructor
  · rw [fabricAt_succ, readSlave_step]
    simp [hAr, hR, h.free hOwner]
  · intro a r hLast
    have hOld := hLast.pred (readAr_none hAr)
    rw [beatsOf_keep hOld.before (slaveBeat_free _ hOwner)]
    exact h.complete hOwner a r hOld

theorem routeInv_succ (h : RouteInv s inp t) (hSoc : SocBursts s inp) :
    RouteInv s inp (t + 1) := by
  have hBus : BusInv (fabricAt s inp (t + 1)) := busInv_step h.bus
  have hMove : ReadMove (fabricAt s inp t) (inp t) (fabricAt s inp (t + 1)).arb.readGrant
      (fabricAt s inp (t + 1)).arb.readOwner := readMove h.bus.exclusive
  have hNoAr := @arbAr_idle (fabricAt s inp t) (inp t)
  generalize hg : (fabricAt s inp (t + 1)).arb.readGrant = g at hMove
  generalize ho : (fabricAt s inp (t + 1)).arb.readOwner = o at hMove
  cases hMove with
  | accept hGrant hOwner hFire =>
      refine ⟨hBus, fun _ => owned_accept h hFire ho, ?_, ?_⟩ <;>
        exact fun hBad => absurd (ho.symm.trans hBad) hGrant
  | wait hGrant hOwner hFire =>
      obtain ⟨h1, h2⟩ := free_keep h hOwner hFire
      exact ⟨hBus, fun hBad => absurd ho hBad, fun _ => h1, fun _ => h2⟩
  | grant hGrant hOwner =>
      obtain ⟨h1, h2⟩ := free_keep h hOwner (hNoAr hGrant)
      exact ⟨hBus, fun hBad => absurd ho hBad, fun _ => h1, fun _ => h2⟩
  | last hGrant hOwner hFire hEnd =>
      obtain ⟨h1, h2⟩ := free_last h hSoc (hNoAr hGrant) hFire hOwner hEnd
      exact ⟨hBus, fun hBad => absurd ho hBad, fun _ => h1, fun _ => h2⟩
  | beat hGrant hOwner hFire hLast =>
      refine ⟨hBus, fun _ => owned_beat h hSoc (hNoAr hGrant) hFire hOwner hLast ho, ?_, ?_⟩ <;>
        exact fun hBad => by simp [ho] at hBad
  | hold hGrant hOwner hFire =>
      refine ⟨hBus, fun _ => owned_hold h (hNoAr hGrant) hFire ho hOwner, ?_, ?_⟩ <;>
        exact fun hBad => absurd (ho.symm.trans hBad) hOwner

/-- The invariant holds in every cycle. -/
theorem routeInv (hReset : s.AfterReset) (hSoc : SocBursts s inp) (t : Nat) :
    RouteInv s inp t := by
  induction t with
  | zero => exact routeInv_zero hReset
  | succ t ih => exact routeInv_succ ih hSoc

end Step

end Riscv32.Fabric
