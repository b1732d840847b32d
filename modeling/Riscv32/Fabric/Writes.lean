import Riscv32.Clocked.Burst
import Riscv32.Clocked.Progress
import Riscv32.Rtl.Xbar

/-!
# Writes through the crossbar

The data of a write may reach the crossbar before, with or after its address.
It is passed on in the cycle it is taken when a slave is known by then, and
kept and replayed otherwise; `gotAw`, `gotW` and `sentW` tell the cases apart.

Master and slaves are arbitrary up to the rules of the bus: `MasterOk` and
`SlavesOk` for what may happen, `Fair` for what must not be put off forever.

A write is followed by what can be seen of it: `halves` of a link are the address
and the data transferred on it since the last response.  `Snap` is the state of
the crossbar in terms of these, and `Cycle` is what one cycle transfers.

## Main results

* `Snap.cycle`, `Snap.next` — every cycle is a `Cycle`, and carries the write on.
* `Snap.answered`, `Snap.close` — only a write that reached its slave is answered,
  and its answer leaves the crossbar at rest.
-/

namespace Riscv32.Fabric

open Riscv32.Rtl
open Riscv32.Clocked

/-! ## Runs -/

/-- What the master and the three slaves drive in a cycle. -/
structure XbarInput where
  arb : AxiReq
  slaves : XbarSlaves
deriving DecidableEq, Repr, Inhabited

/-- Where the window of a slave starts. -/
def slaveBase : XbarSel → Word
  | .uart => uartBase
  | .sram => sramBase
  | .clint => clintBase .npc
  | .idle => 0

/-- The port to a slave; `IDLE` has none. -/
def slavePort (x : Xbar) (i : XbarInput) : XbarSel → AxiReq
  | .uart => x.axiUart i.arb i.slaves
  | .sram => x.axiMem i.arb i.slaves
  | .clint => x.axiClint i.arb i.slaves
  | .idle => {}

/-- The two halves of the outstanding write that have been transferred. -/
structure Halves where
  aw : Bool
  w : Bool
deriving DecidableEq, Repr, Inhabited

/-- The halves before cycle `t` when `q` and `p` drive a link; a response
closes the write. -/
def halves (q : Nat → AxiReq) (p : Nat → AxiResp) : Nat → Halves
  | 0 => ⟨false, false⟩
  | t + 1 =>
    if bFire (q t) (p t) then ⟨false, false⟩
    else ⟨awFire (q t) (p t) || (halves q p t).aw, wFire (q t) (p t) || (halves q p t).w⟩

/-- The address transferred on a link in cycle `t`. -/
def awEvent (q : Nat → AxiReq) (p : Nat → AxiResp) (t : Nat) : Option Word :=
  if awFire (q t) (p t) then some (q t).awaddr else none

/-- The data and strobes transferred on a link in cycle `t`. -/
def wEvent (q : Nat → AxiReq) (p : Nat → AxiResp) (t : Nat) : Option (Word × BitVec 4) :=
  if wFire (q t) (p t) then some ((q t).wdata, (q t).wstrb) else none

/-- The response transferred on a link in cycle `t`. -/
def bEvent (q : Nat → AxiReq) (p : Nat → AxiResp) (t : Nat) : Option (BitVec 2) :=
  if bFire (q t) (p t) then some (p t).bresp else none

section Run

variable (s : Xbar) (inp : Nat → XbarInput)

def xbarAt (t : Nat) : Xbar := run (fun x i => x.step i.arb i.slaves) s inp t

/-- What the master drives, and what it sees. -/
def masterReq (t : Nat) : AxiReq := (inp t).arb

def masterResp (t : Nat) : AxiResp := (xbarAt s inp t).axiArb (inp t).arb (inp t).slaves

/-- What slave `x` sees, and what it drives. -/
def slaveReq (x : XbarSel) (t : Nat) : AxiReq := slavePort (xbarAt s inp t) (inp t) x

def slaveResp (x : XbarSel) (t : Nat) : AxiResp := (inp t).slaves.pick x

/-- The write of the master that is outstanding. -/
def masterHas : Nat → Halves := halves (masterReq inp) (masterResp s inp)

/-- What slave `x` has of a write it has not answered. -/
def slaveHas (x : XbarSel) : Nat → Halves := halves (slaveReq s inp x) (slaveResp inp x)

/-- One write at a time, to the memory or the console; what is offered stays
until it is taken. -/
structure MasterOk : Prop where
  once : ∀ t, (inp t).arb.awvalid = true → (masterHas s inp t).aw = false
  onceW : ∀ t, (inp t).arb.wvalid = true → (masterHas s inp t).w = false
  target : ∀ t, (inp t).arb.awvalid = true →
    xbarSel (inp t).arb.awaddr = .sram ∨ xbarSel (inp t).arb.awaddr = .uart
  hold : ∀ t, (inp t).arb.awvalid = true → (masterResp s inp t).awready = false →
    (inp (t + 1)).arb.awvalid = true ∧ (inp (t + 1)).arb.awaddr = (inp t).arb.awaddr
  holdW : ∀ t, (inp t).arb.wvalid = true → (masterResp s inp t).wready = false →
    (inp (t + 1)).arb.wvalid = true ∧ (inp (t + 1)).arb.wdata = (inp t).arb.wdata ∧
      (inp (t + 1)).arb.wstrb = (inp t).arb.wstrb

/-- A slave answers what it has received, and keeps the answer until it is
taken. -/
structure SlavesOk : Prop where
  answer : ∀ x t, (slaveResp inp x t).bvalid = true → slaveHas s inp x t = ⟨true, true⟩
  hold : ∀ x t, (slaveResp inp x t).bvalid = true → (slaveReq s inp x t).bready = false →
    (slaveResp inp x (t + 1)).bvalid = true

/-- The crossbar between two writes. -/
structure Rest (x : Xbar) : Prop where
  gotAw : x.gotAw = false
  gotW : x.gotW = false
  sentAw : x.sentAw = false
  sentW : x.sentW = false
  ownerWr : x.ownerWr = .idle

end Run

/-! ## One write -/

/-- The slave an accepted address belongs to. -/
def ownerOf (aw : Option Word) : XbarSel := aw.elim .idle xbarSel

theorem ownerOf_some (addr : Word) : ownerOf (some addr) = xbarSel addr := rfl

/-- Cycle `t` of a write that started in cycle `a`: of the master's halves
`aw` and `w` have been taken, and `sent` tells whether the data reached the
slave. -/
structure Snap (s : Xbar) (inp : Nat → XbarInput) (a t : Nat) (aw : Option Word)
    (w : Option (Word × BitVec 4)) (sent : Bool) : Prop where
  gotAw : (xbarAt s inp t).gotAw = aw.isSome
  gotW : (xbarAt s inp t).gotW = w.isSome
  sentAw : (xbarAt s inp t).sentAw = aw.isSome
  sentW : (xbarAt s inp t).sentW = sent
  owner : (xbarAt s inp t).ownerWr = ownerOf aw
  kept : ∀ d, w = some d → sent = false →
    ((xbarAt s inp t).wdataR, (xbarAt s inp t).wstrbR) = d
  both : sent = true → aw.isSome = true ∧ w.isSome = true
  target : ∀ addr, aw = some addr → xbarSel addr = .sram ∨ xbarSel addr = .uart
  master : masterHas s inp t = ⟨aw.isSome, w.isSome⟩
  slave : ∀ y, slaveHas s inp y t = if y = ownerOf aw then ⟨aw.isSome, sent⟩ else ⟨false, false⟩
  order : a ≤ t
  masterAw : logFrom (awEvent (masterReq inp) (masterResp s inp)) a t = aw.toList
  masterW : logFrom (wEvent (masterReq inp) (masterResp s inp)) a t = w.toList
  masterB : logFrom (bEvent (masterReq inp) (masterResp s inp)) a t = []
  slaveAw : ∀ y, logFrom (awEvent (slaveReq s inp y) (slaveResp inp y)) a t =
    if y = ownerOf aw then (aw.map (· - slaveBase y)).toList else []
  slaveW : ∀ y, logFrom (wEvent (slaveReq s inp y) (slaveResp inp y)) a t =
    if y = ownerOf aw ∧ sent = true then w.toList else []

/-- The data goes to the slave in cycle `t`. -/
def passes (inp : Nat → XbarInput) (t : Nat) (aw : Option Word) (w : Option (Word × BitVec 4))
    (sent : Bool) : Bool :=
  !sent && aw.isSome && w.isSome && (slaveResp inp (ownerOf aw) t).wready

/-- What one cycle of a write transfers besides a response: `eAw` and `eW`
from the master, to the slave the address at once and the data when both
halves are there. -/
structure Cycle (s : Xbar) (inp : Nat → XbarInput) (t : Nat) (aw : Option Word)
    (w : Option (Word × BitVec 4)) (sent : Bool) (eAw : Option Word)
    (eW : Option (Word × BitVec 4)) : Prop where
  masterAw : awEvent (masterReq inp) (masterResp s inp) t = eAw
  masterW : wEvent (masterReq inp) (masterResp s inp) t = eW
  onceAw : aw.isSome = true → eAw = none
  onceW : w.isSome = true → eW = none
  target : ∀ addr, eAw = some addr → xbarSel addr = .sram ∨ xbarSel addr = .uart
  slaveAw : ∀ y, awEvent (slaveReq s inp y) (slaveResp inp y) t =
    if y = ownerOf (aw.or eAw) then eAw.map (· - slaveBase y) else none
  slaveW : ∀ y, wEvent (slaveReq s inp y) (slaveResp inp y) t =
    if y = ownerOf (aw.or eAw) ∧ passes inp t (aw.or eAw) (w.or eW) sent = true then w.or eW
    else none
  buffered : eW.isSome = true → passes inp t (aw.or eAw) (w.or eW) sent = false →
    aw.or eAw = none

section Step

variable {s : Xbar} {inp : Nat → XbarInput} {a t : Nat} {aw : Option Word}
  {w : Option (Word × BitVec 4)} {sent : Bool}

theorem snap_rest (hRest : Rest (xbarAt s inp t)) (hMaster : masterHas s inp t = ⟨false, false⟩)
    (hSlave : ∀ y, slaveHas s inp y t = ⟨false, false⟩) : Snap s inp t t none none false where
  gotAw := hRest.gotAw
  gotW := hRest.gotW
  sentAw := hRest.sentAw
  sentW := hRest.sentW
  owner := hRest.ownerWr
  kept := by simp
  both := by simp
  target := by simp
  master := hMaster
  slave := by
    intro y
    rw [hSlave]
    split <;> rfl
  order := Nat.le_refl t
  masterAw := logFrom_self _ _
  masterW := logFrom_self _ _
  masterB := logFrom_self _ _
  slaveAw := by
    intro y
    rw [logFrom_self]
    split <;> rfl
  slaveW := by simp [logFrom_self]

/-- A write that lacks a half has not been sent. -/
theorem Snap.sent_false (h : Snap s inp a t aw w sent) (hOpen : aw = none ∨ w = none) :
    sent = false := by
  by_contra hSent
  obtain ⟨hAw, hW⟩ := h.both (by simpa using hSent)
  rcases hOpen with rfl | rfl
  · simp at hAw
  · simp at hW

theorem xbarAt_succ (t : Nat) :
    xbarAt s inp (t + 1) = (xbarAt s inp t).step (inp t).arb (inp t).slaves := rfl

/-- The write side of a slave's port. -/
theorem slaveReq_write (y : XbarSel) (hy : y ≠ .idle) :
    (slaveReq s inp y t).awvalid =
        (xbarSel (inp t).arb.awaddr == y && (inp t).arb.awvalid) ∧
      (slaveReq s inp y t).awaddr =
        (if xbarSel (inp t).arb.awaddr = y then (inp t).arb.awaddr - slaveBase y else 0) ∧
      (slaveReq s inp y t).bready = ((xbarAt s inp t).ownerWr == y && (inp t).arb.bready) ∧
      (slaveReq s inp y t).wvalid =
        ((xbarAt s inp t).wTo (inp t).arb (inp t).slaves y).wvalid ∧
      (slaveReq s inp y t).wdata =
        ((xbarAt s inp t).wTo (inp t).arb (inp t).slaves y).wdata ∧
      (slaveReq s inp y t).wstrb =
        ((xbarAt s inp t).wTo (inp t).arb (inp t).slaves y).wstrb := by
  cases y with
  | idle => exact absurd rfl hy
  | uart | sram | clint => exact ⟨rfl, rfl, rfl, rfl, rfl, rfl⟩

/-- No slave sees a response taken that the master does not take. -/
theorem slave_bFire (hB : bFire (masterReq inp t) (masterResp s inp t) = false) (y : XbarSel) :
    bFire (slaveReq s inp y t) (slaveResp inp y t) = false := by
  by_cases hy : y = .idle
  · subst hy
    rfl
  · obtain ⟨-, -, hReady, -⟩ := @slaveReq_write s inp t y hy
    rw [bFire, hReady]
    by_cases hOwner : (xbarAt s inp t).ownerWr = y
    · subst hOwner
      simpa [bFire, masterReq, masterResp, Xbar.axiArb, slaveResp] using hB
    · simp [hOwner]

/-- Whether an event happens is whether its handshake does. -/
theorem isSome_event {α : Type} {c : Bool} {v : α} {e : Option α}
    (h : (if c = true then some v else none) = e) : c = e.isSome := by
  cases c <;> simp [← h]

theorem toList_or {α : Type} {o e : Option α} (h : o.isSome = true → e = none) :
    (o.or e).toList = o.toList ++ e.toList := by
  cases o with
  | none => rfl
  | some v => simp [h rfl]

section Next

variable {eAw : Option Word} {eW : Option (Word × BitVec 4)}

/-- Handshakes of a cycle as events. -/
private theorem Cycle.fires (c : Cycle s inp t aw w sent eAw eW) :
    Xbar.fireAw (inp t).arb (inp t).slaves = eAw.isSome ∧
      (xbarAt s inp t).fireW (inp t).arb (inp t).slaves = eW.isSome ∧
      (∀ y, awFire (slaveReq s inp y t) (slaveResp inp y t) =
        (decide (y = ownerOf (aw.or eAw)) && eAw.isSome)) ∧
      (∀ y, wFire (slaveReq s inp y t) (slaveResp inp y t) =
        (decide (y = ownerOf (aw.or eAw)) && passes inp t (aw.or eAw) (w.or eW) sent)) := by
  refine ⟨isSome_event c.masterAw, isSome_event c.masterW, fun y => ?_, fun y => ?_⟩
  · rw [isSome_event (c.slaveAw y)]
    by_cases hy : y = ownerOf (aw.or eAw) <;> simp [hy]
  · rw [isSome_event (c.slaveW y)]
    by_cases hy : y = ownerOf (aw.or eAw)
    · cases hPass : passes inp t (aw.or eAw) (w.or eW) sent with
      | false => simp
      | true =>
          simp only [passes, Bool.and_eq_true] at hPass
          simpa [hy] using hPass.1.2
    · simp [hy]

/-- The owner after a cycle is the memory or the console, if there is one. -/
private theorem Snap.owner_next (h : Snap s inp a t aw w sent)
    (hTarget : ∀ addr, eAw = some addr → xbarSel addr = .sram ∨ xbarSel addr = .uart)
    (hSome : (aw.or eAw).isSome = true) :
    ownerOf (aw.or eAw) = .sram ∨ ownerOf (aw.or eAw) = .uart := by
  cases aw with
  | some addr => exact h.target addr rfl
  | none =>
      cases hE : eAw with
      | none => simp [hE] at hSome
      | some addr => exact hTarget addr hE

/-- What the master has given, and the slaves have received, after a cycle. -/
private theorem Snap.halves_next (h : Snap s inp a t aw w sent)
    (c : Cycle s inp t aw w sent eAw eW)
    (hB : bFire (masterReq inp t) (masterResp s inp t) = false) :
    masterHas s inp (t + 1) = ⟨(aw.or eAw).isSome, (w.or eW).isSome⟩ ∧
      ∀ y, slaveHas s inp y (t + 1) = if y = ownerOf (aw.or eAw) then
        ⟨(aw.or eAw).isSome, sent || passes inp t (aw.or eAw) (w.or eW) sent⟩
      else ⟨false, false⟩ := by
  obtain ⟨hAw, hW, hSlaveAw, hSlaveW⟩ := c.fires
  constructor
  · have hMaster := h.master
    rw [masterHas] at hMaster
    rw [masterHas, halves, if_neg (by simp [hB]), hMaster, isSome_event c.masterAw,
      isSome_event c.masterW]
    simp [Bool.or_comm]
  · intro y
    have hSlave := h.slave y
    rw [slaveHas] at hSlave
    rw [slaveHas, halves, if_neg (by simp [slave_bFire hB]), hSlave, hSlaveAw, hSlaveW]
    cases aw with
    | none =>
        have hSent : sent = false := h.sent_false (.inl rfl)
        have hOld : (if y = ownerOf none then (⟨(none : Option Word).isSome, sent⟩ : Halves)
            else ⟨false, false⟩) = ⟨false, false⟩ := by
          rw [hSent]
          split <;> rfl
        rw [hOld, Option.none_or]
        by_cases hy : y = ownerOf eAw <;> simp [hy, hSent]
    | some addr =>
        rw [c.onceAw rfl]
        by_cases hy : y = ownerOf (some addr) <;> simp [hy, Bool.or_comm]

private theorem Snap.logs_next (h : Snap s inp a t aw w sent)
    (c : Cycle s inp t aw w sent eAw eW) :
    (∀ y, logFrom (awEvent (slaveReq s inp y) (slaveResp inp y)) a (t + 1) =
      if y = ownerOf (aw.or eAw) then ((aw.or eAw).map (· - slaveBase y)).toList else []) ∧
    ∀ y, logFrom (wEvent (slaveReq s inp y) (slaveResp inp y)) a (t + 1) =
      if y = ownerOf (aw.or eAw) ∧ (sent || passes inp t (aw.or eAw) (w.or eW) sent) = true then
        (w.or eW).toList
      else [] := by
  constructor
  · intro y
    rw [logFrom_succ _ h.order, h.slaveAw, c.slaveAw]
    cases aw with
    | none =>
        have hOld : (if y = ownerOf none then ((none : Option Word).map (· - slaveBase y)).toList
          else []) = [] := by split <;> rfl
        rw [hOld, List.nil_append, Option.none_or]
        split <;> rfl
    | some addr =>
        rw [c.onceAw rfl]
        simp
  · intro y
    rw [logFrom_succ _ h.order, h.slaveW, c.slaveW]
    cases hSent : sent with
    | true =>
        obtain ⟨hAw, hW⟩ := h.both hSent
        rw [c.onceAw hAw, c.onceW hW]
        simp [passes]
    | false =>
        by_cases hy : y = ownerOf (aw.or eAw) ∧ passes inp t (aw.or eAw) (w.or eW) false = true
        · simp [hy]
        · simp [hy]

/-- The crossbar remembers that the owner has the address. -/
private theorem Snap.sentAw_next (h : Snap s inp a t aw w sent)
    (c : Cycle s inp t aw w sent eAw eW)
    (hNoB : bFire (masterReq inp t) (masterResp s inp t) = false) :
    (xbarAt s inp (t + 1)).sentAw = (aw.or eAw).isSome := by
  have hB : bFire (inp t).arb ((xbarAt s inp t).axiArb (inp t).arb (inp t).slaves) = false :=
    hNoB
  obtain ⟨-, -, hSlaveAw, -⟩ := c.fires
  have hOwner := h.owner_next c.target
  have hUart : awFire ((xbarAt s inp t).axiUart (inp t).arb (inp t).slaves) (inp t).slaves.uart =
      _ := hSlaveAw .uart
  have hMem : awFire ((xbarAt s inp t).axiMem (inp t).arb (inp t).slaves) (inp t).slaves.mem =
      _ := hSlaveAw .sram
  simp only [xbarAt_succ, Xbar.step, hB, hUart, hMem, h.sentAw, Bool.not_false, Bool.true_and]
  cases hE : eAw with
  | none => simp
  | some addr =>
      rw [hE] at hOwner
      obtain hSel | hSel := hOwner (by simp) <;> rw [hSel] <;> simp

/-- The crossbar remembers that the owner has the data. -/
private theorem Snap.sentW_next (h : Snap s inp a t aw w sent)
    (c : Cycle s inp t aw w sent eAw eW)
    (hNoB : bFire (masterReq inp t) (masterResp s inp t) = false) :
    (xbarAt s inp (t + 1)).sentW = (sent || passes inp t (aw.or eAw) (w.or eW) sent) := by
  have hB : bFire (inp t).arb ((xbarAt s inp t).axiArb (inp t).arb (inp t).slaves) = false :=
    hNoB
  obtain ⟨-, -, -, hSlaveW⟩ := c.fires
  have hOwner := h.owner_next c.target
  have hUart : wFire ((xbarAt s inp t).axiUart (inp t).arb (inp t).slaves) (inp t).slaves.uart =
      _ := hSlaveW .uart
  have hMem : wFire ((xbarAt s inp t).axiMem (inp t).arb (inp t).slaves) (inp t).slaves.mem =
      _ := hSlaveW .sram
  simp only [xbarAt_succ, Xbar.step, hB, hUart, hMem, h.sentW, Bool.not_false, Bool.true_and]
  cases hPass : passes inp t (aw.or eAw) (w.or eW) sent with
  | false => simp
  | true =>
      simp only [passes, Bool.and_eq_true] at hPass
      obtain hSel | hSel := hOwner hPass.1.1.2 <;> simp [hSel]

/-- The address decides the owner when it is taken. -/
private theorem Snap.ownerWr_next (h : Snap s inp a t aw w sent)
    (c : Cycle s inp t aw w sent eAw eW)
    (hNoB : bFire (masterReq inp t) (masterResp s inp t) = false) :
    (xbarAt s inp (t + 1)).ownerWr = ownerOf (aw.or eAw) := by
  have hB : bFire (inp t).arb ((xbarAt s inp t).axiArb (inp t).arb (inp t).slaves) = false :=
    hNoB
  obtain ⟨hAw, -, -, -⟩ := c.fires
  simp only [xbarAt_succ, Xbar.step, hB, hAw, h.owner, Bool.false_eq_true, if_false]
  cases hE : eAw with
  | none => simp
  | some addr =>
      have hAddr : (inp t).arb.awaddr = addr := by
        have hEvent := c.masterAw
        rw [hE, awEvent, if_pos (by rw [isSome_event c.masterAw, hE]; rfl)] at hEvent
        exact Option.some.inj hEvent
      have hNew : aw = none := by
        by_contra hOld
        rw [c.onceAw (Option.isSome_iff_ne_none.mpr hOld)] at hE
        cases hE
      simp [hNew, hAddr, ownerOf]

private theorem Snap.flags_next (h : Snap s inp a t aw w sent)
    (c : Cycle s inp t aw w sent eAw eW)
    (hNoB : bFire (masterReq inp t) (masterResp s inp t) = false) :
    (xbarAt s inp (t + 1)).gotAw = (aw.or eAw).isSome ∧
      (xbarAt s inp (t + 1)).gotW = (w.or eW).isSome ∧
      (xbarAt s inp (t + 1)).sentAw = (aw.or eAw).isSome ∧
      (xbarAt s inp (t + 1)).sentW = (sent || passes inp t (aw.or eAw) (w.or eW) sent) ∧
      (xbarAt s inp (t + 1)).ownerWr = ownerOf (aw.or eAw) := by
  have hB : bFire (inp t).arb ((xbarAt s inp t).axiArb (inp t).arb (inp t).slaves) = false :=
    hNoB
  obtain ⟨hAw, hW, -, -⟩ := c.fires
  refine ⟨?_, ?_, h.sentAw_next c hNoB, h.sentW_next c hNoB, h.ownerWr_next c hNoB⟩ <;>
    rw [xbarAt_succ]
  · simp [Xbar.step, hB, hAw, h.gotAw, Bool.or_comm]
  · simp [Xbar.step, hB, hW, h.gotW, Bool.or_comm]

/-- Data taken before its slave is known is kept. -/
private theorem Snap.kept_next (h : Snap s inp a t aw w sent)
    (c : Cycle s inp t aw w sent eAw eW) (d : Word × BitVec 4) (hD : w.or eW = some d)
    (hNot : (sent || passes inp t (aw.or eAw) (w.or eW) sent) = false) :
    ((xbarAt s inp (t + 1)).wdataR, (xbarAt s inp (t + 1)).wstrbR) = d := by
  obtain ⟨hAw, hW, -, -⟩ := c.fires
  rw [Bool.or_eq_false_iff] at hNot
  simp only [xbarAt_succ, Xbar.step, hAw, hW, h.gotAw, h.gotW]
  cases hOld : w with
  | some v =>
      rw [c.onceW (by simp [hOld])]
      simp only [Option.isSome_none, Bool.false_and, Bool.false_eq_true, if_false]
      exact h.kept d (by simpa [hOld] using hD) hNot.1
  | none =>
      rw [hOld, Option.none_or] at hD
      have hNone := c.buffered (by simp [hD]) hNot.2
      rw [Option.or_eq_none_iff] at hNone
      have hData := c.masterW
      rw [hD, wEvent, if_pos (by rw [isSome_event c.masterW, hD]; rfl)] at hData
      simpa [hNone, hD, masterReq] using Option.some.inj hData

/-- A cycle carries the write on. -/
theorem Snap.next (h : Snap s inp a t aw w sent) (c : Cycle s inp t aw w sent eAw eW)
    (hB : bFire (masterReq inp t) (masterResp s inp t) = false) :
    Snap s inp a (t + 1) (aw.or eAw) (w.or eW)
      (sent || passes inp t (aw.or eAw) (w.or eW) sent) := by
  obtain ⟨hGotAw, hGotW, hSentAw, hSentW, hOwner⟩ := h.flags_next c hB
  obtain ⟨hMaster, hSlave⟩ := h.halves_next c hB
  obtain ⟨hLogAw, hLogW⟩ := h.logs_next c
  have hNoB : bEvent (masterReq inp) (masterResp s inp) t = none := by simp [bEvent, hB]
  refine ⟨hGotAw, hGotW, hSentAw, hSentW, hOwner, ?_, ?_, ?_, hMaster, hSlave,
    Nat.le_succ_of_le h.order, ?_, ?_, ?_, hLogAw, hLogW⟩
  · intro d hD hNot
    exact h.kept_next c d hD hNot
  · intro hSent
    cases hOld : sent with
    | true =>
        obtain ⟨hAw, hW⟩ := h.both hOld
        simp [hAw, hW]
    | false =>
        rw [hOld, Bool.false_or] at hSent
        simp only [passes, Bool.and_eq_true] at hSent
        exact ⟨hSent.1.1.2, hSent.1.2⟩
  · intro addr hAddr
    have hNext := h.owner_next c.target (by rw [hAddr]; rfl)
    rwa [hAddr] at hNext
  · rw [logFrom_succ _ h.order, h.masterAw, c.masterAw, toList_or c.onceAw]
  · rw [logFrom_succ _ h.order, h.masterW, c.masterW, toList_or c.onceW]
  · rw [logFrom_succ _ h.order, h.masterB, hNoB]
    rfl

end Next

/-! ### Every cycle is one of these -/

private theorem wEvent_slave (y : XbarSel) (hy : y ≠ .idle) :
    wEvent (slaveReq s inp y) (slaveResp inp y) t =
      if ((xbarAt s inp t).wTo (inp t).arb (inp t).slaves y).wvalid &&
          (slaveResp inp y t).wready then
        some (((xbarAt s inp t).wTo (inp t).arb (inp t).slaves y).wdata,
          ((xbarAt s inp t).wTo (inp t).arb (inp t).slaves y).wstrb)
      else none := by
  obtain ⟨-, -, -, hValid, hData, hStrb⟩ := @slaveReq_write s inp t y hy
  rw [wEvent, wFire, hValid, hData, hStrb]

private theorem awEvent_slave (y : XbarSel) (hy : y ≠ .idle) :
    awEvent (slaveReq s inp y) (slaveResp inp y) t =
      if Xbar.fireAw (inp t).arb (inp t).slaves && (y == xbarSel (inp t).arb.awaddr) then
        some ((inp t).arb.awaddr - slaveBase y)
      else none := by
  obtain ⟨hValid, hAddr, -⟩ := @slaveReq_write s inp t y hy
  rw [awEvent, awFire, hValid, hAddr]
  by_cases hSel : xbarSel (inp t).arb.awaddr = y
  · simp [hSel, Xbar.fireAw, slaveResp]
  · have hNe : (y == xbarSel (inp t).arb.awaddr) = false := by simpa using Ne.symm hSel
    simp [hSel, hNe]

/-- The data channel in one line: only the owner of the write sees data, the
master's in the cycle it is taken and the kept data afterwards. -/
theorem wTo_eq (x : Xbar) (arb : AxiReq) (p : XbarSlaves) (y : XbarSel)
    (hAw : x.gotAw = true → Xbar.fireAw arb p = false)
    (hSent : x.sentW = true → x.gotAw = true) :
    x.wTo arb p y =
      if (x.gotAw || Xbar.fireAw arb p) = true ∧
          (if Xbar.fireAw arb p then xbarSel arb.awaddr else x.ownerWr) = y then
        if x.fireW arb p then ⟨true, arb.wdata, arb.wstrb⟩
        else if x.gotW then ⟨!x.sentW, x.wdataR, x.wstrbR⟩ else {}
      else {} := by
  have hValid : x.fireW arb p = true → arb.wvalid = true := by
    intro hFire
    simp only [Xbar.fireW, Bool.and_eq_true] at hFire
    exact hFire.1
  unfold Xbar.wTo
  cases hW : x.fireW arb p with
  | true =>
      cases hGot : x.gotAw with
      | true => simp [hAw hGot, hValid hW]
      | false => cases hFire : Xbar.fireAw arb p <;> simp [hValid hW]
  | false =>
      cases hKept : x.gotW with
      | false => simp
      | true =>
          cases hFire : Xbar.fireAw arb p with
          | false => cases x.gotAw <;> simp
          | true =>
              have hNew : x.sentW = false := by
                by_contra hBad
                simp [hAw (hSent (by simpa using hBad))] at hFire
              simp [hNew]

section Classify

variable (h : Snap s inp a t aw w sent) (hMaster : MasterOk s inp)

include h

/-- The owner after a cycle in which the address is offered or has been
taken. -/
private theorem Snap.owner_after (hOnce : aw.isSome = true → (inp t).arb.awvalid = false)
    (eAw : Option Word)
    (hAw : eAw = if Xbar.fireAw (inp t).arb (inp t).slaves then some (inp t).arb.awaddr else none) :
    ownerOf (aw.or eAw) = if Xbar.fireAw (inp t).arb (inp t).slaves then
      xbarSel (inp t).arb.awaddr else (xbarAt s inp t).ownerWr := by
  rw [h.owner, hAw]
  cases aw with
  | none => cases Xbar.fireAw (inp t).arb (inp t).slaves <;> rfl
  | some addr =>
      have hNo : Xbar.fireAw (inp t).arb (inp t).slaves = false := by
        simp [Xbar.fireAw, hOnce rfl]
      simp [hNo]

include hMaster

theorem Snap.awvalid_low (hSome : aw.isSome = true) : (inp t).arb.awvalid = false := by
  by_contra hValid
  have hNo := hMaster.once t (by simpa using hValid)
  simp [h.master, hSome] at hNo

theorem Snap.wvalid_low (hSome : w.isSome = true) : (inp t).arb.wvalid = false := by
  by_contra hValid
  have hNo := hMaster.onceW t (by simpa using hValid)
  simp [h.master, hSome] at hNo

/-- Data is taken once. -/
private theorem Snap.data_new
    (hFire : (xbarAt s inp t).fireW (inp t).arb (inp t).slaves = true) : w = none := by
  by_contra hOld
  have hLow := h.wvalid_low hMaster (Option.isSome_iff_ne_none.mpr hOld)
  simp [Xbar.fireW, hLow] at hFire

/-- The slave that owns the write is ready when the master's data is taken. -/
private theorem Snap.wready_owner (hFire : (xbarAt s inp t).fireW (inp t).arb (inp t).slaves = true)
    {eAw : Option Word}
    (hAw : eAw = if Xbar.fireAw (inp t).arb (inp t).slaves then some (inp t).arb.awaddr else none)
    (hSome : (aw.or eAw).isSome = true) :
    (slaveResp inp (ownerOf (aw.or eAw)) t).wready = true := by
  rw [h.owner_after (h.awvalid_low hMaster) eAw hAw, slaveResp]
  simp only [Xbar.fireW, Xbar.wready, Bool.and_eq_true, h.gotAw] at hFire
  cases hA : Xbar.fireAw (inp t).arb (inp t).slaves with
  | true => simpa [hA] using hFire.2
  | false =>
      have hOld : aw.isSome = true := by simpa [hAw, hA] using hSome
      simpa [hA, hOld] using hFire.2

/-- What slave `y` receives of the data in a cycle. -/
private theorem Snap.slaveW_now {eAw : Option Word} {eW : Option (Word × BitVec 4)}
    (hAw : eAw = if Xbar.fireAw (inp t).arb (inp t).slaves then some (inp t).arb.awaddr else none)
    (hW : eW = if (xbarAt s inp t).fireW (inp t).arb (inp t).slaves then
      some ((inp t).arb.wdata, (inp t).arb.wstrb) else none)
    (y : XbarSel) (hy : y ≠ .idle) :
    wEvent (slaveReq s inp y) (slaveResp inp y) t =
      if y = ownerOf (aw.or eAw) ∧ passes inp t (aw.or eAw) (w.or eW) sent = true then w.or eW
      else none := by
  have hLow := h.awvalid_low hMaster
  have hSome : ((xbarAt s inp t).gotAw || Xbar.fireAw (inp t).arb (inp t).slaves) =
      (aw.or eAw).isSome := by
    rw [h.gotAw, hAw]
    cases Xbar.fireAw (inp t).arb (inp t).slaves <;> simp
  rw [wEvent_slave y hy, wTo_eq _ _ _ _
    (fun hGot => by simp [Xbar.fireAw, hLow (h.gotAw ▸ hGot)])
    (fun hS => h.gotAw ▸ (h.both (h.sentW ▸ hS)).1), hSome, ← h.owner_after hLow eAw hAw]
  by_cases hOwner : ownerOf (aw.or eAw) = y
  · subst hOwner
    cases hThere : (aw.or eAw).isSome with
    | false => simp [passes, hThere]
    | true =>
        cases hFire : (xbarAt s inp t).fireW (inp t).arb (inp t).slaves with
        | true =>
            -- passed through: the master's data was not taken before
            have hNone : w = none := h.data_new hMaster hFire
            have hNot : sent = false := h.sent_false (.inr hNone)
            have hReady := h.wready_owner hMaster hFire hAw hThere
            simp [passes, hThere, hW, hFire, hNone, hNot, hReady]
        | false =>
            rw [hFire, if_neg (by simp)] at hW
            simp only [hW, Option.or_none, Bool.false_eq_true, if_false, h.gotW, h.sentW]
            cases hKept : w with
            | none => simp [passes]
            | some d =>
                cases hS : sent with
                | true => simp [passes]
                | false =>
                    have hData := h.kept d hKept hS
                    cases hReady : (slaveResp inp (ownerOf (aw.or eAw)) t).wready <;>
                      simp [passes, hThere, hReady, hData]
  · simp [hOwner, Ne.symm hOwner]

omit h in
private theorem target_now (addr : Word)
    (hAddr : awEvent (masterReq inp) (masterResp s inp) t = some addr) :
    xbarSel addr = .sram ∨ xbarSel addr = .uart := by
  have hFire : awFire (masterReq inp t) (masterResp s inp t) = true := by
    by_contra hNo
    simp [awEvent, hNo] at hAddr
  rw [awEvent, if_pos hFire] at hAddr
  rw [awFire, Bool.and_eq_true] at hFire
  exact Option.some.inj hAddr ▸ hMaster.target t hFire.1

private theorem Snap.slaveAw_now (y : XbarSel) :
    awEvent (slaveReq s inp y) (slaveResp inp y) t =
      if y = ownerOf (aw.or (awEvent (masterReq inp) (masterResp s inp) t)) then
        (awEvent (masterReq inp) (masterResp s inp) t).map (· - slaveBase y)
      else none := by
  by_cases hy : y = .idle
  · subst hy
    have hNone : awEvent (slaveReq s inp .idle) (slaveResp inp .idle) t = none := rfl
    rw [hNone]
    cases hE : awEvent (masterReq inp) (masterResp s inp) t with
    | none => simp
    | some addr =>
        have hSome : (aw.or (awEvent (masterReq inp) (masterResp s inp) t)).isSome = true := by
          simp [hE]
        have hOwner := h.owner_next (target_now hMaster) hSome
        rw [hE] at hOwner
        rw [if_neg]
        intro hBad
        rw [← hBad] at hOwner
        exact absurd hOwner (by decide)
  · rw [awEvent_slave y hy,
      h.owner_after (h.awvalid_low hMaster) (awEvent (masterReq inp) (masterResp s inp) t) rfl]
    have hEvent : awEvent (masterReq inp) (masterResp s inp) t =
      if Xbar.fireAw (inp t).arb (inp t).slaves then some (inp t).arb.awaddr else none := rfl
    rw [hEvent]
    cases Xbar.fireAw (inp t).arb (inp t).slaves <;> simp

/-- Data that does not go on to a slave was taken before its address. -/
private theorem Snap.buffered_now
    (hNew : (wEvent (masterReq inp) (masterResp s inp) t).isSome = true)
    (hNot : passes inp t (aw.or (awEvent (masterReq inp) (masterResp s inp) t))
      (w.or (wEvent (masterReq inp) (masterResp s inp) t)) sent = false) :
    aw.or (awEvent (masterReq inp) (masterResp s inp) t) = none := by
  by_contra hSome
  have hThere := Option.isSome_iff_ne_none.mpr hSome
  have hFire : (xbarAt s inp t).fireW (inp t).arb (inp t).slaves = true := by
    by_contra hNo
    have hNone : wEvent (masterReq inp) (masterResp s inp) t = none := if_neg hNo
    simp [hNone] at hNew
  have hOld : w = none := h.data_new hMaster hFire
  have hSent : sent = false := h.sent_false (.inr hOld)
  have hReady := h.wready_owner hMaster hFire rfl hThere
  simp only [passes, hSent, hThere, hOld, Option.none_or, hNew, Bool.not_false,
    Bool.true_and] at hNot
  exact absurd (hReady.symm.trans hNot) (by simp)

/-- Every cycle is a `Cycle`. -/
theorem Snap.cycle :
    Cycle s inp t aw w sent (awEvent (masterReq inp) (masterResp s inp) t)
      (wEvent (masterReq inp) (masterResp s inp) t) := by
  refine ⟨rfl, rfl, ?_, ?_, target_now hMaster, h.slaveAw_now hMaster, ?_,
    h.buffered_now hMaster⟩
  · intro hSome
    simp [awEvent, awFire, masterReq, h.awvalid_low hMaster hSome]
  · intro hSome
    simp [wEvent, wFire, masterReq, h.wvalid_low hMaster hSome]
  · intro y
    by_cases hy : y = .idle
    · subst hy
      have hNone : wEvent (slaveReq s inp .idle) (slaveResp inp .idle) t = none := rfl
      rw [hNone, if_neg]
      rintro ⟨hIdle, hPass⟩
      simp only [passes, Bool.and_eq_true] at hPass
      have hOwner := h.owner_next (target_now hMaster) hPass.1.1.2
      simp [← hIdle] at hOwner
    · exact h.slaveW_now hMaster rfl rfl y hy

end Classify

/-! ### The response -/

section Close

variable (h : Snap s inp a t aw w sent) (hMaster : MasterOk s inp) (hSlaves : SlavesOk s inp)
  (hB : bFire (masterReq inp t) (masterResp s inp t) = true)

include h hSlaves hB

/-- Only a write that reached its slave is answered. -/
theorem Snap.answered : sent = true := by
  rw [bFire, Bool.and_eq_true] at hB
  have hHas := hSlaves.answer (ownerOf aw) t (h.owner ▸ hB.1)
  rw [h.slave, if_pos rfl, Halves.mk.injEq] at hHas
  exact hHas.2

/-- The slave that owns the write sees its response taken. -/
private theorem Snap.owner_response :
    bFire (slaveReq s inp (ownerOf aw) t) (slaveResp inp (ownerOf aw) t) = true := by
  obtain ⟨hAw, -⟩ := h.both (h.answered hSlaves hB)
  obtain ⟨addr, rfl⟩ := Option.isSome_iff_exists.mp hAw
  have hTarget : ownerOf (some addr) = .sram ∨ ownerOf (some addr) = .uart := h.target addr rfl
  have hReady := (@slaveReq_write s inp t (ownerOf (some addr))
    (by rintro hBad; simp [hBad] at hTarget)).2.2.1
  rw [bFire, Bool.and_eq_true] at hB
  rw [bFire, hReady, h.owner]
  simpa [slaveResp, h.owner, masterReq, masterResp, Xbar.axiArb] using hB

include hMaster

/-- Nothing else is transferred with the response. -/
theorem Snap.quiet_response :
    awEvent (masterReq inp) (masterResp s inp) t = none ∧
      wEvent (masterReq inp) (masterResp s inp) t = none ∧
      (∀ y, awEvent (slaveReq s inp y) (slaveResp inp y) t = none) ∧
      ∀ y, wEvent (slaveReq s inp y) (slaveResp inp y) t = none := by
  have hSent := h.answered hSlaves hB
  obtain ⟨hAw, hW⟩ := h.both hSent
  have c := h.cycle hMaster
  have hNoAw := c.onceAw hAw
  refine ⟨hNoAw, c.onceW hW, fun y => ?_, fun y => ?_⟩
  · rw [c.slaveAw, hNoAw]
    simp
  · rw [c.slaveW]
    simp [passes, hSent]

/-- The response leaves the crossbar at rest. -/
theorem Snap.close : Snap s inp (t + 1) (t + 1) none none false := by
  obtain ⟨-, -, hNoAw, hNoW⟩ := h.quiet_response hMaster hSlaves hB
  have hFire : bFire (inp t).arb ((xbarAt s inp t).axiArb (inp t).arb (inp t).slaves) = true := hB
  refine snap_rest ?_ ?_ fun y => ?_
  · constructor <;> simp [xbarAt_succ, Xbar.step, hFire]
  · rw [masterHas, halves, if_pos hB]
  · have hOld := h.slave y
    rw [slaveHas] at hOld
    rw [slaveHas, halves]
    split
    · rfl
    · rename_i hKeep
      have hNotOwner : y ≠ ownerOf aw := by
        rintro rfl
        exact hKeep (h.owner_response hSlaves hB)
      rw [hOld, if_neg hNotOwner, isSome_event (hNoAw y), isSome_event (hNoW y)]
      rfl

end Close

end Step

end Riscv32.Fabric
