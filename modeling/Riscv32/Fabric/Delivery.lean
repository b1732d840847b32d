import Riscv32.Fabric.Writes

/-!
# Every write is delivered once

Over whole runs of the crossbar: a write that is answered was delivered to its
slave exactly once, and with a master and slaves that put nothing off forever
every write is answered.

Delivery is safety and needs no fairness: `window_delivered` follows a write from
the cycle it starts in to its answer through the `Snap`s of `Fabric.Writes`.  The
second half is progress, and `Fair` is asked only there: each stage of a write is
left in the end (`address_taken`, `data_taken`, `data_sent`, `response_comes`).

`xbar_delivers_once` states both, from a crossbar at rest.
-/

namespace Riscv32.Fabric

open Riscv32.Rtl
open Riscv32.Clocked

/-! ## Whole runs -/

section Runs

variable {s : Xbar} {inp : Nat → XbarInput}

/-- The write that starts in cycle `a` is answered in cycle `e`. -/
structure WriteWindow (s : Xbar) (inp : Nat → XbarInput) (a e : Nat) : Prop where
  order : a ≤ e
  start : masterHas s inp a = ⟨false, false⟩
  open_ : ∀ k, a ≤ k → k < e → bFire (masterReq inp k) (masterResp s inp k) = false
  answer : bFire (masterReq inp e) (masterResp s inp e) = true

/-- Between `a` and `e` one write was delivered: everybody's handshakes. -/
structure DeliveredOnce (s : Xbar) (inp : Nat → XbarInput) (a e : Nat) (addr data : Word)
    (strb : BitVec 4) (resp : BitVec 2) : Prop where
  masterAw : logFrom (awEvent (masterReq inp) (masterResp s inp)) a (e + 1) = [addr]
  masterW : logFrom (wEvent (masterReq inp) (masterResp s inp)) a (e + 1) = [(data, strb)]
  masterB : logFrom (bEvent (masterReq inp) (masterResp s inp)) a (e + 1) = [resp]
  target : xbarSel addr = .sram ∨ xbarSel addr = .uart
  slaveAw : logFrom (awEvent (slaveReq s inp (xbarSel addr)) (slaveResp inp (xbarSel addr)))
    a (e + 1) = [addr - slaveBase (xbarSel addr)]
  slaveW : logFrom (wEvent (slaveReq s inp (xbarSel addr)) (slaveResp inp (xbarSel addr)))
    a (e + 1) = [(data, strb)]
  others : ∀ y, y ≠ xbarSel addr →
    logFrom (awEvent (slaveReq s inp y) (slaveResp inp y)) a (e + 1) = [] ∧
      logFrom (wEvent (slaveReq s inp y) (slaveResp inp y)) a (e + 1) = []
  rest : Rest (xbarAt s inp (e + 1))

section Safety

variable (hRest : Rest s) (hMaster : MasterOk s inp) (hSlaves : SlavesOk s inp)

include hRest hMaster hSlaves

theorem snap_run (t : Nat) : ∃ a aw w sent, Snap s inp a t aw w sent := by
  induction t with
  | zero => exact ⟨0, none, none, false, snap_rest hRest rfl fun _ => rfl⟩
  | succ t ih =>
      obtain ⟨a, aw, w, sent, h⟩ := ih
      cases hB : bFire (masterReq inp t) (masterResp s inp t) with
      | true => exact ⟨t + 1, none, none, false, h.close hMaster hSlaves hB⟩
      | false => exact ⟨a, _, _, _, h.next (h.cycle hMaster) hB⟩

/-- Where nothing is outstanding a new write can start. -/
theorem snap_start {a : Nat} (hStart : masterHas s inp a = ⟨false, false⟩) :
    Snap s inp a a none none false := by
  obtain ⟨a', aw, w, sent, h⟩ := snap_run hRest hMaster hSlaves a
  have hNone := h.master.symm.trans hStart
  simp only [Halves.mk.injEq, Option.isSome_eq_false_iff, Option.isNone_iff_eq_none] at hNone
  obtain ⟨rfl, rfl⟩ := hNone
  have hSent : sent = false := h.sent_false (.inl rfl)
  subst hSent
  refine snap_rest ⟨h.gotAw, h.gotW, h.sentAw, h.sentW, h.owner⟩ hStart fun y => ?_
  rw [h.slave]
  split <;> rfl

theorem snap_window {a e : Nat} (hWindow : WriteWindow s inp a e) :
    ∃ aw w sent, Snap s inp a e aw w sent := by
  obtain ⟨n, rfl⟩ := Nat.exists_eq_add_of_le hWindow.order
  have hOpen := hWindow.open_
  have hPart : ∀ k, k ≤ n → ∃ aw w sent, Snap s inp a (a + k) aw w sent := by
    intro k hk
    induction k with
    | zero => exact ⟨none, none, false, snap_start hRest hMaster hSlaves hWindow.start⟩
    | succ k ih =>
        obtain ⟨aw, w, sent, h⟩ := ih (by omega)
        exact ⟨_, _, _, h.next (h.cycle hMaster) (hOpen (a + k) (by omega) (by omega))⟩
  exact hPart n (Nat.le_refl n)

/-- An answered write was delivered, once. -/
theorem window_delivered {a e : Nat} (hWindow : WriteWindow s inp a e) :
    ∃ addr data strb resp, DeliveredOnce s inp a e addr data strb resp := by
  obtain ⟨aw, w, sent, h⟩ := snap_window hRest hMaster hSlaves hWindow
  have hB := hWindow.answer
  have hSent := h.answered hSlaves hB
  obtain ⟨hAw, hW⟩ := h.both hSent
  obtain ⟨hNoAw, hNoW, hNoSlaveAw, hNoSlaveW⟩ := h.quiet_response hMaster hSlaves hB
  have hClosed := h.close hMaster hSlaves hB
  obtain ⟨addr, rfl⟩ := Option.isSome_iff_exists.mp hAw
  obtain ⟨⟨data, strb⟩, rfl⟩ := Option.isSome_iff_exists.mp hW
  have hAnswer : bEvent (masterReq inp) (masterResp s inp) e =
      some (masterResp s inp e).bresp := if_pos hB
  refine ⟨addr, data, strb, (masterResp s inp e).bresp, ?_, ?_, ?_, h.target addr rfl, ?_, ?_, ?_,
    ⟨hClosed.gotAw, hClosed.gotW, hClosed.sentAw, hClosed.sentW, hClosed.owner⟩⟩
  · rw [logFrom_none h.order hNoAw, h.masterAw]
    rfl
  · rw [logFrom_none h.order hNoW, h.masterW]
    rfl
  · rw [logFrom_some h.order hAnswer, h.masterB]
    rfl
  · rw [logFrom_none h.order (hNoSlaveAw _), h.slaveAw, ownerOf_some, if_pos rfl]
    rfl
  · rw [logFrom_none h.order (hNoSlaveW _), h.slaveW, if_pos ⟨rfl, hSent⟩]
    rfl
  · intro y hy
    constructor
    · rw [logFrom_none h.order (hNoSlaveAw y), h.slaveAw, ownerOf_some, if_neg hy]
    · rw [logFrom_none h.order (hNoSlaveW y), h.slaveW, if_neg fun hBad => hy hBad.1]

end Safety

/-! ## Progress -/

/-- A write is on its way: offered, or taken and not answered. -/
def Begun (s : Xbar) (inp : Nat → XbarInput) (t : Nat) : Prop :=
  (inp t).arb.awvalid = true ∨ (inp t).arb.wvalid = true ∨
    (masterHas s inp t).aw = true ∨ (masterHas s inp t).w = true

/-- Nobody waits forever: the master offers both halves of a write it began
and takes its response; a slave takes the address it is offered, gets ready
for the data of an address it took without waiting to see it, and answers. -/
structure Fair (s : Xbar) (inp : Nat → XbarInput) : Prop where
  issueAw : ∀ t, Begun s inp t →
    ∃ k, t ≤ k ∧ ((inp k).arb.awvalid = true ∨ (masterHas s inp k).aw = true)
  issueW : ∀ t, Begun s inp t →
    ∃ k, t ≤ k ∧ ((inp k).arb.wvalid = true ∨ (masterHas s inp k).w = true)
  awready : ∀ y t, (slaveReq s inp y t).awvalid = true →
    ∃ k, t ≤ k ∧ (slaveResp inp y k).awready = true
  wready : ∀ y t, slaveHas s inp y t = ⟨true, false⟩ →
    ∃ k, t ≤ k ∧ (slaveResp inp y k).wready = true
  bvalid : ∀ y t, slaveHas s inp y t = ⟨true, true⟩ →
    ∃ k, t ≤ k ∧ (slaveResp inp y k).bvalid = true
  bready : ∀ t, (masterResp s inp t).bvalid = true → ∃ k, t ≤ k ∧ (inp k).arb.bready = true

section Liveness

variable (hMaster : MasterOk s inp) (hSlaves : SlavesOk s inp) (hFair : Fair s inp) {t : Nat}
  (hNever : ∀ e, t ≤ e → bFire (masterReq inp e) (masterResp s inp e) = false)

include hMaster hNever

/-- While no response comes, a write keeps what it has reached. -/
private theorem snap_keep {a k : Nat} {addr : Word} {w : Option (Word × BitVec 4)} {sent : Bool}
    (h : Snap s inp a k (some addr) w sent) (hk : t ≤ k) (n : Nat) :
    ∃ w' sent', Snap s inp a (k + n) (some addr) w' sent' ∧
      (w.isSome = true → w'.isSome = true) ∧ (sent = true → sent' = true) := by
  induction n with
  | zero => exact ⟨w, sent, h, id, id⟩
  | succ n ih =>
      obtain ⟨w', sent', hNow, hW, hSent⟩ := ih
      refine ⟨_, _, hNow.next (hNow.cycle hMaster) (hNever _ (by omega)), ?_, ?_⟩
      · intro hOld
        simp [hW hOld]
      · intro hOld
        simp [hSent hOld]

include hFair

/-- The address is taken. -/
private theorem address_taken (hBegun : Begun s inp t)
    (hRun : ∀ k, ∃ a aw w sent, Snap s inp a k aw w sent) :
    ∃ k, t ≤ k ∧ ∃ a addr w sent, Snap s inp a k (some addr) w sent := by
  obtain ⟨k, hk, hOffer⟩ := hFair.issueAw t hBegun
  obtain ⟨a, aw, w, sent, h⟩ := hRun k
  cases aw with
  | some addr => exact ⟨k, hk, a, addr, w, sent, h⟩
  | none =>
      have hValid : (inp k).arb.awvalid = true := by simpa [h.master] using hOffer
      have hTarget := hMaster.target k hValid
      generalize hSel : xbarSel (inp k).arb.awaddr = y at hTarget
      have hSeen : (slaveReq s inp y k).awvalid = true := by
        rw [(@slaveReq_write s inp k y (by rintro rfl; simp at hTarget)).1]
        simp [hSel, hValid]
      -- the offer stands until the slave takes it
      obtain ⟨k', hk', ⟨hStill, hAddr⟩, hReady⟩ := held_until
        (P := fun j => (inp j).arb.awvalid = true ∧ xbarSel (inp j).arb.awaddr = y)
        (fun j hj hNo => by
          have hLow : (masterResp s inp j).awready = false := by
            simpa [masterResp, Xbar.axiArb, hj.2, slaveResp] using hNo
          obtain ⟨hNext, hSame⟩ := hMaster.hold j hj.1 hLow
          exact ⟨hNext, by rw [hSame, hj.2]⟩)
        ⟨hValid, hSel⟩ (hFair.awready y k hSeen)
      have hFire : awFire (masterReq inp k') (masterResp s inp k') = true := by
        rw [awFire, Bool.and_eq_true]
        exact ⟨hStill, by simpa [masterResp, Xbar.axiArb, hAddr, slaveResp] using hReady⟩
      obtain ⟨a', aw', w', sent', h'⟩ := hRun k'
      have hNext := h'.next (h'.cycle hMaster) (hNever k' (by omega))
      have hTaken : (aw'.or (awEvent (masterReq inp) (masterResp s inp) k')).isSome = true := by
        simp [awEvent, hFire]
      obtain ⟨addr, hSome⟩ := Option.isSome_iff_exists.mp hTaken
      rw [hSome] at hNext
      exact ⟨k' + 1, by omega, a', addr, _, _, hNext⟩

/-- The data is taken. -/
private theorem data_taken {a k : Nat} {addr : Word} {w : Option (Word × BitVec 4)} {sent : Bool}
    (h : Snap s inp a k (some addr) w sent) (hk : t ≤ k) :
    ∃ k', t ≤ k' ∧ ∃ d sent', Snap s inp a k' (some addr) (some d) sent' := by
  obtain ⟨k₁, hk₁, hOffer⟩ := hFair.issueW k (.inr (.inr (.inl (by simp [h.master]))))
  obtain ⟨n, rfl⟩ := Nat.exists_eq_add_of_le hk₁
  obtain ⟨w₁, sent₁, h₁, -, -⟩ := snap_keep hMaster hNever h hk n
  cases w₁ with
  | some d => exact ⟨k + n, by omega, d, sent₁, h₁⟩
  | none =>
      have hValid : (inp (k + n)).arb.wvalid = true := by simpa [h₁.master] using hOffer
      have hNot : sent₁ = false := h₁.sent_false (.inr rfl)
      have hHas : slaveHas s inp (xbarSel addr) (k + n) = ⟨true, false⟩ := by
        rw [h₁.slave, ownerOf_some, if_pos rfl, hNot]
        rfl
      -- the offer stands until the owner is ready
      have hOwner : ∀ j, k + n ≤ j → (masterResp s inp j).wready =
          (slaveResp inp (xbarSel addr) j).wready := by
        intro j hj
        obtain ⟨m, rfl⟩ := Nat.exists_eq_add_of_le hj
        obtain ⟨w₂, sent₂, h₂, -, -⟩ := snap_keep hMaster hNever h₁ (by omega) m
        have hNoAw : Xbar.fireAw (inp (k + n + m)).arb (inp (k + n + m)).slaves = false := by
          simp [Xbar.fireAw, h₂.awvalid_low hMaster rfl]
        simp [masterResp, Xbar.axiArb, Xbar.wready, hNoAw, h₂.gotAw, h₂.owner, ownerOf_some,
          slaveResp]
      obtain ⟨k₂, hk₂, ⟨hLater, hStill⟩, hReady⟩ := held_until
        (P := fun j => k + n ≤ j ∧ (inp j).arb.wvalid = true)
        (fun j hj hNo => by
          have hLow : (masterResp s inp j).wready = false := by
            rw [hOwner j hj.1]
            simpa using hNo
          exact ⟨by omega, (hMaster.holdW j hj.2 hLow).1⟩)
        ⟨Nat.le_refl _, hValid⟩ (hFair.wready (xbarSel addr) (k + n) hHas)
      have hFire : wFire (masterReq inp k₂) (masterResp s inp k₂) = true := by
        rw [wFire, Bool.and_eq_true]
        exact ⟨hStill, by rw [hOwner k₂ hk₂, hReady]⟩
      obtain ⟨m, rfl⟩ := Nat.exists_eq_add_of_le hk₂
      obtain ⟨w₂, sent₂, h₂, -, -⟩ := snap_keep hMaster hNever h₁ (by omega) m
      have hNext := h₂.next (h₂.cycle hMaster) (hNever _ (by omega))
      have hTaken : (w₂.or (wEvent (masterReq inp) (masterResp s inp) (k + n + m))).isSome =
          true := by
        simp [wEvent, hFire]
      obtain ⟨d, hSome⟩ := Option.isSome_iff_exists.mp hTaken
      rw [hSome] at hNext
      exact ⟨k + n + m + 1, by omega, d, _, hNext⟩

/-- The data reaches the slave. -/
private theorem data_sent {a k : Nat} {addr : Word} {d : Word × BitVec 4} {sent : Bool}
    (h : Snap s inp a k (some addr) (some d) sent) (hk : t ≤ k) :
    ∃ k', t ≤ k' ∧ ∃ w, Snap s inp a k' (some addr) w true := by
  cases sent with
  | true => exact ⟨k, hk, _, h⟩
  | false =>
      have hHas : slaveHas s inp (xbarSel addr) k = ⟨true, false⟩ := by
        rw [h.slave, ownerOf_some, if_pos rfl]
        rfl
      obtain ⟨k', hk', hReady⟩ := hFair.wready _ k hHas
      obtain ⟨n, rfl⟩ := Nat.exists_eq_add_of_le hk'
      obtain ⟨w', sent', h', hW, -⟩ := snap_keep hMaster hNever h hk n
      have hNext := h'.next (h'.cycle hMaster) (hNever _ (by omega))
      have hSent : (sent' || passes inp (k + n)
          ((some addr).or (awEvent (masterReq inp) (masterResp s inp) (k + n)))
          (w'.or (wEvent (masterReq inp) (masterResp s inp) (k + n))) sent') = true := by
        simp [passes, hW rfl, ownerOf_some, hReady]
      rw [hSent] at hNext
      exact ⟨k + n + 1, by omega, _, hNext⟩

include hSlaves

/-- The response comes after all. -/
private theorem response_comes {a k : Nat} {addr : Word} {w : Option (Word × BitVec 4)}
    (h : Snap s inp a k (some addr) w true) (hk : t ≤ k) : False := by
  have hOwner : ∀ j, k ≤ j → (xbarAt s inp j).ownerWr = xbarSel addr := by
    intro j hj
    obtain ⟨m, rfl⟩ := Nat.exists_eq_add_of_le hj
    obtain ⟨w', sent', h', -, -⟩ := snap_keep hMaster hNever h hk m
    exact h'.owner
  have hHas : slaveHas s inp (xbarSel addr) k = ⟨true, true⟩ := by
    rw [h.slave, ownerOf_some, if_pos rfl]
    rfl
  have hSlave : xbarSel addr ≠ .idle := by
    rcases h.target addr rfl with hSel | hSel <;> simp [hSel]
  obtain ⟨k₁, hk₁, hValid⟩ := hFair.bvalid _ k hHas
  have hShown : ∀ j, k ≤ j → (masterResp s inp j).bvalid =
      (slaveResp inp (xbarSel addr) j).bvalid := by
    intro j hj
    simp [masterResp, Xbar.axiArb, hOwner j hj, slaveResp]
  obtain ⟨k₂, hk₂, ⟨hLater, hStill⟩, hReady⟩ := held_until
    (P := fun j => k ≤ j ∧ (slaveResp inp (xbarSel addr) j).bvalid = true)
    (fun j hj hNo => by
      have hLow : (slaveReq s inp (xbarSel addr) j).bready = false := by
        rw [(@slaveReq_write s inp j (xbarSel addr) hSlave).2.2.1]
        simpa using fun _ => hNo
      exact ⟨by omega, hSlaves.hold _ j hj.2 hLow⟩)
    ⟨hk₁, hValid⟩ (hFair.bready k₁ (by rw [hShown k₁ hk₁, hValid]))
  have hNo := hNever k₂ (by omega)
  rw [bFire, hShown k₂ hLater, hStill, masterReq, hReady] at hNo
  exact absurd hNo (by decide)

end Liveness

/-- A write that starts in cycle `t` has a window when it is answered. -/
private theorem window_of_answer {t : Nat} (hStart : masterHas s inp t = ⟨false, false⟩)
    (hAnswer : ∃ e, t ≤ e ∧ bFire (masterReq inp e) (masterResp s inp e) = true) :
    ∃ e, WriteWindow s inp t e := by
  classical
  obtain ⟨hLe, hFire⟩ := Nat.find_spec hAnswer
  refine ⟨Nat.find hAnswer, hLe, hStart, fun k hk hLt => ?_, hFire⟩
  have hNot := Nat.find_min hAnswer hLt
  simpa [hk] using hNot

section Main

variable (hRest : Rest s) (hMaster : MasterOk s inp) (hSlaves : SlavesOk s inp)

include hRest hMaster hSlaves

theorem answered_of_fair (hFair : Fair s inp) {t : Nat} (hBegun : Begun s inp t) :
    ∃ e, t ≤ e ∧ bFire (masterReq inp e) (masterResp s inp e) = true := by
  by_contra hNone
  have hNever : ∀ e, t ≤ e → bFire (masterReq inp e) (masterResp s inp e) = false := by
    intro e he
    by_contra hFire
    exact hNone ⟨e, he, by simpa using hFire⟩
  obtain ⟨k₁, hk₁, a, addr, w, sent, h₁⟩ :=
    address_taken hMaster hFair hNever hBegun (snap_run hRest hMaster hSlaves)
  obtain ⟨k₂, hk₂, d, sent', h₂⟩ := data_taken hMaster hFair hNever h₁ hk₁
  obtain ⟨k₃, hk₃, w', h₃⟩ := data_sent hMaster hFair hNever h₂ hk₂
  exact response_comes hMaster hSlaves hFair hNever h₃ hk₃

/-- **Delivery.**  From rest, for every master and every timing of the slaves:
an answered write was delivered once, to its slave only, and leaves the
crossbar at rest; and if nobody waits forever every write that starts is
answered. -/
theorem xbar_delivers_once :
    (∀ a e, WriteWindow s inp a e →
      ∃ addr data strb resp, DeliveredOnce s inp a e addr data strb resp) ∧
    (Fair s inp → ∀ t, masterHas s inp t = ⟨false, false⟩ →
      (inp t).arb.awvalid = true ∨ (inp t).arb.wvalid = true →
      ∃ e addr data strb resp, WriteWindow s inp t e ∧
        DeliveredOnce s inp t e addr data strb resp) := by
  refine ⟨fun a e hWindow => window_delivered hRest hMaster hSlaves hWindow,
    fun hFair t hStart hOffer => ?_⟩
  have hBegun : Begun s inp t := by
    rcases hOffer with hAw | hW
    · exact .inl hAw
    · exact .inr (.inl hW)
  obtain ⟨e, hWindow⟩ := window_of_answer hStart
    (answered_of_fair hRest hMaster hSlaves hFair hBegun)
  obtain ⟨addr, data, strb, resp, hDone⟩ := window_delivered hRest hMaster hSlaves hWindow
  exact ⟨e, addr, data, strb, resp, hWindow, hDone⟩

end Main

end Runs

/-! ## A write whose data comes first -/

/-- The crossbar after power-up. -/
def restXbar : Xbar := ⟨.idle, .idle, false, false, false, false, 0, 0⟩

/-- Data in cycle 0, its address in cycle 1, the response in cycle 2. -/
def dataFirst : Nat → XbarInput
  | 0 =>
    { arb := { wvalid := true, wdata := 0x11223344, wstrb := 0b1111#4 }
      slaves := { uart := {}, clint := {}, mem := { awready := true, wready := true } } }
  | 1 =>
    { arb := { awvalid := true, awaddr := 0x80000010 }
      slaves := { uart := {}, clint := {}, mem := { awready := true, wready := true } } }
  | 2 =>
    { arb := { bready := true }
      slaves := { uart := {}, clint := {}, mem := { bvalid := true } } }
  | _ => { arb := {}, slaves := { uart := {}, clint := {}, mem := {} } }

theorem dataFirst_silent (t : Nat) :
    masterHas restXbar dataFirst (t + 3) = ⟨false, false⟩ ∧
      ∀ y, slaveHas restXbar dataFirst y (t + 3) = ⟨false, false⟩ := by
  induction t with
  | zero =>
      refine ⟨by decide +kernel, fun y => ?_⟩
      cases y <;> decide +kernel
  | succ t ih =>
      obtain ⟨hM, hS⟩ := ih
      have hQuiet : masterReq dataFirst (t + 3) = {} := rfl
      have hLow : ∀ y, slaveResp dataFirst y (t + 3) = {} := by
        intro y
        cases y <;> rfl
      rw [masterHas] at hM
      refine ⟨?_, fun y => ?_⟩
      · rw [show t + 1 + 3 = t + 3 + 1 by omega, masterHas, halves, hM, hQuiet]
        simp [bFire, awFire, wFire]
      · have hOld := hS y
        rw [slaveHas] at hOld
        rw [show t + 1 + 3 = t + 3 + 1 by omega, slaveHas, halves, hOld, hLow]
        simp [bFire, awFire, wFire]

/-- No offer after cycle 2. -/
theorem dataFirst_offers (t : Nat) :
    ((dataFirst t).arb.awvalid = true → t = 1) ∧ ((dataFirst t).arb.wvalid = true → t = 0) ∧
      ∀ y, (slaveResp dataFirst y t).bvalid = true → t = 2 ∧ y = .sram := by
  match t with
  | 0 | 1 | 2 =>
      refine ⟨by decide, by decide, fun y => ?_⟩
      cases y <;> decide
  | t + 3 =>
      refine ⟨by simp [dataFirst], by simp [dataFirst], fun y => ?_⟩
      cases y <;> simp [slaveResp, dataFirst, XbarSlaves.pick]

theorem dataFirst_master : MasterOk restXbar dataFirst := by
  refine ⟨fun t h => ?_, fun t h => ?_, fun t h => ?_, fun t h => ?_, fun t h => ?_⟩
  · rw [(dataFirst_offers t).1 h]
    decide +kernel
  · rw [(dataFirst_offers t).2.1 h]
    decide +kernel
  · rw [(dataFirst_offers t).1 h]
    decide +kernel
  · rw [(dataFirst_offers t).1 h]
    decide +kernel
  · rw [(dataFirst_offers t).2.1 h]
    decide +kernel

theorem dataFirst_slaves : SlavesOk restXbar dataFirst := by
  refine ⟨fun y t h => ?_, fun y t h => ?_⟩
  · obtain ⟨rfl, rfl⟩ := (dataFirst_offers t).2.2 y h
    decide +kernel
  · obtain ⟨rfl, rfl⟩ := (dataFirst_offers t).2.2 y h
    decide +kernel

theorem dataFirst_begun {t : Nat} (h : Begun restXbar dataFirst t) : t ≤ 2 := by
  by_contra hLate
  obtain ⟨n, rfl⟩ := Nat.exists_eq_add_of_le (show 3 ≤ t by omega)
  rw [Nat.add_comm] at h
  have hOffers := dataFirst_offers (n + 3)
  rcases h with h | h | h | h
  · have := hOffers.1 h
    omega
  · have := hOffers.2.1 h
    omega
  · simp [(dataFirst_silent n).1] at h
  · simp [(dataFirst_silent n).1] at h

theorem dataFirst_has {y : XbarSel} {t : Nat} {w : Bool}
    (h : slaveHas restXbar dataFirst y t = ⟨true, w⟩) : t = 2 ∧ y = .sram ∧ w = true := by
  match t with
  | 0 => cases h
  | 1 | 2 => revert h; cases y <;> cases w <;> decide +kernel
  | t + 3 => simp [(dataFirst_silent t).2 y] at h

theorem dataFirst_fair : Fair restXbar dataFirst := by
  refine ⟨fun t h => ?_, fun t h => ?_, fun y t h => ?_, fun y t h => ?_, fun y t h => ?_,
    fun t h => ?_⟩
  · exact ⟨2, dataFirst_begun h, .inr (by decide +kernel)⟩
  · exact ⟨2, dataFirst_begun h, .inr (by decide +kernel)⟩
  · have hValid : (dataFirst t).arb.awvalid = true := by
      cases y with
      | idle => cases h
      | uart | sram | clint =>
          rw [(slaveReq_write _ (by decide)).1, Bool.and_eq_true] at h
          exact h.2
    obtain rfl := (dataFirst_offers t).1 hValid
    refine ⟨1, Nat.le_refl 1, ?_⟩
    revert h
    cases y <;> decide +kernel
  · obtain ⟨-, -, hBad⟩ := dataFirst_has h
    cases hBad
  · obtain ⟨rfl, rfl, -⟩ := dataFirst_has h
    exact ⟨2, Nat.le_refl 2, rfl⟩
  · obtain ⟨rfl, -⟩ := (dataFirst_offers t).2.2 _ h
    exact ⟨2, Nat.le_refl 2, rfl⟩

theorem xbar_delivers_once_dataFirst :
    ∃ e addr data strb resp, WriteWindow restXbar dataFirst 0 e ∧
      DeliveredOnce restXbar dataFirst 0 e addr data strb resp :=
  (xbar_delivers_once ⟨rfl, rfl, rfl, rfl, rfl⟩ dataFirst_master dataFirst_slaves).2 dataFirst_fair
    0 rfl (.inr rfl)

end Riscv32.Fabric
