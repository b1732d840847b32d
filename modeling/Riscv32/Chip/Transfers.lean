import Riscv32.Chip.Run
import Riscv32.Pipeline.Effects

/-!
# Transfer sizes at the chip boundary

Address and strobes of a transfer come from the load/store unit, its size from
elsewhere: `awsize` is tied to one byte at the top level, and the load/store
unit leaves `arsize` undriven.  So exactly the byte accesses fit their size.

`Covered` is the rule of the bus: the strobed lanes lie in the container of
`2 ^ size` bytes at the address.  Which access is on the boundary is read off the
pipeline: it belongs to the oldest instruction that has not committed
(`oldest_of_back`).

`transfers_fit_bytes` is the equivalence, for every run, load and store.
-/

namespace Riscv32.Chip

open Riscv32.Rtl
open Riscv32.Clocked
open Riscv32.Pipeline
open Riscv32.Fabric

/-! ## Sizes and containers -/

/-- The bytes `lb`, `lh`, `lw`, `lbu`, `lhu` read. -/
def loadBytes (size : BitVec 3) : Nat :=
  match size with
  | 0b000#3 | 0b100#3 => 1
  | 0b001#3 | 0b101#3 => 2
  | 0b010#3 => 4
  | _ => 0

/-- The bytes `sb`, `sh`, `sw` write. -/
def storeBytes (size : BitVec 3) : Nat :=
  match size with
  | 0b000#3 => 1
  | 0b001#3 => 2
  | 0b010#3 => 4
  | _ => 0

/-- The access stays inside one aligned word. -/
def InWord (addr : Word) (bytes : Nat) : Prop := addr.toNat % 4 + bytes ≤ 4

instance (addr : Word) (bytes : Nat) : Decidable (InWord addr bytes) :=
  inferInstanceAs (Decidable (_ ≤ _))

/-- The address of a byte lane of the word that holds `addr`. -/
def laneByte (addr : Word) (lane : Fin 4) : Nat := addr.toNat / 4 * 4 + lane

/-- Every strobed lane lies in the container of `2 ^ size` bytes at `addr`. -/
def Covered (addr : Word) (size : BitVec 3) (strb : BitVec 4) : Prop :=
  ∀ lane : Fin 4, strb.getLsbD lane = true →
    laneByte addr lane / 2 ^ size.toNat = addr.toNat / 2 ^ size.toNat

instance (addr : Word) (size : BitVec 3) (strb : BitVec 4) : Decidable (Covered addr size strb) :=
  inferInstanceAs (Decidable (∀ _, _))

/-- The strobes depend on the lane of the address only. -/
private theorem wstrb_lane (size : BitVec 3) (addr : Word) :
    storeWstrb size addr = storeWstrb size ((addr.extractLsb' 0 2).setWidth 32) := by
  have hLane : (((addr.extractLsb' 0 2).setWidth 32).extractLsb' 0 2 : BitVec 2) =
      addr.extractLsb' 0 2 := by
    apply BitVec.eq_of_toNat_eq
    simp
  simp only [storeWstrb, hLane]

private theorem lanes_byte : ∀ (size : BitVec 3) (off : BitVec 2),
    off.toNat + storeBytes size ≤ 4 →
      ((∀ lane : Fin 4, (storeWstrb size (off.setWidth 32)).getLsbD lane = true →
        lane.val = off.toNat) ↔ storeBytes size ≤ 1) := by decide

/-- A one-byte container holds the strobes of a byte access only. -/
theorem covered_byte {addr : Word} {size : BitVec 3}
    (hWord : InWord addr (storeBytes size)) :
    Covered addr 0 (storeWstrb size addr) ↔ storeBytes size ≤ 1 := by
  have hOff : (addr.extractLsb' 0 2).toNat = addr.toNat % 4 := by simp
  rw [← lanes_byte size (addr.extractLsb' 0 2) (hOff ▸ hWord), ← wstrb_lane]
  refine forall_congr' fun lane => imp_congr_right fun _ => ?_
  have hLane : laneByte addr lane = addr.toNat ↔ lane.val = addr.toNat % 4 := by
    unfold laneByte
    omega
  simpa [hOff] using hLane

/-! ## What the boundary shows -/

section Port

variable {s : Soc} {g : Trace} {f : Flight}

/-- A write on the boundary is that of the store in the load/store unit. -/
private theorem write_of_phase {l : Lsu} {oe : Option Entry} {m : PortLog}
    (h : LsuPhase .ysyxsoc l oe m) (hValid : l.aw.valid = true ∨ l.w.valid = true) :
    ∃ e, oe = some e ∧ e.d.isStore = true ∧ l.aw.addr = e.d.aluResult ∧
      l.w.strb = storeWstrb e.d.storeSize e.d.aluResult := by
  cases h with
  | writeReq e _ _ _ _ _ _ hStore _ hAw hW => exact ⟨e, rfl, hStore, by rw [hAw], by rw [hW]⟩
  | readAddr _ _ _ _ _ _ hAw hW => simp [hAw, hW] at hValid
  | empty _ _ hLow | passing _ _ _ _ hLow | waitR _ _ _ _ hLow | loaded _ _ _ _ _ hLow
  | waitB _ _ _ _ hLow | stored _ _ _ _ hLow => simp [hLow.aw, hLow.w] at hValid

/-- A read by the load/store unit is that of the load it holds. -/
private theorem read_of_phase {l : Lsu} {oe : Option Entry} {m : PortLog}
    (h : LsuPhase .ysyxsoc l oe m) (hValid : l.ar.valid = true) :
    ∃ e, oe = some e ∧ e.d.isLoad = true ∧ l.ar.addr = e.d.aluResult := by
  cases h with
  | readAddr e _ _ _ hLoad hAr => exact ⟨e, rfl, hLoad, by rw [hAr]⟩
  | writeReq _ _ _ _ _ _ _ _ hAr => simp [hAr] at hValid
  | empty _ _ hLow | passing _ _ _ _ hLow | waitR _ _ _ _ hLow | loaded _ _ _ _ _ hLow
  | waitB _ _ _ _ hLow | stored _ _ _ _ hLow => simp [hLow.ar] at hValid

/-- The instruction in the load/store unit is the oldest that has not
committed. -/
private theorem oldest_of_back (h : BackInv .ysyxsoc s.core g f) {e : Entry}
    (he : f.lsu = some e) : g.entries[g.commits.length]? = some e ∧ e.WellFormed := by
  have hLen : g.commits.length = f.done.length := by
    simpa using congrArg List.length h.commits
  have hEntries : g.entries = f.done.map Prod.fst ++ e :: f.exu.toList := by
    rw [h.entries, Flight.entries, he]
    simp
  refine ⟨?_, h.wf e (by simp [hEntries])⟩
  have hDone : f.done.length = (f.done.map Prod.fst).length := by simp
  rw [hEntries, hLen, hDone]
  simp

end Port

/-! ## Every transfer -/

section Run

variable {s : Soc} {io : Nat → AxiResp}

/-- The oldest instruction that has not committed before cycle `t`. -/
def oldest (s : Soc) (io : Nat → AxiResp) (t : Nat) : Option Entry :=
  (traceAt .ysyxsoc s.core (coreInp s io) t).entries[
    (traceAt .ysyxsoc s.core (coreInp s io) t).commits.length]?

/-- Stores: the write channels are connected, and show the store's own
address and strobes. -/
theorem write_fits (hReset : s.AfterReset) (t : Nat)
    (hValid : (socAt s io t).ioMasterPort.awvalid = true ∨
      (socAt s io t).ioMasterPort.wvalid = true) :
    ∃ e, oldest s io t = some e ∧ isStoreWord e.d.inst = true ∧
      (socAt s io t).ioMasterPort.awaddr = e.storeAddr ∧
      (InWord e.storeAddr (storeBytes (funct3 e.d.inst)) →
        (Covered (socAt s io t).ioMasterPort.awaddr (socAt s io t).ioMasterPort.awsize
          (socAt s io t).ioMasterPort.wstrb ↔ storeBytes (funct3 e.d.inst) ≤ 1)) := by
  obtain ⟨f, pc, hBack, -⟩ := @coreInv_socAt s io hReset t
  generalize hNow : socAt s io t = now at hValid hBack ⊢
  have hAw : now.ioMasterPort.awvalid =
      (now.arb.writeOpen now.core.lsuAxi && now.core.lsu.aw.valid) := rfl
  have hW : now.ioMasterPort.wvalid =
      (now.arb.writeOpen now.core.lsuAxi && now.core.lsu.w.valid) := rfl
  rw [hAw, hW, Bool.and_eq_true, Bool.and_eq_true, ← and_or_left] at hValid
  obtain ⟨hOpen, hChannel⟩ := hValid
  obtain ⟨e, he, hStore, hAddr, hStrb⟩ := write_of_phase hBack.phase hChannel
  obtain ⟨hOldest, hWf⟩ := oldest_of_back hBack he
  obtain ⟨-, hSize, -, hWord⟩ := wellFormed_fields hWf
  rw [hWord] at hStore
  have hPortAddr : now.ioMasterPort.awaddr = e.storeAddr := by
    rw [← storeAddr_eq hWf hStore, ← hAddr]
    exact if_pos hOpen
  have hPortStrb : now.ioMasterPort.wstrb = storeWstrb (funct3 e.d.inst) e.storeAddr := by
    rw [← storeAddr_eq hWf hStore, ← hSize, ← hStrb]
    exact if_pos hOpen
  refine ⟨e, hOldest, hStore, hPortAddr, fun hIn => ?_⟩
  rw [hPortAddr, hPortStrb]
  exact covered_byte hIn

/-- Loads: a granted request of the load/store unit has size zero. -/
theorem read_fits (hReset : s.AfterReset) (t : Nat)
    (hValid : (socAt s io t).ioMasterPort.arvalid = true)
    (hGrant : (socAt s io t).arb.readGrant = .lsu) :
    ∃ e, oldest s io t = some e ∧ isLoadWord e.d.inst = true ∧
      (socAt s io t).ioMasterPort.araddr = e.loadAddr ∧
      (loadBytes (funct3 e.d.inst) ≤ 2 ^ (socAt s io t).ioMasterPort.arsize.toNat ↔
        loadBytes (funct3 e.d.inst) ≤ 1) := by
  obtain ⟨f, pc, hBack, -⟩ := @coreInv_socAt s io hReset t
  generalize hNow : socAt s io t = now at hValid hGrant hBack ⊢
  have hBus : now.fabric.arbReq.araddr = now.core.lsu.ar.addr ∧
      now.fabric.arbReq.arvalid = now.core.lsu.ar.valid ∧ now.fabric.arbReq.arsize = 0 := by
    simp [Fabric.arbReq, Arbiter.axiArb, Arbiter.granted, Soc.fabric, hGrant, Lsu.axi]
  simp only [Soc.ioMasterPort, Soc.ioMaster, Fabric.socReq, SocXbar.axiSoc, hBus,
    Bool.and_eq_true, Bool.not_eq_true'] at hValid ⊢
  obtain ⟨hOut, hReg⟩ := hValid
  obtain ⟨e, he, hLoad, hAddr⟩ := read_of_phase hBack.phase hReg
  obtain ⟨hOldest, hWf⟩ := oldest_of_back hBack he
  obtain ⟨-, -, hWord, -⟩ := wellFormed_fields hWf
  rw [hWord] at hLoad
  refine ⟨e, hOldest, hLoad, ?_, ?_⟩
  · rw [hOut, ← loadAddr_eq hWf hLoad, ← hAddr]
    rfl
  · rw [ite_self]
    rfl

/-- In every run, a store fits the size shown for it exactly when it writes at
most one byte, and a load exactly when it reads at most one. -/
theorem transfers_fit_bytes (hReset : s.AfterReset) :
    (∀ t, (socAt s io t).ioMasterPort.awvalid = true ∨
        (socAt s io t).ioMasterPort.wvalid = true →
      ∃ e, oldest s io t = some e ∧ isStoreWord e.d.inst = true ∧
        (socAt s io t).ioMasterPort.awaddr = e.storeAddr ∧
        (InWord e.storeAddr (storeBytes (funct3 e.d.inst)) →
          (Covered (socAt s io t).ioMasterPort.awaddr (socAt s io t).ioMasterPort.awsize
            (socAt s io t).ioMasterPort.wstrb ↔ storeBytes (funct3 e.d.inst) ≤ 1))) ∧
    (∀ t, (socAt s io t).ioMasterPort.arvalid = true →
      (socAt s io t).arb.readGrant = .lsu →
      ∃ e, oldest s io t = some e ∧ isLoadWord e.d.inst = true ∧
        (socAt s io t).ioMasterPort.araddr = e.loadAddr ∧
        (loadBytes (funct3 e.d.inst) ≤ 2 ^ (socAt s io t).ioMasterPort.arsize.toNat ↔
          loadBytes (funct3 e.d.inst) ≤ 1)) :=
  ⟨fun t hValid => write_fits hReset t hValid,
    fun t hValid hGrant => read_fits hReset t hValid hGrant⟩

end Run

/-- A memory that answers every beat of a line with the same word. -/
def sameWord (word : Word) (t : Nat) : AxiResp :=
  { arready := true, rvalid := true, rdata := word, rlast := t == 7 }

/-- `sw x0, 0(x0)` is on the write channels in cycle 12. -/
theorem transfers_fit_bytes_store :
    (socAt Soc.powerUp (sameWord 0x00002023) 12).ioMasterPort.awvalid = true ∧
    ∃ e, oldest Soc.powerUp (sameWord 0x00002023) 12 = some e ∧
      InWord e.storeAddr (storeBytes (funct3 e.d.inst)) ∧
      (Covered (socAt Soc.powerUp (sameWord 0x00002023) 12).ioMasterPort.awaddr
        (socAt Soc.powerUp (sameWord 0x00002023) 12).ioMasterPort.awsize
        (socAt Soc.powerUp (sameWord 0x00002023) 12).ioMasterPort.wstrb ↔
          storeBytes (funct3 e.d.inst) ≤ 1) := by
  have hValid : (socAt Soc.powerUp (sameWord 0x00002023) 12).ioMasterPort.awvalid = true := by
    decide +kernel
  have hIn : (oldest Soc.powerUp (sameWord 0x00002023) 12).all fun e =>
      InWord e.storeAddr (storeBytes (funct3 e.d.inst)) := by decide +kernel
  obtain ⟨e, hOldest, -, -, hFits⟩ :=
    (@transfers_fit_bytes Soc.powerUp (sameWord 0x00002023) Soc.powerUp_afterReset).1 12
      (.inl hValid)
  rw [hOldest, Option.all_some, decide_eq_true_eq] at hIn
  exact ⟨hValid, e, hOldest, hIn, hFits hIn⟩

/-- Neither that store nor `lw x0, 0(x0)` fits the size shown for it. -/
theorem word_transfers_too_narrow :
    ((socAt Soc.powerUp (sameWord 0x00002023) 12).ioMasterPort.awvalid = true ∧
      (oldest Soc.powerUp (sameWord 0x00002023) 12).map (·.d.inst) = some 0x00002023 ∧
      (oldest Soc.powerUp (sameWord 0x00002023) 12).map Entry.storeAddr = some 0 ∧
      ¬ Covered (socAt Soc.powerUp (sameWord 0x00002023) 12).ioMasterPort.awaddr
        (socAt Soc.powerUp (sameWord 0x00002023) 12).ioMasterPort.awsize
        (socAt Soc.powerUp (sameWord 0x00002023) 12).ioMasterPort.wstrb) ∧
    ((socAt Soc.powerUp (sameWord 0x00002003) 13).ioMasterPort.arvalid = true ∧
      (oldest Soc.powerUp (sameWord 0x00002003) 13).map (·.d.inst) = some 0x00002003 ∧
      (oldest Soc.powerUp (sameWord 0x00002003) 13).map Entry.loadAddr = some 0 ∧
      ¬ 4 ≤ 2 ^ (socAt Soc.powerUp (sameWord 0x00002003) 13).ioMasterPort.arsize.toNat) := by
  decide +kernel

end Riscv32.Chip
