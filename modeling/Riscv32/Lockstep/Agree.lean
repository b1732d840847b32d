import Riscv32.Lockstep.Alu
import Riscv32.Lockstep.Lanes
import Riscv32.Pipeline.Operands

/-!
# NEMU and the hardware, one instruction

`Agree` relates an architectural state of the hardware functions (the
one-instruction machine of the pipeline proof, with plain memory behind its
load/store lanes) to a NEMU machine.  Executing the same word on both sides
keeps them related.

Of the CSRs only the four that both sides implement are compared; NEMU's table of
CSRs has all addresses, the hardware's counters run with the clock.

The lemmas are about the ways a word can change the state, one for each kind of
effect: a register alone (`Agree.step_reg`), nothing but the pc
(`Agree.step_quiet`).  The classes of words in `Lockstep.Step` are put together
from them.
-/

namespace Riscv32.Lockstep

open Riscv32.Rtl
open Riscv32.Nemu
open Riscv32.Pipeline

/-- One instruction of the hardware: decode, execute, CSR file, and the
load/store lanes on plain memory. -/
def rtlStep (q : SeqState) (mem : Pmem) (inst : Word) : SeqState × Pmem :=
  let e := q.entry inst q.csr
  ((q.exec e (busWord mem e.d.aluResult)).1,
    if e.d.isStore then
      writeLanes mem e.d.aluResult (storeWdata e.d.storeSize e.d.aluResult e.d.storeData)
        (storeWstrb e.d.storeSize e.d.aluResult)
    else mem)

/-- The four CSRs both sides implement hold the same values. -/
structure CsrAgree (c : Csr) (f : BitVec 12 → Word) : Prop where
  mstatus : c.mstatus = f 0x300#12
  mtvec : c.mtvec = f 0x305#12
  mepc : c.mepc = f 0x341#12
  mcause : c.mcause = f 0x342#12

/-- Equal architectural states: `pc`, sixteen registers, four CSRs, memory. -/
structure Agree (q : SeqState) (mem : Pmem) (m : Machine) (addr : Word) : Prop where
  pc : q.pc = addr
  gpr : ∀ r : BitVec 5, r.toNat < 16 → q.rf.read r = m.gpr r
  csr : CsrAgree q.csr m.csr
  mem : mem = m.pmem

/-! ## Registers -/

section Registers

variable {rf : RegFile} {e : Entry} {data : Word} {r : BitVec 5}

/-- Reading after a retirement: the written value at `rd`, the old one elsewhere. -/
theorem read_retire_eq (hWe : e.d.rfWe = true) (hr : r.toNat < 16) (hrd : e.d.rd.toNat < 16) :
    (retire rf (e.retired data)).read r =
      if r = 0 then 0 else if r = e.d.rd then e.result data else rf.read r := by
  by_cases hz : r = 0
  · rw [if_pos hz, hz]
    rfl
  rw [if_neg hz]
  by_cases hEq : r = e.d.rd
  · have hNz : (e.d.rd != 0) = true := bne_iff_ne.mpr (hEq ▸ hz)
    rw [if_pos hEq]
    simp only [retire, Entry.retired, hWe, hNz, Bool.and_self, if_true, RegFile.read,
      RegFile.write, hEq]
    exact if_neg (hEq ▸ hz)
  · rw [if_neg hEq, read_retire (fun hw => hEq hw.2.2.symm) hr fun _ => hrd]

theorem read_retire_quiet (hWe : e.d.rfWe = false) :
    (retire rf (e.retired data)) = rf := by
  simp [retire, Entry.retired, hWe]

end Registers

/-! ## What one word does on the hardware side -/

section Effect

variable {q : SeqState} {mem : Pmem} {m m' : Machine} {pc dnpc v inst : Word} {c : Ctrl}

/-- Without jump, branch or trap the next word follows. -/
theorem npc_next (hc : decodeTaken inst = c)
    (hNo : (c.isJal || c.isJalr || c.isBranch || c.trapValid) = false) :
    (q.entry inst q.csr).npc = q.pc + 4 := by
  simp only [Bool.or_eq_false_iff] at hNo
  simp [Entry.npc, SeqState.entry, latch, IduOut.npc, IduOut.redirectValid, hc, hNo]

/-- Without a CSR write the CSRs stay. -/
theorem csr_keep (hc : decodeTaken inst = c) (hNo : (c.csrWen || c.isEcall) = false) :
    archCsr (q.entry inst q.csr).csrNext = archCsr q.csr := by
  simp only [Bool.or_eq_false_iff] at hNo
  rw [Entry.csrNext, archCsr_step]
  simp [SeqState.entry, latch, IduOut.csrIn, hc, hNo]

theorem csrAgree_of_arch {a b : Csr} {f : BitVec 12 → Word} (h : archCsr a = archCsr b)
    (hAgree : CsrAgree b f) : CsrAgree a f := by
  simp only [archCsr, Csr.mk.injEq] at h
  obtain ⟨-, -, h1, h2, h3, h4⟩ := h
  exact ⟨h1.trans hAgree.mstatus, h2.trans hAgree.mtvec, h3.trans hAgree.mepc,
    h4.trans hAgree.mcause⟩

/-- The register file after a word that writes no register. -/
theorem rf_keep (hc : decodeTaken inst = c) (hWe : c.rfWe = false) :
    (rtlStep q mem inst).1.rf = q.rf := by
  have hCtrl : (q.entry inst q.csr).d.toCtrl = c := hc
  exact read_retire_quiet (by rw [hCtrl]; exact hWe)

/-- Registers stay related when neither side writes one. -/
theorem Agree.gpr_keep (h : Agree q mem m pc) (hGpr : m'.gpr = m.gpr) {r : BitVec 5}
    (hr : r.toNat < 16) : q.rf.read r = (m'.setReg 0 0).gpr r := by
  by_cases hz : r = 0
  · rw [hz]
    rfl
  · simp only [Machine.setReg, if_neg hz, hGpr]
    exact h.gpr r hr

/-- Registers stay related when both sides write the same value to `rd`. -/
theorem Agree.gpr_write (h : Agree q mem m pc) (hc : decodeTaken inst = c)
    (hWe : c.rfWe = true) (hRegs : RegsBelow16 inst)
    (hRes : (q.entry inst q.csr).result (busWord mem (q.entry inst q.csr).d.aluResult) = v)
    (hGpr : m'.gpr = (m.setReg (rdIdx inst) v).gpr) {r : BitVec 5} (hr : r.toNat < 16) :
    (rtlStep q mem inst).1.rf.read r = (m'.setReg 0 0).gpr r := by
  have hCtrl : (q.entry inst q.csr).d.toCtrl = c := hc
  have hRd : (q.entry inst q.csr).d.rd.toNat < 16 := hRegs.rd (by rw [hc]; exact hWe)
  have hRead := @read_retire_eq q.rf (q.entry inst q.csr)
    (busWord mem (q.entry inst q.csr).d.aluResult) r (by rw [hCtrl]; exact hWe) hr hRd
  rw [hRes] at hRead
  refine hRead.trans ?_
  simp only [Machine.setReg, hGpr]
  rw [h.gpr r hr]
  rfl

/-- Memory after a word that is no store. -/
theorem mem_keep (hc : decodeTaken inst = c) (hStore : c.isStore = false) :
    (rtlStep q mem inst).2 = mem := by
  have hCtrl : (q.entry inst q.csr).d.toCtrl = c := hc
  simp [rtlStep, hCtrl, hStore]

/-- A word that only writes its destination register. -/
theorem Agree.step_reg (h : Agree q mem m pc) (hc : decodeTaken inst = c)
    (hWe : c.rfWe = true) (hQuiet : (c.isStore || c.csrWen || c.isEcall) = false)
    (hRegs : RegsBelow16 inst) (hNpc : (q.entry inst q.csr).npc = dnpc)
    (hRes : (q.entry inst q.csr).result (busWord mem (q.entry inst q.csr).d.aluResult) = v) :
    Agree (rtlStep q mem inst).1 (rtlStep q mem inst).2 ((m.setReg (rdIdx inst) v).setReg 0 0)
      dnpc := by
  simp only [Bool.or_eq_false_iff] at hQuiet
  refine ⟨hNpc, fun r hr => h.gpr_write hc hWe hRegs hRes rfl hr,
    csrAgree_of_arch (csr_keep hc (by simp [hQuiet])) h.csr, ?_⟩
  rw [mem_keep hc hQuiet.1.1]
  exact h.mem

/-- A word that writes no register and no CSR. -/
theorem Agree.step_quiet (h : Agree q mem m pc) (hc : decodeTaken inst = c)
    (hQuiet : (c.rfWe || c.csrWen || c.isEcall) = false)
    (hNpc : (q.entry inst q.csr).npc = dnpc) (hGpr : m'.gpr = m.gpr) (hCsr : m'.csr = m.csr)
    (hMem : (rtlStep q mem inst).2 = m'.pmem) :
    Agree (rtlStep q mem inst).1 (rtlStep q mem inst).2 (m'.setReg 0 0) dnpc := by
  simp only [Bool.or_eq_false_iff] at hQuiet
  have hKeep : CsrAgree q.csr m'.csr := hCsr ▸ h.csr
  refine ⟨hNpc, ?_, csrAgree_of_arch (csr_keep hc (by simp [hQuiet])) hKeep, hMem⟩
  intro r hr
  rw [rf_keep hc hQuiet.1.1]
  exact h.gpr_keep hGpr hr

end Effect

/-! ## Operands -/

section Operands

variable {q : SeqState} {mem : Pmem} {m : Machine} {pc inst : Word}

private theorem gpr_rs1 (h : Agree q mem m pc) (hRegs : RegsBelow16 inst)
    (hUse : usesRs1 inst = true) : m.gpr (rs1Idx inst) = q.rf.read (rs1Idx inst) :=
  (h.gpr _ (hRegs.rs1 hUse)).symm

private theorem gpr_rs2 (h : Agree q mem m pc) (hRegs : RegsBelow16 inst)
    (hUse : usesRs2 inst = true) : m.gpr (rs2Idx inst) = q.rf.read (rs2Idx inst) :=
  (h.gpr _ (hRegs.rs2 hUse)).symm

theorem operand_I (h : Agree q mem m pc) (hRegs : RegsBelow16 inst)
    (hUse : usesRs1 inst = true) :
    decodeOperand m inst .I =
      { rd := rdIdx inst, src1 := q.rf.read (rs1Idx inst), imm := immI inst } := by
  simp only [decodeOperand, nemuRs1_eq, nemuRd_eq, nemuImmI_eq, gpr_rs1 h hRegs hUse]

theorem operand_R (h : Agree q mem m pc) (hRegs : RegsBelow16 inst)
    (hUse1 : usesRs1 inst = true) (hUse2 : usesRs2 inst = true) :
    decodeOperand m inst .R =
      { rd := rdIdx inst, src1 := q.rf.read (rs1Idx inst), src2 := q.rf.read (rs2Idx inst) } := by
  simp only [decodeOperand, nemuRs1_eq, nemuRs2_eq, nemuRd_eq, gpr_rs1 h hRegs hUse1,
    gpr_rs2 h hRegs hUse2]

theorem operand_U : decodeOperand m inst .U = { rd := rdIdx inst, imm := immU inst } := by
  simp only [decodeOperand, nemuRd_eq, nemuImmU_eq]

theorem operand_S (h : Agree q mem m pc) (hRegs : RegsBelow16 inst)
    (hUse1 : usesRs1 inst = true) (hUse2 : usesRs2 inst = true) :
    decodeOperand m inst .S =
      { rd := rdIdx inst, src1 := q.rf.read (rs1Idx inst), src2 := q.rf.read (rs2Idx inst),
        imm := immS inst } := by
  simp only [decodeOperand, nemuRs1_eq, nemuRs2_eq, nemuRd_eq, nemuImmS_eq,
    gpr_rs1 h hRegs hUse1, gpr_rs2 h hRegs hUse2]

theorem operand_J : decodeOperand m inst .J = { rd := rdIdx inst, imm := immJ inst } := by
  simp only [decodeOperand, nemuRd_eq, nemuImmJ_eq]

theorem operand_B (h : Agree q mem m pc) (hRegs : RegsBelow16 inst)
    (hUse1 : usesRs1 inst = true) (hUse2 : usesRs2 inst = true) :
    decodeOperand m inst .B =
      { rd := rdIdx inst, src1 := q.rf.read (rs1Idx inst), src2 := q.rf.read (rs2Idx inst),
        imm := immB inst } := by
  simp only [decodeOperand, nemuRs1_eq, nemuRs2_eq, nemuRd_eq, nemuImmB_eq,
    gpr_rs1 h hRegs hUse1, gpr_rs2 h hRegs hUse2]

theorem operand_SH (h : Agree q mem m pc) (hRegs : RegsBelow16 inst)
    (hUse : usesRs1 inst = true) :
    decodeOperand m inst .SH =
      { rd := rdIdx inst, src1 := q.rf.read (rs1Idx inst), imm := shamtOf inst } := by
  simp only [decodeOperand, nemuRs1_eq, nemuRd_eq, nemuImmSH_eq, gpr_rs1 h hRegs hUse]

theorem operand_CSRI (h : Agree q mem m pc) (hRegs : RegsBelow16 inst)
    (hUse : usesRs1 inst = true) :
    decodeOperand m inst .CSRI =
      { rd := rdIdx inst, src1 := q.rf.read (rs1Idx inst), imm := nemuImmCSRI inst } := by
  simp only [decodeOperand, nemuRs1_eq, nemuRd_eq, gpr_rs1 h hRegs hUse]

end Operands

end Riscv32.Lockstep
