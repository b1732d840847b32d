import Riscv32.Lockstep.Agree

/-!
# Lockstep

Class by class of the decode table, the word's line in NEMU's table and the
hardware functions have the same effect; together they give the lockstep
theorem for every word of the common instruction set.

`Locked n` is the statement for one line of the table.  A class is proved once,
with the operation as its parameter (`locked_op`, `locked_opImm`,
`locked_branch`, `locked_load`, `locked_store`), so that a line of the table is
an instance that only names its operation.  The CSR words come last: they differ
in when they write, not in what is left (`locked_csrrs`).
-/

namespace Riscv32.Lockstep

open Riscv32.Rtl
open Riscv32.Nemu
open Riscv32.Pipeline

/-- Running the body of line `n` on the NEMU side keeps the states related. -/
def Locked (b : Build) (q : SeqState) (mem : Pmem) (m : Machine) (pc inst : Word) (n : Name) :
    Prop :=
  ∃ m' dnpc, body b m pc (decodeOperand m inst (typeOf n)) n = some (m', dnpc) ∧
    Agree (rtlStep q mem inst).1 (rtlStep q mem inst).2 (m'.setReg 0 0) dnpc

section Classes

variable {b : Build} {q : SeqState} {mem : Pmem} {m : Machine} {pc inst : Word} {n : Name}

/-! ### Register results -/

/-- `OP` words. -/
theorem locked_op (h : Agree q mem m pc) (hRegs : RegsBelow16 inst)
    (hOp : opcode inst = 0b0110011#7) (k : Word → Word → Word) (hType : typeOf n = .R)
    (hBody : ∀ o, body b m pc o n = some (m.setReg o.rd (k o.src1 o.src2), pc + 4))
    (hVal : ∀ x y, aluResult (opAluOp (funct3 inst) (funct7 inst)) x y = k x y) :
    Locked b q mem m pc inst n := by
  have hc := decodeTaken_op hOp
  have hOperand := operand_R h hRegs (by simp [usesRs1, hOp]) (by simp [usesRs2, hOp])
  refine ⟨_, _, by rw [hType, hOperand]; exact hBody _, ?_⟩
  refine h.step_reg hc rfl rfl hRegs (by rw [npc_next hc rfl, h.pc]) ?_
  rw [← hVal]
  simp [Entry.result, SeqState.entry, latch, IduOut.wbData, IduOut.aluResult, IduOut.aluSrc1,
    IduOut.aluSrc2, hc]

/-- `OP-IMM` words; `i` is the immediate as NEMU decodes it. -/
theorem locked_opImm (h : Agree q mem m pc) (hRegs : RegsBelow16 inst)
    (hOp : opcode inst = 0b0010011#7) (k : Word → Word → Word) {i : Word}
    (hOperand : decodeOperand m inst (typeOf n) =
      { rd := rdIdx inst, src1 := q.rf.read (rs1Idx inst), imm := i })
    (hBody : ∀ o, body b m pc o n = some (m.setReg o.rd (k o.src1 o.imm), pc + 4))
    (hVal : ∀ x, aluResult (opImmAluOp (funct3 inst) (funct7 inst)) x
      (if funct3 inst = 0b101#3 then shamtOf inst else immI inst) = k x i) :
    Locked b q mem m pc inst n := by
  have hc := decodeTaken_opImm hOp
  refine ⟨_, _, by rw [hOperand]; exact hBody _, ?_⟩
  refine h.step_reg hc rfl rfl hRegs (by rw [npc_next hc rfl, h.pc]) ?_
  rw [← hVal]
  by_cases hF3 : funct3 inst = 0b101#3 <;>
    simp [Entry.result, SeqState.entry, latch, IduOut.wbData, IduOut.aluResult, IduOut.aluSrc1,
      IduOut.aluSrc2, hc, hF3, immOf, hOp]

theorem locked_lui (h : Agree q mem m pc) (hRegs : RegsBelow16 inst)
    (hOp : opcode inst = 0b0110111#7) : Locked b q mem m pc inst .lui := by
  have hc := decodeTaken_lui hOp
  refine ⟨_, _, by rw [typeOf, operand_U]; rfl, ?_⟩
  refine h.step_reg hc rfl rfl hRegs (by rw [npc_next hc rfl, h.pc]) ?_
  simp [Entry.result, SeqState.entry, latch, IduOut.wbData, IduOut.aluResult, IduOut.aluSrc1,
    IduOut.aluSrc2, hc, aluResult, immOf, hOp]

theorem locked_auipc (h : Agree q mem m pc) (hRegs : RegsBelow16 inst)
    (hOp : opcode inst = 0b0010111#7) : Locked b q mem m pc inst .auipc := by
  have hc := decodeTaken_auipc hOp
  refine ⟨_, _, by rw [typeOf, operand_U]; rfl, ?_⟩
  refine h.step_reg hc rfl rfl hRegs (by rw [npc_next hc rfl, h.pc]) ?_
  simp [Entry.result, SeqState.entry, latch, IduOut.wbData, IduOut.aluResult, IduOut.aluSrc1,
    IduOut.aluSrc2, hc, aluResult, immOf, hOp, h.pc]

/-! ### Jumps and branches -/

theorem locked_jal (h : Agree q mem m pc) (hRegs : RegsBelow16 inst)
    (hOp : opcode inst = 0b1101111#7) : Locked b q mem m pc inst .jal := by
  have hc := decodeTaken_jal hOp
  refine ⟨_, _, by rw [typeOf, operand_J]; rfl, ?_⟩
  refine h.step_reg hc rfl rfl hRegs ?_ ?_
  · simp [Entry.npc, SeqState.entry, latch, IduOut.npc, IduOut.redirectValid, IduOut.redirectPc,
      IduOut.jalTarget, hc, immOf, hOp, h.pc, BitVec.add_comm]
  · simp [Entry.result, SeqState.entry, latch, IduOut.wbData, hc, h.pc]

theorem locked_jalr (h : Agree q mem m pc) (hRegs : RegsBelow16 inst)
    (hOp : opcode inst = 0b1100111#7) (hF3 : funct3 inst = 0b000#3) :
    Locked b q mem m pc inst .jalr := by
  have hc := decodeTaken_jalr hOp hF3
  have hOperand := operand_I h hRegs (by simp [usesRs1, hOp, hF3])
  refine ⟨_, _, by rw [typeOf, hOperand]; rfl, ?_⟩
  refine h.step_reg hc rfl rfl hRegs ?_ ?_
  · simp [Entry.npc, SeqState.entry, latch, IduOut.npc, IduOut.redirectValid, IduOut.redirectPc,
      IduOut.jalrTarget, hc, immOf, hOp, BitVec.add_comm]
  · simp [Entry.result, SeqState.entry, latch, IduOut.wbData, hc, h.pc]

/-- Branches; `k` is NEMU's condition. -/
theorem locked_branch (h : Agree q mem m pc) (hRegs : RegsBelow16 inst)
    (hOp : opcode inst = 0b1100011#7) (k : Word → Word → Bool) (hType : typeOf n = .B)
    (hBody : ∀ o, body b m pc o n =
      some (m, if k o.src1 o.src2 then pc + o.imm else pc + 4))
    (hTaken : (q.entry inst q.csr).d.branchTaken =
      k (q.rf.read (rs1Idx inst)) (q.rf.read (rs2Idx inst))) :
    Locked b q mem m pc inst n := by
  have hc := decodeTaken_branch hOp
  have hOperand := operand_B h hRegs (by simp [usesRs1, hOp]) (by simp [usesRs2, hOp])
  refine ⟨_, _, by rw [hType, hOperand]; exact hBody _, ?_⟩
  refine h.step_quiet hc rfl ?_ rfl rfl ?_
  · have hNpc : (q.entry inst q.csr).npc =
        if (q.entry inst q.csr).d.branchTaken then q.pc + immB inst else q.pc + 4 := by
      have hCtrl : (q.entry inst q.csr).d.toCtrl = _ := hc
      have hImm : (q.entry inst q.csr).d.imm = immB inst := by
        simp [SeqState.entry, latch, immOf, hOp]
      have hCsr : (q.entry inst q.csr).csr = q.csr := rfl
      have hPc : (q.entry inst q.csr).d.pc = q.pc := rfl
      cases hT : (q.entry inst q.csr).d.branchTaken <;>
        simp [Entry.npc, IduOut.npc, IduOut.redirectValid, IduOut.redirectPc,
          IduOut.jalTarget, hCtrl, hT, hImm, hPc, BitVec.add_comm]
    rw [hNpc, hTaken, h.pc]
  · exact (mem_keep hc rfl).trans h.mem

/-! ### Loads and stores -/

/-- Loads; `f` is NEMU's extension of the bytes read. -/
theorem locked_load (h : Agree q mem m pc) (hRegs : RegsBelow16 inst)
    (hOp : opcode inst = 0b0000011#7) (len : Nat) (f : Word → Word) (hType : typeOf n = .I)
    (hBody : ∀ o, body b m pc o n =
      (paddrRead b m.pmem (o.src1 + o.imm) len).map fun v => (m.setReg o.rd (f v), pc + 4))
    (hPlain : readable b (q.rf.read (rs1Idx inst) + immI inst) = true)
    (hVal : loadExtract (funct3 inst) (q.rf.read (rs1Idx inst) + immI inst)
        (busWord mem (q.rf.read (rs1Idx inst) + immI inst)) =
      f (hostRead mem (q.rf.read (rs1Idx inst) + immI inst) len)) :
    Locked b q mem m pc inst n := by
  have hc := decodeTaken_load hOp
  have hOperand := operand_I h hRegs (by simp [usesRs1, hOp])
  refine ⟨_, _, by rw [hType, hOperand, hBody]; simp only [paddrRead, hPlain]; rfl, ?_⟩
  refine h.step_reg hc rfl rfl hRegs (by rw [npc_next hc rfl, h.pc]) ?_
  rw [← h.mem, ← hVal]
  simp [Entry.result, SeqState.entry, latch, IduOut.aluResult, IduOut.aluSrc1, IduOut.aluSrc2,
    hc, aluResult, immOf, hOp]

/-- Stores. -/
theorem locked_store (h : Agree q mem m pc) (hRegs : RegsBelow16 inst)
    (hOp : opcode inst = 0b0100011#7) (len : Nat) (hType : typeOf n = .S)
    (hBody : ∀ o, body b m pc o n =
      (paddrWrite b m.pmem (o.src1 + o.imm) len o.src2).map fun mem =>
        ({ m with pmem := mem }, pc + 4))
    (hPlain : writable b (q.rf.read (rs1Idx inst) + immS inst) = true)
    (hLanes : ∀ data, writeLanes mem (q.rf.read (rs1Idx inst) + immS inst)
        (storeWdata (funct3 inst) (q.rf.read (rs1Idx inst) + immS inst) data)
        (storeWstrb (funct3 inst) (q.rf.read (rs1Idx inst) + immS inst)) =
      hostWrite mem (q.rf.read (rs1Idx inst) + immS inst) len data) :
    Locked b q mem m pc inst n := by
  have hc := decodeTaken_store hOp
  have hOperand := operand_S h hRegs (by simp [usesRs1, hOp]) (by simp [usesRs2, hOp])
  refine ⟨_, _, by rw [hType, hOperand, hBody]; simp only [paddrWrite, hPlain]; rfl, ?_⟩
  refine h.step_quiet hc rfl (by rw [npc_next hc rfl, h.pc]) rfl rfl ?_
  rw [← h.mem, ← hLanes]
  simp [rtlStep, SeqState.entry, latch, IduOut.aluResult, IduOut.aluSrc1, IduOut.aluSrc2,
    IduOut.storeData, hc, aluResult, immOf, hOp]

/-! ### System words -/

theorem locked_fence (h : Agree q mem m pc) (hOp : opcode inst = 0b0001111#7)
    (hF3 : funct3 inst = 0b001#3) : Locked b q mem m pc inst .fence := by
  have hc := decodeTaken_fence hOp hF3
  refine ⟨m, pc + 4, rfl, h.step_quiet hc rfl (by rw [npc_next hc rfl, h.pc]) rfl rfl ?_⟩
  exact (mem_keep hc rfl).trans h.mem

theorem locked_ebreak (h : Agree q mem m pc) : Locked b q mem m pc ebreakWord .ebreak := by
  have hc := decodeTaken_ebreak
  refine ⟨_, _, rfl, h.step_quiet hc rfl (by rw [npc_next hc rfl, h.pc]) rfl rfl ?_⟩
  exact (mem_keep hc rfl).trans h.mem

theorem locked_mret (h : Agree q mem m pc) : Locked b q mem m pc mretWord .mret := by
  have hc := decodeTaken_mret
  refine ⟨_, _, rfl, h.step_quiet hc rfl ?_ rfl rfl ?_⟩
  · simp [Entry.npc, SeqState.entry, latch, IduOut.npc, IduOut.redirectValid, IduOut.redirectPc,
      IduOut.trapPc, hc, h.csr.mepc]
  · exact (mem_keep hc rfl).trans h.mem

end Classes

/-! ### Words that write CSRs -/

section Csrs

variable {b : Build} {q : SeqState} {mem : Pmem} {m : Machine} {pc inst : Word}

/-- The CSRs both sides implement. -/
def CommonCsr (a : BitVec 12) : Prop :=
  a = 0x300#12 ∨ a = 0x305#12 ∨ a = 0x341#12 ∨ a = 0x342#12

theorem CsrAgree.rdata {c : Csr} {f : BitVec 12 → Word} (h : CsrAgree c f) {a : BitVec 12}
    (ha : CommonCsr a) : c.rdata a = f a := by
  rcases ha with rfl | rfl | rfl | rfl
  · exact h.mstatus
  · exact h.mtvec
  · exact h.mepc
  · exact h.mcause

/-- A write of one of the common CSRs, on both sides. -/
theorem CsrAgree.write {c : Csr} {f : BitVec 12 → Word} (h : CsrAgree c f) {a : BitVec 12}
    (ha : CommonCsr a) (v : Word) :
    CsrAgree (c.write a v) fun x => if x = a then v else f x := by
  obtain ⟨h1, h2, h3, h4⟩ := h
  rcases ha with rfl | rfl | rfl | rfl <;>
    exact ⟨by simp [Csr.write, h1], by simp [Csr.write, h2], by simp [Csr.write, h3],
      by simp [Csr.write, h4]⟩

theorem locked_ecall (h : Agree q mem m pc) : Locked b q mem m pc ecallWord .ecall := by
  have hc := decodeTaken_ecall
  refine ⟨_, _, rfl, ⟨?_, ?_, ?_, (mem_keep hc rfl).trans h.mem⟩⟩
  · simp [rtlStep, SeqState.exec, Entry.npc, SeqState.entry, latch, IduOut.npc,
      IduOut.redirectValid, IduOut.redirectPc, IduOut.trapPc, hc, h.csr.mtvec,
      Machine.setCsr]
  · intro r hr
    rw [rf_keep hc rfl]
    exact h.gpr_keep rfl hr
  · obtain ⟨h1, h2, -, -⟩ := h.csr
    have hNext : archCsr (rtlStep q mem ecallWord).1.csr =
        archCsr { q.csr with mepc := q.pc, mcause := 11 } := by
      refine (archCsr_step q.csr ((q.entry ecallWord q.csr).d.csrIn q.csr true)).trans ?_
      simp [SeqState.entry, latch, IduOut.csrIn, hc, archCsr]
    refine csrAgree_of_arch hNext ⟨?_, ?_, ?_, ?_⟩
    · simp [Machine.setCsr, Machine.setReg, h1]
    · simp [Machine.setCsr, Machine.setReg, h2]
    · simp [Machine.setCsr, Machine.setReg, h.pc]
    · simp [Machine.setCsr, Machine.setReg]

/-- The CSRs after a word that writes one. -/
private theorem csr_written {c : Ctrl} (hc : decodeTaken inst = c) (hWen : c.csrWen = true)
    (hEcall : c.isEcall = false) :
    archCsr (rtlStep q mem inst).1.csr =
      archCsr (q.csr.write (csrAddrOf inst) ((q.entry inst q.csr).d.csrWdata q.csr)) := by
  refine (archCsr_step q.csr ((q.entry inst q.csr).d.csrIn q.csr true)).trans ?_
  simp [SeqState.entry, latch, IduOut.csrIn, hc, hWen, hEcall]

/-- A CSR word moves the old CSR value to `rd`; NEMU may leave `x0` to its
reset after the body. -/
private theorem Agree.step_csr {m' : Machine} {op : CsrOpSel} {wen : Bool} (h : Agree q mem m pc)
    (hc : decodeTaken inst =
      { rfWe := decide (rdIdx inst ≠ 0), wbSel := .csr, csrWen := wen, csrOpSel := op })
    (hRegs : RegsBelow16 inst) (hCommon : CommonCsr (csrAddrOf inst))
    (hGpr : ∀ r, r ≠ 0 → m'.gpr r = (m.setReg (rdIdx inst) (m.csr (csrAddrOf inst))).gpr r)
    (hCsr : CsrAgree (rtlStep q mem inst).1.csr m'.csr) (hMem : m'.pmem = m.pmem) :
    Agree (rtlStep q mem inst).1 (rtlStep q mem inst).2 (m'.setReg 0 0) (pc + 4) := by
  have hNpc : (q.entry inst q.csr).npc = pc + 4 := by rw [npc_next hc rfl, h.pc]
  refine ⟨hNpc, ?_, hCsr, ((mem_keep hc rfl).trans h.mem).trans hMem.symm⟩
  intro r hr
  by_cases hz : r = 0
  · rw [hz]
    rfl
  have hNemu : (m'.setReg 0 0).gpr r =
      (m.setReg (rdIdx inst) (m.csr (csrAddrOf inst))).gpr r := by
    rw [← hGpr r hz]
    exact if_neg hz
  rw [hNemu]
  by_cases hRd : rdIdx inst = 0#5
  · rw [rf_keep hc (by simp [hRd]), h.gpr r hr]
    exact (if_neg (hRd ▸ hz)).symm
  · have hRes : (q.entry inst q.csr).result (busWord mem (q.entry inst q.csr).d.aluResult) =
        m.csr (csrAddrOf inst) := by
      rw [← h.csr.rdata hCommon]
      simp [Entry.result, SeqState.entry, latch, IduOut.wbData, hc]
    refine (h.gpr_write (v := m.csr (csrAddrOf inst)) hc (by simp [hRd]) hRegs hRes rfl hr).trans ?_
    exact if_neg hz

theorem locked_csrrw (h : Agree q mem m pc) (hRegs : RegsBelow16 inst)
    (hOp : opcode inst = 0b1110011#7) (hF3 : funct3 inst = 0b001#3)
    (hCommon : CommonCsr (csrAddrOf inst)) : Locked b q mem m pc inst .csrrw := by
  have hc := decodeTaken_csrrw hOp hF3
  have hOperand := operand_CSRI h hRegs (by simp [usesRs1, hOp, hF3])
  refine ⟨_, _, by rw [typeOf, hOperand]; rfl, h.step_csr hc hRegs hCommon ?_ ?_ ?_⟩
  · intro r hr
    by_cases hRd : rdIdx inst = 0#5
    · simp [Machine.setCsr, Machine.setReg, hRd, show r ≠ 0#5 from hr]
    · simp [Machine.setCsr, hRd, nemuImmCSRI_eq]
  · refine csrAgree_of_arch (csr_written hc rfl rfl) ?_
    have hData : (q.entry inst q.csr).d.csrWdata q.csr = q.rf.read (rs1Idx inst) := by
      simp [SeqState.entry, latch, IduOut.csrWdata, hc]
    have hWrite := h.csr.write hCommon (q.rf.read (rs1Idx inst))
    rw [hData]
    by_cases hRd : rdIdx inst = 0#5 <;>
      simpa [Machine.setCsr, Machine.setReg, hRd, nemuImmCSRI_eq] using hWrite
  · by_cases hRd : rdIdx inst = 0#5 <;> simp [Machine.setCsr, Machine.setReg, hRd]

/-- `csrrs` writes on the hardware when `rs1` is not `x0`, in NEMU when the
value of `rs1` is not zero: the difference writes the old value back. -/
theorem locked_csrrs (h : Agree q mem m pc) (hRegs : RegsBelow16 inst)
    (hOp : opcode inst = 0b1110011#7) (hF3 : funct3 inst = 0b010#3)
    (hCommon : CommonCsr (csrAddrOf inst)) : Locked b q mem m pc inst .csrrs := by
  have hc := decodeTaken_csrrs hOp hF3
  have hOperand := operand_CSRI h hRegs (by simp [usesRs1, hOp, hF3])
  refine ⟨_, _, by rw [typeOf, hOperand]; rfl, h.step_csr hc hRegs hCommon ?_ ?_ ?_⟩
  · intro r _
    by_cases hSrc : q.rf.read (rs1Idx inst) = 0#32 <;>
      simp [Machine.setCsr, Machine.setReg, hSrc, nemuImmCSRI_eq]
  · have hRead : q.csr.rdata (csrAddrOf inst) = m.csr (csrAddrOf inst) := h.csr.rdata hCommon
    have hData : (q.entry inst q.csr).d.csrWdata q.csr =
        m.csr (csrAddrOf inst) ||| q.rf.read (rs1Idx inst) := by
      simp [SeqState.entry, latch, IduOut.csrWdata, hc, hRead]
    have hWrite := h.csr.write hCommon (m.csr (csrAddrOf inst) ||| q.rf.read (rs1Idx inst))
    by_cases hRs : rs1Idx inst = 0#5
    · have hSrc : q.rf.read (rs1Idx inst) = 0#32 := by rw [hRs]; rfl
      refine csrAgree_of_arch (csr_keep hc (by simp [hRs])) ?_
      simpa [Machine.setReg, hSrc] using h.csr
    · refine csrAgree_of_arch (csr_written hc (by simpa using hRs) rfl) ?_
      rw [hData]
      by_cases hSrc : q.rf.read (rs1Idx inst) = 0#32
      · have hSame : (fun x => if x = csrAddrOf inst then
            m.csr (csrAddrOf inst) ||| q.rf.read (rs1Idx inst) else m.csr x) = m.csr := by
          funext x
          by_cases hx : x = csrAddrOf inst <;> simp [hx, hSrc]
        rw [hSame] at hWrite
        simpa [Machine.setReg, hSrc] using hWrite
      · simpa [Machine.setCsr, Machine.setReg, hSrc, nemuImmCSRI_eq] using hWrite
  · by_cases hSrc : q.rf.read (rs1Idx inst) = 0#32 <;> simp [Machine.setCsr, Machine.setReg, hSrc]

end Csrs

end Riscv32.Lockstep
