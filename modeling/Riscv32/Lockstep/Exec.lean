import Riscv32.Lockstep.Step

/-!
# The lockstep theorem

Every word of the instruction set that NEMU's table and the decode unit share
has the same effect on both sides.  The words are classified by the line of
the table that accepts them; each line is an instance of one of the classes
of `Lockstep.Step`.

`Common` collects the conditions under which the two are comparable: registers of
RV32E, a CSR that both have, and memory accesses inside one aligned word of plain
memory.  All of them are conditions on the word and the state before it.

`locked_of_line` goes through the table, line by line; `decodeExec_agrees` is the
theorem for any word of the set.
-/

namespace Riscv32.Lockstep

open Riscv32.Rtl
open Riscv32.Nemu
open Riscv32.Pipeline

/-! ## The common instruction set -/

/-- An `M` extension word. -/
def MulDiv (inst : Word) : Prop := opcode inst = 0b0110011#7 ∧ funct7 inst = 0b0000001#7

/-- Bytes accessed by a load or store with this `funct3`. -/
def accessLen (f3 : BitVec 3) : Nat :=
  match f3 with
  | 0b000#3 | 0b100#3 => 1
  | 0b001#3 | 0b101#3 => 2
  | _ => 4

/-- The conditions on a word in a state: registers of RV32E, a CSR both sides
have, and memory accesses inside one aligned word of plain memory. -/
structure Common (b : Build) (q : SeqState) (inst : Word) : Prop where
  regs : RegsBelow16 inst
  noMulDiv : ¬ MulDiv inst
  csr : opcode inst = 0b1110011#7 → funct3 inst = 0b001#3 ∨ funct3 inst = 0b010#3 →
    CommonCsr (csrAddrOf inst)
  load : opcode inst = 0b0000011#7 →
    readable b (q.rf.read (rs1Idx inst) + immI inst) = true ∧
      InWord (q.rf.read (rs1Idx inst) + immI inst) (accessLen (funct3 inst))
  store : opcode inst = 0b0100011#7 →
    writable b (q.rf.read (rs1Idx inst) + immS inst) = true ∧
      InWord (q.rf.read (rs1Idx inst) + immS inst) (accessLen (funct3 inst))

/-- The word is accepted by a line of the table other than the last. -/
def Matched (inst : Word) : Prop :=
  ∃ r ∈ instpats, r.name ≠ .inv ∧ r.accepts inst = true

/-- The line that runs for a matched word is not the last one. -/
theorem Matched.find {inst : Word} (h : Matched inst) :
    ∃ r, instpats.find? (·.accepts inst) = some r ∧ r.name ≠ .inv := by
  obtain ⟨r, hMem, hName, hAccept⟩ := h
  have hSplit : instpats = instpats.dropLast ++ [instpats.getLast (by decide)] :=
    (List.dropLast_append_getLast _).symm
  have hLast : (instpats.getLast (by decide)).name = .inv := by decide
  have hInit : ∀ x ∈ instpats.dropLast, x.name ≠ .inv := by decide
  have hEarly : r ∈ instpats.dropLast := by
    rw [hSplit, List.mem_append, List.mem_singleton] at hMem
    rcases hMem with hMem | rfl
    · exact hMem
    · exact absurd hLast hName
  have hSome : (instpats.dropLast.find? (·.accepts inst)).isSome :=
    List.find?_isSome.mpr ⟨r, hEarly, hAccept⟩
  obtain ⟨r', hFind⟩ := Option.isSome_iff_exists.mp hSome
  refine ⟨r', ?_, hInit r' (List.mem_of_find?_eq_some hFind)⟩
  rw [hSplit, List.find?_append, hFind]
  rfl

/-! ## Line by line -/

section Lines

variable {b : Build} {q : SeqState} {mem : Pmem} {m : Machine} {pc inst : Word} {n : Name}

/-- The lines of `OP` words. -/
private theorem line_op (h : Agree q mem m pc) (hRegs : RegsBelow16 inst) {f3 : BitVec 3}
    {f7 : BitVec 7} (hEnc : (Enc.funct7 0b0110011#7 f3 f7).holds inst) (k : Word → Word → Word)
    (hType : typeOf n = .R)
    (hBody : ∀ o, body b m pc o n = some (m.setReg o.rd (k o.src1 o.src2), pc + 4))
    (hVal : ∀ x y, aluResult (opAluOp f3 f7) x y = k x y) : Locked b q mem m pc inst n := by
  obtain ⟨hOp, rfl, rfl⟩ := hEnc
  exact locked_op h hRegs hOp k hType hBody hVal

/-- The lines of `OP-IMM` words with an I-immediate. -/
private theorem line_opImm (h : Agree q mem m pc) (hRegs : RegsBelow16 inst) {f3 : BitVec 3}
    (hEnc : (Enc.funct3 0b0010011#7 f3).holds inst) (k : Word → Word → Word)
    (hType : typeOf n = .I) (hNoShift : f3 ≠ 0b101#3)
    (hBody : ∀ o, body b m pc o n = some (m.setReg o.rd (k o.src1 o.imm), pc + 4))
    (hVal : ∀ f7 x y, aluResult (opImmAluOp f3 f7) x y = k x y) :
    Locked b q mem m pc inst n := by
  obtain ⟨hOp, rfl⟩ := hEnc
  have hOperand := operand_I h hRegs (by simp [usesRs1, hOp])
  refine locked_opImm h hRegs hOp k (by rw [hType]; exact hOperand) hBody fun x => ?_
  rw [if_neg hNoShift]
  exact hVal _ _ _

/-- The lines of `OP-IMM` words with a shift amount. -/
private theorem line_shift (h : Agree q mem m pc) (hRegs : RegsBelow16 inst) {f3 : BitVec 3}
    {f7 : BitVec 7} (hEnc : (Enc.funct7 0b0010011#7 f3 f7).holds inst) (k : Word → Word → Word)
    (hType : typeOf n = .SH)
    (hBody : ∀ o, body b m pc o n = some (m.setReg o.rd (k o.src1 o.imm), pc + 4))
    (hVal : ∀ x, aluResult (opImmAluOp f3 f7) x
      (if f3 = 0b101#3 then shamtOf inst else immI inst) = k x (shamtOf inst)) :
    Locked b q mem m pc inst n := by
  obtain ⟨hOp, rfl, rfl⟩ := hEnc
  have hOperand := operand_SH h hRegs (by simp [usesRs1, hOp])
  exact locked_opImm h hRegs hOp k (by rw [hType]; exact hOperand) hBody hVal

/-- The lines of branches. -/
private theorem line_branch (h : Agree q mem m pc) (hRegs : RegsBelow16 inst) {f3 : BitVec 3}
    (hEnc : (Enc.funct3 0b1100011#7 f3).holds inst) (k : Word → Word → Bool)
    (hType : typeOf n = .B)
    (hBody : ∀ o, body b m pc o n = some (m, if k o.src1 o.src2 then pc + o.imm else pc + 4))
    (hTaken : ∀ d : IduOut, d.branchOp = f3 → d.branchTaken = k d.src1Data d.src2Data) :
    Locked b q mem m pc inst n := by
  obtain ⟨hOp, hF3⟩ := hEnc
  exact locked_branch h hRegs hOp k hType hBody (hTaken (q.entry inst q.csr).d hF3)

/-- The lines of loads. -/
private theorem line_load (h : Agree q mem m pc) (hCommon : Common b q inst) {f3 : BitVec 3}
    (hEnc : (Enc.funct3 0b0000011#7 f3).holds inst) (f : Word → Word) (hType : typeOf n = .I)
    (hBody : ∀ o, body b m pc o n =
      (paddrRead b m.pmem (o.src1 + o.imm) (accessLen f3)).map fun v =>
        (m.setReg o.rd (f v), pc + 4))
    (hVal : ∀ addr, InWord addr (accessLen f3) →
      loadExtract f3 addr (busWord mem addr) = f (hostRead mem addr (accessLen f3))) :
    Locked b q mem m pc inst n := by
  obtain ⟨hOp, rfl⟩ := hEnc
  obtain ⟨hPlain, hIn⟩ := hCommon.load hOp
  exact locked_load h hCommon.regs hOp _ f hType hBody hPlain (hVal _ hIn)

/-- The lines of stores. -/
private theorem line_store (h : Agree q mem m pc) (hCommon : Common b q inst) {f3 : BitVec 3}
    (hEnc : (Enc.funct3 0b0100011#7 f3).holds inst) (hType : typeOf n = .S)
    (hBody : ∀ o, body b m pc o n =
      (paddrWrite b m.pmem (o.src1 + o.imm) (accessLen f3) o.src2).map fun mem =>
        ({ m with pmem := mem }, pc + 4))
    (hLanes : ∀ addr data, InWord addr (accessLen f3) →
      writeLanes mem addr (storeWdata f3 addr data) (storeWstrb f3 addr) =
        hostWrite mem addr (accessLen f3) data) :
    Locked b q mem m pc inst n := by
  obtain ⟨hOp, rfl⟩ := hEnc
  obtain ⟨hPlain, hIn⟩ := hCommon.store hOp
  exact locked_store h hCommon.regs hOp _ hType hBody hPlain fun data => hLanes _ data hIn

private theorem shift_imm (x y : Word) :
    x <<< (y.extractLsb' 0 5) = x <<< (y &&& 0x1f) ∧
      x >>> (y.extractLsb' 0 5) = x >>> (y &&& 0x1f) ∧
      x.sshiftRight' (y.extractLsb' 0 5) = x.sshiftRight' (y &&& 0x1f) := by
  simp only [BitVec.shiftLeft_eq', BitVec.ushiftRight_eq', BitVec.sshiftRight_eq', shiftAmount,
    and_self]

/-- Every line but the `M` extension's and the last keeps the states related. -/
theorem locked_of_line (h : Agree q mem m pc) (hCommon : Common b q inst)
    (hEnc : ∀ e, encOf n = some e → e.holds inst) (hInv : n ≠ .inv) :
    Locked b q mem m pc inst n := by
  have hRegs := hCommon.regs
  cases n with
  | auipc => exact locked_auipc h hRegs (hEnc _ rfl)
  | lui => exact locked_lui h hRegs (hEnc _ rfl)
  | lbu =>
      exact line_load h hCommon (hEnc _ rfl) id rfl (fun _ => rfl) fun _ => loadExtract_lbu mem
  | lb => exact line_load h hCommon (hEnc _ rfl) _ rfl (fun _ => rfl) fun _ => loadExtract_lb mem
  | lh => exact line_load h hCommon (hEnc _ rfl) _ rfl (fun _ => rfl) fun _ => loadExtract_lh mem
  | lw => exact line_load h hCommon (hEnc _ rfl) id rfl (fun _ => rfl) fun _ => loadExtract_lw mem
  | lhu => exact line_load h hCommon (hEnc _ rfl) id rfl (fun _ => rfl) fun _ => loadExtract_lhu mem
  | sltiu =>
      refine line_opImm h hRegs (hEnc _ rfl) (fun x y => ofCmp (x.ult y)) rfl (by decide)
        (fun _ => rfl) fun _ x y => ?_
      simp [opImmAluOp, aluResult, noBorrow_eq, setWidth_ofBool]
  | srli =>
      refine line_shift h hRegs (hEnc _ rfl) (· >>> ·) rfl (fun _ => rfl) fun x => ?_
      show x >>> (shamtOf inst).extractLsb' 0 5 = x >>> shamtOf inst
      rw [BitVec.ushiftRight_eq', BitVec.ushiftRight_eq', shiftAmount_shamt]
  | slli =>
      refine line_shift h hRegs (hEnc _ rfl) (· <<< ·) rfl (fun _ => rfl) fun x => ?_
      show x <<< (immI inst).extractLsb' 0 5 = x <<< shamtOf inst
      rw [BitVec.shiftLeft_eq', BitVec.shiftLeft_eq', shiftAmount_immI]
  | srai =>
      refine line_shift h hRegs (hEnc _ rfl) BitVec.sshiftRight' rfl (fun _ => rfl) fun x => ?_
      show x.sshiftRight' ((shamtOf inst).extractLsb' 0 5) = x.sshiftRight' (shamtOf inst)
      rw [BitVec.sshiftRight_eq', BitVec.sshiftRight_eq', shiftAmount_shamt]
  | sb => exact line_store h hCommon (hEnc _ rfl) rfl (fun _ => rfl) fun _ d _ => store_sb mem d
  | sh => exact line_store h hCommon (hEnc _ rfl) rfl (fun _ => rfl) fun _ => store_sh mem
  | sw => exact line_store h hCommon (hEnc _ rfl) rfl (fun _ => rfl) fun _ => store_sw mem
  | add => exact line_op h hRegs (hEnc _ rfl) (· + ·) rfl (fun _ => rfl) fun _ _ => rfl
  | fence => exact locked_fence h (hEnc _ rfl).1 (hEnc _ rfl).2
  | sll =>
      exact line_op h hRegs (hEnc _ rfl) (fun x y => x <<< (y &&& 0x1f)) rfl (fun _ => rfl)
        fun x y => (shift_imm x y).1
  | slt =>
      refine line_op h hRegs (hEnc _ rfl) (fun x y => ofCmp (x.slt y)) rfl (fun _ => rfl)
        fun x y => ?_
      simp [opAluOp, aluResult, less_eq, setWidth_ofBool]
  | sltu =>
      refine line_op h hRegs (hEnc _ rfl) (fun x y => ofCmp (x.ult y)) rfl (fun _ => rfl)
        fun x y => ?_
      simp [opAluOp, aluResult, noBorrow_eq, setWidth_ofBool]
  | xor => exact line_op h hRegs (hEnc _ rfl) (· ^^^ ·) rfl (fun _ => rfl) fun _ _ => rfl
  | srl =>
      exact line_op h hRegs (hEnc _ rfl) (fun x y => x >>> (y &&& 0x1f)) rfl (fun _ => rfl)
        fun x y => (shift_imm x y).2.1
  | sra =>
      exact line_op h hRegs (hEnc _ rfl) (fun x y => x.sshiftRight' (y &&& 0x1f)) rfl
        (fun _ => rfl) fun x y => (shift_imm x y).2.2
  | or => exact line_op h hRegs (hEnc _ rfl) (· ||| ·) rfl (fun _ => rfl) fun _ _ => rfl
  | and => exact line_op h hRegs (hEnc _ rfl) (· &&& ·) rfl (fun _ => rfl) fun _ _ => rfl
  | sub => exact line_op h hRegs (hEnc _ rfl) (· - ·) rfl (fun _ => rfl) subCarry_low
  | mul | mulh | mulhsu | mulhu | div | divu | rem | remu =>
      exact absurd ⟨(hEnc _ rfl).1, (hEnc _ rfl).2.2⟩ hCommon.noMulDiv
  | addi =>
      exact line_opImm h hRegs (hEnc _ rfl) (· + ·) rfl (by decide) (fun _ => rfl)
        fun _ _ _ => rfl
  | slti =>
      refine line_opImm h hRegs (hEnc _ rfl) (fun x y => ofCmp (x.slt y)) rfl (by decide)
        (fun _ => rfl) fun _ x y => ?_
      simp [opImmAluOp, aluResult, less_eq, setWidth_ofBool]
  | xori =>
      exact line_opImm h hRegs (hEnc _ rfl) (· ^^^ ·) rfl (by decide) (fun _ => rfl)
        fun _ _ _ => rfl
  | ori =>
      exact line_opImm h hRegs (hEnc _ rfl) (· ||| ·) rfl (by decide) (fun _ => rfl)
        fun _ _ _ => rfl
  | andi =>
      exact line_opImm h hRegs (hEnc _ rfl) (· &&& ·) rfl (by decide) (fun _ => rfl)
        fun _ _ _ => rfl
  | jalr => exact locked_jalr h hRegs (hEnc _ rfl).1 (hEnc _ rfl).2
  | jal => exact locked_jal h hRegs (hEnc _ rfl)
  | bne =>
      refine line_branch h hRegs (hEnc _ rfl) (· != ·) rfl (fun _ => rfl) fun d hd => ?_
      simp [IduOut.branchTaken, hd, zero_eq, bne]
  | beq =>
      refine line_branch h hRegs (hEnc _ rfl) (· == ·) rfl (fun _ => rfl) fun d hd => ?_
      simp [IduOut.branchTaken, hd, zero_eq]
  | blt =>
      refine line_branch h hRegs (hEnc _ rfl) BitVec.slt rfl (fun _ => rfl) fun d hd => ?_
      simp [IduOut.branchTaken, hd, less_eq]
  | bge =>
      refine line_branch h hRegs (hEnc _ rfl) (fun x y => !x.slt y) rfl (fun _ => rfl)
        fun d hd => ?_
      simp [IduOut.branchTaken, hd, less_eq]
  | bltu =>
      refine line_branch h hRegs (hEnc _ rfl) BitVec.ult rfl (fun _ => rfl) fun d hd => ?_
      simp [IduOut.branchTaken, hd, noBorrow_eq]
  | bgeu =>
      refine line_branch h hRegs (hEnc _ rfl) (fun x y => !x.ult y) rfl (fun _ => rfl)
        fun d hd => ?_
      simp [IduOut.branchTaken, hd, noBorrow_eq]
  | ebreak =>
      obtain rfl : inst = ebreakWord := hEnc _ rfl
      exact locked_ebreak h
  | ecall =>
      obtain rfl : inst = ecallWord := hEnc _ rfl
      exact locked_ecall h
  | csrrw =>
      obtain ⟨hOp, hF3⟩ := hEnc _ rfl
      exact locked_csrrw h hRegs hOp hF3 (hCommon.csr hOp (.inl hF3))
  | csrrs =>
      obtain ⟨hOp, hF3⟩ := hEnc _ rfl
      exact locked_csrrs h hRegs hOp hF3 (hCommon.csr hOp (.inr hF3))
  | mret =>
      obtain rfl : inst = mretWord := hEnc _ rfl
      exact locked_mret h
  | inv => exact absurd rfl hInv

end Lines

/-! ## Lockstep -/

/-- **Main result.**  From related states every common word leads to related
states: NEMU executes it (no access leaves plain memory) and leaves the
registers, the next address, the CSRs and the memory of the hardware. -/
theorem decodeExec_agrees {b : Build} {q : SeqState} {mem : Pmem} {m : Machine} {pc inst : Word}
    (h : Agree q mem m pc) (hMatched : Matched inst) (hCommon : Common b q inst) :
    ∃ m' dnpc, decodeExec b m pc inst = some (m', dnpc) ∧
      Agree (rtlStep q mem inst).1 (rtlStep q mem inst).2 m' dnpc := by
  obtain ⟨r, hFind, hInv⟩ := hMatched.find
  obtain ⟨hType, hEnc⟩ := enc_of_find hFind
  obtain ⟨m', dnpc, hBody, hAgree⟩ := locked_of_line h hCommon hEnc hInv
  refine ⟨m'.setReg 0 0, dnpc, ?_, hAgree⟩
  simp only [decodeExec, hFind, hType, hBody, Option.map_some]

/-- A hardware state with `x1` at the start of memory and `x2` holding a value. -/
def sampleState : SeqState where
  pc := 0x80001000#32
  rf := (RegFile.write default 1 0x80000000#32).write 2 0xab#32
  csr := default

/-- A NEMU machine in the same state. -/
def sampleMachine : Machine where
  gpr := sampleState.rf.read
  csr := fun _ => 0
  pmem := fun _ => 0
  nemuState := .running

/-- `sb x2, 1(x1)` on both sides. -/
theorem decodeExec_agrees_sb :
    ∃ m' dnpc, decodeExec .plain sampleMachine 0x80001000#32 0x002080a3#32 = some (m', dnpc) ∧
      Agree (rtlStep sampleState (fun _ => 0) 0x002080a3#32).1
        (rtlStep sampleState (fun _ => 0) 0x002080a3#32).2 m' dnpc := by
  have hAgree : Agree sampleState (fun _ => 0) sampleMachine 0x80001000#32 :=
    ⟨rfl, fun _ _ => rfl, ⟨rfl, rfl, rfl, rfl⟩, rfl⟩
  have hMatched : Matched 0x002080a3#32 :=
    ⟨⟨"??????? ????? ????? 000 ????? 01000 11", .sb, .S⟩, by decide, by decide, by decide +kernel⟩
  refine decodeExec_agrees hAgree hMatched ⟨by decide, ?_, ?_, ?_, ?_⟩
  · exact fun h => absurd h.1 (by decide)
  · exact fun h => absurd h (by decide)
  · exact fun h => absurd h (by decide)
  · exact fun _ => ⟨by decide, by unfold InWord; decide⟩

end Riscv32.Lockstep
