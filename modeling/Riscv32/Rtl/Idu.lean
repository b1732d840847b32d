import Riscv32.Rtl.Params

/-!
# Instruction decode unit

`IDU.v`.  The combinational part is `decode` (the control signals, written as
the source writes them: defaults first, then one override after another),
`immOf`, and the read-after-write interlock `rawHazard` over the four
producer windows.  The clocked part is the pipeline register `IduOut` with
its valid bit and the `fence_pending` flag.

Which registers a word reads is decided once more beside the control signals
(`usesRs1`, `usesRs2`), from the opcode alone, and the interlock goes by that.
The unit latches what the decode block gives only while it takes a word
(`step_out_of_inFire`), so the defaults never reach the register.
-/

namespace Riscv32.Rtl

/-! ## Fields of an instruction word -/

def opcode (inst : Word) : BitVec 7 := inst.extractLsb' 0 7
def funct3 (inst : Word) : BitVec 3 := inst.extractLsb' 12 3
def funct7 (inst : Word) : BitVec 7 := inst.extractLsb' 25 7
def rs1Idx (inst : Word) : BitVec 5 := inst.extractLsb' 15 5
def rs2Idx (inst : Word) : BitVec 5 := inst.extractLsb' 20 5
def rdIdx (inst : Word) : BitVec 5 := inst.extractLsb' 7 5

/-- `{n{inst[31]}}`. -/
def signs (n : Nat) (inst : Word) : BitVec n :=
  BitVec.replicate n (inst.extractLsb' 31 1) |>.cast (by simp)

def immI (inst : Word) : Word := (signs 20 inst ++ inst.extractLsb' 20 12 : BitVec 32)

def immU (inst : Word) : Word := (inst.extractLsb' 12 20 ++ 0#12 : BitVec 32)

def immS (inst : Word) : Word :=
  (signs 20 inst ++ inst.extractLsb' 25 7 ++ inst.extractLsb' 7 5 : BitVec 32)

def immB (inst : Word) : Word :=
  (signs 20 inst ++ inst.extractLsb' 7 1 ++ inst.extractLsb' 25 6 ++
    inst.extractLsb' 8 4 ++ 0#1 : BitVec 32)

def immJ (inst : Word) : Word :=
  (signs 12 inst ++ inst.extractLsb' 12 8 ++ inst.extractLsb' 20 1 ++
    inst.extractLsb' 21 10 ++ 0#1 : BitVec 32)

def shamtOf (inst : Word) : Word := (0#27 ++ inst.extractLsb' 20 5 : BitVec 32)

def csrAddrOf (inst : Word) : BitVec 12 := inst.extractLsb' 20 12

/-- `imm`, selected by opcode. -/
def immOf (inst : Word) : Word :=
  match opcode inst with
  | 0b0010011#7 => immI inst
  | 0b1100111#7 => immI inst
  | 0b0000011#7 => immI inst
  | 0b0110111#7 => immU inst
  | 0b0010111#7 => immU inst
  | 0b0100011#7 => immS inst
  | 0b1100011#7 => immB inst
  | 0b1101111#7 => immJ inst
  | _ => 0

/-! ## Control signals -/

/-- The signals assigned by the decode block; the field defaults are the
block's own defaults. -/
structure Ctrl where
  rfWe : Bool := false
  csrWen : Bool := false
  wbSel : WbSel := .alu
  csrOpSel : CsrOpSel := .write
  isEcall : Bool := false
  isMret : Bool := false
  isEbreak : Bool := false
  isJalr : Bool := false
  isJal : Bool := false
  isBranch : Bool := false
  isLoad : Bool := false
  isStore : Bool := false
  isFencei : Bool := false
  trapValid : Bool := false
  aluSrc1Sel : AluSrc1Sel := .rs1Data
  aluSrc2Sel : AluSrc2Sel := .rs2Data
  aluOp : AluOp := .add
deriving DecidableEq, Repr, Inhabited

/-- `alu_op` of an `OP` word; the ALU operation stays `add` where no case
assigns it. -/
def opAluOp (f3 : BitVec 3) (f7 : BitVec 7) : AluOp :=
  match f3 with
  | 0b000#3 => if f7 = 0b0100000#7 then .sub else .add
  | 0b001#3 => .sll
  | 0b010#3 => .slt
  | 0b011#3 => .sltu
  | 0b100#3 => .xor
  | 0b110#3 => .or
  | 0b101#3 =>
      if f7 = 0b0000000#7 then .srl else if f7 = 0b0100000#7 then .sra else .add
  | _ => .and

/-- `alu_op` of an `OP-IMM` word. -/
def opImmAluOp (f3 : BitVec 3) (f7 : BitVec 7) : AluOp :=
  match f3 with
  | 0b000#3 => .add
  | 0b001#3 => .sll
  | 0b010#3 => .slt
  | 0b011#3 => .sltu
  | 0b100#3 => .xor
  | 0b110#3 => .or
  | 0b101#3 =>
      if f7 = 0b0000000#7 then .srl else if f7 = 0b0100000#7 then .sra else .add
  | _ => .and

def ecallWord : Word := 0b00000000000000000000000001110011#32
def ebreakWord : Word := 0b00000000000100000000000001110011#32
def mretWord : Word := 0b00110000001000000000000001110011#32

/-- The overrides that apply when the word is taken by the unit. -/
def decodeTaken (inst : Word) : Ctrl :=
  let op := opcode inst
  let f3 := funct3 inst
  let c : Ctrl := {}
  let c := if op = 0b0110011#7 then
      { c with rfWe := true, wbSel := .alu, aluSrc1Sel := .rs1Data,
               aluSrc2Sel := .rs2Data, aluOp := opAluOp f3 (funct7 inst) } else c
  let c := if op = 0b0010011#7 then
      { c with rfWe := true, wbSel := .alu, aluSrc1Sel := .rs1Data,
               aluSrc2Sel := if f3 = 0b101#3 then .shamt else .imm,
               aluOp := opImmAluOp f3 (funct7 inst) } else c
  let c := if op = 0b1101111#7 then
      { c with rfWe := true, wbSel := .pc4, aluSrc1Sel := .curPc,
               aluSrc2Sel := .imm, aluOp := .add, isJal := true } else c
  let c := if op = 0b1100111#7 ∧ f3 = 0b000#3 then
      { c with rfWe := true, wbSel := .pc4, aluSrc1Sel := .rs1Data,
               aluSrc2Sel := .imm, aluOp := .add, isJalr := true } else c
  let c := if op = 0b1100011#7 then
      { c with rfWe := false, aluSrc1Sel := .curPc, aluSrc2Sel := .imm,
               isBranch := true } else c
  let c := if op = 0b0110111#7 then
      { c with rfWe := true, wbSel := .alu, aluSrc1Sel := .zero,
               aluSrc2Sel := .imm, aluOp := .add } else c
  let c := if op = 0b0010111#7 then
      { c with rfWe := true, wbSel := .alu, aluSrc1Sel := .curPc,
               aluSrc2Sel := .imm, aluOp := .add } else c
  let c := if op = 0b0000011#7 then
      { c with rfWe := true, wbSel := .mem, isLoad := true, aluSrc1Sel := .rs1Data,
               aluSrc2Sel := .imm, aluOp := .add } else c
  let c := if op = 0b0100011#7 then
      { c with aluSrc1Sel := .rs1Data, aluSrc2Sel := .imm, aluOp := .add,
               isStore := true } else c
  let c := if inst = ecallWord then { c with isEcall := true, trapValid := true } else c
  let c := if inst = ebreakWord then { c with isEbreak := true } else c
  let c := if inst = mretWord then { c with isMret := true, trapValid := true } else c
  let c := if op = 0b1110011#7 ∧ f3 = 0b001#3 then
      { c with rfWe := if rdIdx inst ≠ 0 then true else c.rfWe, wbSel := .csr,
               csrWen := true, csrOpSel := .write } else c
  let c := if op = 0b1110011#7 ∧ f3 = 0b010#3 then
      { c with csrWen := if rs1Idx inst = 0 then false else true,
               rfWe := if rdIdx inst ≠ 0 then true else c.rfWe, wbSel := .csr,
               csrOpSel := .set } else c
  if op = 0b0001111#7 ∧ f3 = 0b001#3 then { c with isFencei := true } else c

/-- The decode block: defaults unless `in_valid && out_ready`. -/
def decode (fire : Bool) (inst : Word) : Ctrl :=
  if fire then decodeTaken inst else {}

/-- `uses_rs1`. -/
def usesRs1 (inst : Word) : Bool :=
  match opcode inst with
  | 0b0110011#7 => true
  | 0b0010011#7 => true
  | 0b0000011#7 => true
  | 0b0100011#7 => true
  | 0b1100011#7 => true
  | 0b1100111#7 => funct3 inst == 0b000#3
  | 0b1110011#7 => funct3 inst == 0b001#3 || funct3 inst == 0b010#3
  | _ => false

/-- `uses_rs2`. -/
def usesRs2 (inst : Word) : Bool :=
  match opcode inst with
  | 0b0110011#7 => true
  | 0b0100011#7 => true
  | 0b1100011#7 => true
  | _ => false

/-! ## The read-after-write interlock -/

/-- One producer window: a stage that holds an instruction writing `rd`. -/
structure Producer where
  valid : Bool
  rfWe : Bool
  rd : BitVec 5
deriving DecidableEq, Repr, Inhabited

/-- One disjunct of `producer_match`. -/
def Producer.hits (p : Producer) (rs : BitVec 5) : Bool :=
  p.valid && p.rfWe && p.rd != 0 && p.rd == rs

/-! ## The pipeline register -/

/-- The registered outputs of the unit. -/
structure IduOut extends Ctrl where
  branchOp : BitVec 3
  loadSize : BitVec 3
  storeSize : BitVec 3
  rd : BitVec 5
  imm : Word
  shamt : Word
  csrAddr : BitVec 12
  src1Data : Word
  src2Data : Word
  pc : Word
  inst : Word
  exceptionValid : Bool
  exceptionCause : Word
deriving DecidableEq, Repr, Inhabited

structure Idu where
  outValid : Bool
  out : IduOut
  fencePending : Bool
deriving DecidableEq, Repr, Inhabited

/-- What the neighbouring stages drive into the unit. -/
structure IduIn where
  inInst : Word
  inPc : Word
  inExceptionValid : Bool
  inExceptionCause : Word
  inFlush : Bool
  inFenceiFlushDone : Bool
  inValid : Bool
  inReady : Bool
  inSrc1Data : Word
  inSrc2Data : Word
  exu : Producer
  lsuPending : Producer
  wbu : Producer
deriving DecidableEq, Repr, Inhabited

/-- What the register latches for a word taken from fetch. -/
def latch (inst pc src1 src2 : Word) (excValid : Bool) (excCause : Word) : IduOut where
  toCtrl := decodeTaken inst
  branchOp := funct3 inst
  loadSize := funct3 inst
  storeSize := funct3 inst
  rd := rdIdx inst
  imm := immOf inst
  shamt := shamtOf inst
  csrAddr := csrAddrOf inst
  src1Data := src1
  src2Data := src2
  pc := pc
  inst := inst
  exceptionValid := excValid
  exceptionCause := excCause

section Latch

variable (inst pc src1 src2 : Word) (excValid : Bool) (excCause : Word)

@[simp] theorem latch_toCtrl :
    (latch inst pc src1 src2 excValid excCause).toCtrl = decodeTaken inst := rfl

@[simp] theorem latch_inst :
    (latch inst pc src1 src2 excValid excCause).inst = inst := rfl

@[simp] theorem latch_pc : (latch inst pc src1 src2 excValid excCause).pc = pc := rfl

@[simp] theorem latch_rd :
    (latch inst pc src1 src2 excValid excCause).rd = rdIdx inst := rfl

@[simp] theorem latch_src1Data :
    (latch inst pc src1 src2 excValid excCause).src1Data = src1 := rfl

@[simp] theorem latch_src2Data :
    (latch inst pc src1 src2 excValid excCause).src2Data = src2 := rfl

end Latch

namespace Idu

/-- The unit's own output register as a producer window. -/
def producer (s : Idu) : Producer := ⟨s.outValid, s.out.rfWe, s.out.rd⟩

/-- `producer_match_rs1` and `producer_match_rs2`. -/
def producerMatch (s : Idu) (i : IduIn) (rs : BitVec 5) : Bool :=
  s.producer.hits rs || i.exu.hits rs || i.lsuPending.hits rs || i.wbu.hits rs

/-- `raw_hazard_rs1`. -/
def rawHazardRs1 (s : Idu) (i : IduIn) : Bool :=
  i.inValid && usesRs1 i.inInst && rs1Idx i.inInst != 0 &&
    s.producerMatch i (rs1Idx i.inInst)

/-- `raw_hazard_rs2`. -/
def rawHazardRs2 (s : Idu) (i : IduIn) : Bool :=
  i.inValid && usesRs2 i.inInst && rs2Idx i.inInst != 0 &&
    s.producerMatch i (rs2Idx i.inInst)

/-- `raw_hazard`. -/
def rawHazard (s : Idu) (i : IduIn) : Bool := s.rawHazardRs1 i || s.rawHazardRs2 i

/-- `out_ready`. -/
def outReady (s : Idu) (i : IduIn) : Bool :=
  (!s.outValid || i.inReady) && !s.rawHazard i && !s.fencePending

/-- `idu_in_fire`. -/
def inFire (s : Idu) (i : IduIn) : Bool := i.inValid && s.outReady i

/-- `idu_out_fire`. -/
def outFire (s : Idu) (i : IduIn) : Bool := s.outValid && i.inReady

/-- The `fence_pending` block. -/
def fencePendingNext (s : Idu) (i : IduIn) : Bool :=
  if i.inFlush then false
  else if s.inFire i && (decode (i.inValid && s.outReady i) i.inInst).isFencei then true
  else if i.inFenceiFlushDone then false
  else s.fencePending

/-- One clock edge with `reset` low. -/
def step (s : Idu) (i : IduIn) : Idu where
  fencePending := s.fencePendingNext i
  outValid :=
    if i.inFlush then false else if s.inFire i then true
    else if s.outFire i then false else s.outValid
  out :=
    if i.inFlush then { s.out with exceptionValid := false, exceptionCause := 0 }
    else if s.inFire i then
      { latch i.inInst i.inPc i.inSrc1Data i.inSrc2Data i.inExceptionValid
          i.inExceptionCause with
        toCtrl := decode (i.inValid && s.outReady i) i.inInst }
    else s.out

/-- One clock edge with `reset` high. -/
def reset (s : Idu) : Idu where
  fencePending := false
  outValid := false
  out := { s.out with exceptionValid := false, exceptionCause := 0 }

/-- While the unit takes a word its decode block is enabled, so the register
gets `latch`. -/
theorem step_out_of_inFire (s : Idu) (i : IduIn) (hFlush : i.inFlush = false)
    (hFire : s.inFire i = true) :
    (s.step i).out =
      latch i.inInst i.inPc i.inSrc1Data i.inSrc2Data i.inExceptionValid
        i.inExceptionCause := by
  have hEn : (i.inValid && s.outReady i) = true := hFire
  simp [step, hFlush, hFire, hEn, decode, latch]

theorem fencePendingNext_eq (s : Idu) (i : IduIn) :
    s.fencePendingNext i =
      if i.inFlush then false
      else if s.inFire i && (decodeTaken i.inInst).isFencei then true
      else if i.inFenceiFlushDone then false
      else s.fencePending := by
  unfold fencePendingNext
  by_cases hFire : s.inFire i = true
  · have hEn : (i.inValid && s.outReady i) = true := hFire
    simp [hFire, hEn, decode]
  · simp [hFire]

end Idu

end Riscv32.Rtl
