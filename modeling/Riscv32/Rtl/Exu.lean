import Riscv32.Rtl.Idu

/-!
# Execute unit

`ALU.sv`, `CSR.sv` and `EXU.sv`.  The unit takes a decoded instruction,
computes its result, its successor address and its CSR side effect in the
cycle it enters (`exu_in_fire`), and holds the result in `ExuOut` until the
load/store unit takes it.

The ALU is modelled with the flags it computes and not with the comparisons they
stand for; branches are decided from those flags (`branchTaken`).  In the CSR
file the order of the assignments matters: the counter's own assignment is the
last of the block, so that a write to either half of it is lost (`Csr.step`).
-/

namespace Riscv32.Rtl

/-! ## ALU -/

/-- `{cout, diff} = {1'b0, a} + {1'b0, ~b} + 33'b1`. -/
def subCarry (a b : Word) : BitVec 33 := a.setWidth 33 + (~~~b).setWidth 33 + 1

/-- The four flags of a subtraction. -/
structure AluFlags where
  zero : Bool
  negative : Bool
  noBorrow : Bool
  overflow : Bool
deriving DecidableEq, Repr, Inhabited

/-- Flags of `a - b`; the ALU computes them twice, once for its operands and
once for the source registers. -/
def subFlags (a b : Word) : AluFlags :=
  let diff : Word := (subCarry a b).setWidth 32
  { zero := diff == 0
    negative := diff.msb
    noBorrow := (subCarry a b).msb
    overflow := (a.msb ^^ b.msb) && (a.msb ^^ diff.msb) }

/-- `alu_result`. -/
def aluResult (op : AluOp) (a b : Word) : Word :=
  match op with
  | .add => a + b
  | .sub => (subCarry a b).setWidth 32
  | .and => a &&& b
  | .or => a ||| b
  | .xor => a ^^^ b
  | .sll => a <<< (b.extractLsb' 0 5)
  | .srl => a >>> (b.extractLsb' 0 5)
  | .sra => a.sshiftRight' (b.extractLsb' 0 5)
  | .slt => BitVec.setWidth 32 (BitVec.ofBool ((subFlags a b).negative ^^ (subFlags a b).overflow))
  | .sltu => BitVec.setWidth 32 (BitVec.ofBool (!(subFlags a b).noBorrow))

/-! ## CSR file -/

structure Csr where
  mcycle : Word
  mcycleh : Word
  mstatus : Word
  mtvec : Word
  mepc : Word
  mcause : Word
deriving DecidableEq, Repr, Inhabited

namespace Csr

/-- `csr_rdata`. -/
def rdata (s : Csr) (addr : BitVec 12) : Word :=
  match addr with
  | 0xB00#12 => s.mcycle
  | 0xB80#12 => s.mcycleh
  | 0xF11#12 => 0x79737978#32
  | 0xF12#12 => 0x17F4E2E#32
  | 0x300#12 => s.mstatus
  | 0x305#12 => s.mtvec
  | 0x341#12 => s.mepc
  | 0x342#12 => s.mcause
  | _ => 0

/-- What the execute unit drives into the CSR file in one cycle. -/
structure In where
  csrAddr : BitVec 12
  csrWen : Bool
  isEcall : Bool
  pc : Word
  csrWdata : Word
deriving DecidableEq, Repr, Inhabited

/-- The `case (csr_addr)` of a write. -/
def write (s : Csr) (addr : BitVec 12) (data : Word) : Csr :=
  match addr with
  | 0xB00#12 => { s with mcycle := data }
  | 0xB80#12 => { s with mcycleh := data }
  | 0x300#12 => { s with mstatus := data }
  | 0x305#12 => { s with mtvec := data }
  | 0x341#12 => { s with mepc := data }
  | 0x342#12 => { s with mcause := data }
  | _ => s

/-- `{mcycleh, mcycle} + 1'b1`. -/
def cycleNext (s : Csr) : BitVec 64 := (s.mcycleh ++ s.mcycle : BitVec 64) + 1

/-- One clock edge; the file has no reset.  The counter assignment is the
last one of the block, so it overrides a write to either counter half. -/
def step (s : Csr) (i : In) : Csr :=
  let s' :=
    if i.isEcall then { s with mepc := i.pc, mcause := 11 }
    else if i.csrWen then s.write i.csrAddr i.csrWdata
    else s
  { s' with
    mcycleh := s.cycleNext.extractLsb' 32 32
    mcycle := s.cycleNext.extractLsb' 0 32 }

end Csr

/-! ## EXU -/

/-- The registered outputs of the unit. -/
structure ExuOut where
  isLoad : Bool
  isStore : Bool
  isFencei : Bool
  loadSize : BitVec 3
  storeSize : BitVec 3
  wbData : Word
  storeData : Word
  memAddr : Word
  inst : Word
  pc : Word
  npc : Word
  isEbreak : Bool
  rfWe : Bool
  rd : BitVec 5
deriving DecidableEq, Repr, Inhabited

structure Exu where
  outValid : Bool
  out : ExuOut
deriving DecidableEq, Repr, Inhabited

/-! The combinational datapath, as functions of the decoded instruction `d`
and the CSR file. -/

namespace IduOut

def aluSrc1 (d : IduOut) : Word :=
  match d.aluSrc1Sel with
  | .rs1Data => d.src1Data
  | .curPc => d.pc
  | .zero => 0

def aluSrc2 (d : IduOut) : Word :=
  match d.aluSrc2Sel with
  | .rs2Data => d.src2Data
  | .imm => d.imm
  | .shamt => d.shamt

def aluResult (d : IduOut) : Word := Rtl.aluResult d.aluOp d.aluSrc1 d.aluSrc2

/-- `store_data`. -/
def storeData (d : IduOut) : Word := if d.isStore then d.src2Data else 0

/-- `branch_taken`, from the flags of `src1 - src2`. -/
def branchTaken (d : IduOut) : Bool :=
  let f := subFlags d.src1Data d.src2Data
  match d.branchOp with
  | 0b000#3 => f.zero
  | 0b001#3 => !f.zero
  | 0b100#3 => f.negative ^^ f.overflow
  | 0b101#3 => !(f.negative ^^ f.overflow)
  | 0b110#3 => !f.noBorrow
  | 0b111#3 => f.noBorrow
  | _ => false

/-- `wb_data`. -/
def wbData (d : IduOut) (csr : Csr) : Word :=
  match d.wbSel with
  | .alu => d.aluResult
  | .pc4 => d.pc + 4
  | .csr => csr.rdata d.csrAddr
  | .mem => 0

/-- `redirect_valid`. -/
def redirectValid (d : IduOut) : Bool :=
  d.isJal || d.isJalr || (d.isBranch && d.branchTaken) || d.trapValid

/-- `trap_pc`. -/
def trapPc (d : IduOut) (csr : Csr) : Word :=
  if d.isMret then csr.mepc else if d.isEcall then csr.mtvec else 0

def jalTarget (d : IduOut) : Word := d.imm + d.pc

def jalrTarget (d : IduOut) : Word := (d.imm + d.src1Data) &&& ~~~1

/-- `redirect_pc`. -/
def redirectPc (d : IduOut) (csr : Csr) : Word :=
  if d.trapValid then d.trapPc csr
  else if d.isJal then d.jalTarget
  else if d.isJalr then d.jalrTarget
  else if d.isBranch && d.branchTaken then d.jalTarget
  else 0

/-- The value latched into `out_npc`. -/
def npc (d : IduOut) (csr : Csr) : Word :=
  if d.redirectValid then d.redirectPc csr else d.pc + 4

/-- `csr_wdata`. -/
def csrWdata (d : IduOut) (csr : Csr) : Word :=
  match d.csrOpSel with
  | .write => d.src1Data
  | .set => csr.rdata d.csrAddr ||| d.src1Data

/-- The CSR port in a cycle in which the unit does or does not take `d`. -/
def csrIn (d : IduOut) (csr : Csr) (fire : Bool) : Csr.In where
  csrAddr := d.csrAddr
  csrWen := d.csrWen && fire
  isEcall := d.isEcall && fire
  pc := d.pc
  csrWdata := d.csrWdata csr

/-- What the output register latches for `d`. -/
def execute (d : IduOut) (csr : Csr) : ExuOut where
  isLoad := d.isLoad
  isStore := d.isStore
  isFencei := d.isFencei
  loadSize := d.loadSize
  storeSize := d.storeSize
  wbData := d.wbData csr
  storeData := d.storeData
  memAddr := d.aluResult
  inst := d.inst
  pc := d.pc
  npc := d.npc csr
  isEbreak := d.isEbreak
  rfWe := d.rfWe
  rd := d.rd

end IduOut

namespace Exu

/-- `out_ready`. -/
def outReady (s : Exu) (lsuReady : Bool) : Bool := !s.outValid || lsuReady

/-- `exu_in_fire`. -/
def inFire (s : Exu) (inValid lsuReady : Bool) : Bool := inValid && s.outReady lsuReady

/-- `exu_out_fire`. -/
def outFire (s : Exu) (lsuReady : Bool) : Bool := s.outValid && lsuReady

/-- `out_redirect_fire` with `reset` low. -/
def redirectFire (s : Exu) (inValid lsuReady : Bool) (d : IduOut) : Bool :=
  s.inFire inValid lsuReady && d.redirectValid

/-- One clock edge with `reset` low. -/
def step (s : Exu) (inValid lsuReady : Bool) (d : IduOut) (csr : Csr) : Exu where
  outValid :=
    if s.inFire inValid lsuReady then true
    else if s.outFire lsuReady then false else s.outValid
  out := if s.inFire inValid lsuReady then d.execute csr else s.out

/-- One clock edge with `reset` high. -/
def reset (s : Exu) : Exu where
  outValid := false
  out := { s.out with pc := 0, inst := 0, npc := 0, isEbreak := false }

/-- The unit as a producer window of the interlock. -/
def producer (s : Exu) : Producer := ⟨s.outValid, s.out.rfWe, s.out.rd⟩

end Exu

end Riscv32.Rtl
