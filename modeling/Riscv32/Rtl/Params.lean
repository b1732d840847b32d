import Mathlib.Data.BitVec

/-!
# Build parameters, encodings and bus bundles

`params.vh` and `AXI_IF.sv`.  The two builds differ in the reset vector, in
the CLINT window and in which addresses count as memory-mapped devices, so
`Arch` is an explicit parameter of whatever reads one of these.

The AXI interface is split by direction: `AxiReq` is what a master drives,
`AxiResp` what a slave drives back.  A master that leaves a signal undriven
drives zero there.  A handshake (`arFire`, `rFire`, `awFire`, `wFire`, `bFire`) is
valid and ready in one cycle, one side from each bundle; all results about the
bus are stated over these five.
-/

namespace Riscv32.Rtl

abbrev Word := BitVec 32

/-- The two builds selected by `ARCH_NPC` and `ARCH_YSYXSOC`. -/
inductive Arch where
  | npc
  | ysyxsoc
deriving DecidableEq, Repr, Inhabited

/-- `RESET_PC`. -/
def resetPc : Arch → Word
  | .npc => 0x80000000#32
  | .ysyxsoc => 0x30000000#32

/-- `CLINT_BASE`. -/
def clintBase : Arch → Word
  | .npc => 0xa0000000#32
  | .ysyxsoc => 0x02000000#32

/-- `CLINT_END`. -/
def clintEnd : Arch → Word
  | .npc => 0xa00002ff#32
  | .ysyxsoc => 0x020002ff#32

def uartBase : Word := 0x10000000#32
def uartEnd : Word := 0x10000FFF#32
def sramBase : Word := 0x80000000#32
def sramEnd : Word := 0x80ffffff#32

/-- `addr >= lo && addr <= hi`, the closed window test of the address maps. -/
def inWindow (lo hi addr : Word) : Bool := lo ≤ addr && addr ≤ hi

/-! ## Control encodings -/

/-- `NPC_ALU`, `NPC_MEM`, `NPC_PC4`, `NPC_CSR`. -/
inductive WbSel where
  | alu
  | mem
  | pc4
  | csr
deriving DecidableEq, Repr, Inhabited

/-- `CSR_WRITE`, `CSR_SET`. -/
inductive CsrOpSel where
  | write
  | set
deriving DecidableEq, Repr, Inhabited

/-- `NPC_RS1_DATA`, `NPC_CUR_PC`, `NPC_ZERO`. -/
inductive AluSrc1Sel where
  | rs1Data
  | curPc
  | zero
deriving DecidableEq, Repr, Inhabited

/-- `NPC_RS2_DATA`, `NPC_IMM`, `NPC_SHAMT`. -/
inductive AluSrc2Sel where
  | rs2Data
  | imm
  | shamt
deriving DecidableEq, Repr, Inhabited

/-- `NPC_ALU_ADD` … `NPC_ALU_SLTU`. -/
inductive AluOp where
  | add
  | sub
  | and
  | or
  | xor
  | sll
  | srl
  | sra
  | slt
  | sltu
deriving DecidableEq, Repr, Inhabited

/-! ## AXI -/

/-- The master side of `AXI_IF`. -/
structure AxiReq where
  araddr : Word := 0
  arvalid : Bool := false
  arlen : BitVec 8 := 0
  arsize : BitVec 3 := 0
  arburst : BitVec 2 := 0
  rready : Bool := false
  awaddr : Word := 0
  awvalid : Bool := false
  wdata : Word := 0
  wstrb : BitVec 4 := 0
  wvalid : Bool := false
  bready : Bool := false
deriving DecidableEq, Repr, Inhabited

/-- The slave side of `AXI_IF`. -/
structure AxiResp where
  arready : Bool := false
  rdata : Word := 0
  rresp : BitVec 2 := 0
  rvalid : Bool := false
  rlast : Bool := false
  awready : Bool := false
  wready : Bool := false
  bresp : BitVec 2 := 0
  bvalid : Bool := false
deriving DecidableEq, Repr, Inhabited

/-! Handshakes of one cycle, as seen on a link. -/

def arFire (q : AxiReq) (p : AxiResp) : Bool := q.arvalid && p.arready
def rFire (q : AxiReq) (p : AxiResp) : Bool := p.rvalid && q.rready
def awFire (q : AxiReq) (p : AxiResp) : Bool := q.awvalid && p.awready
def wFire (q : AxiReq) (p : AxiResp) : Bool := q.wvalid && p.wready
def bFire (q : AxiReq) (p : AxiResp) : Bool := p.bvalid && q.bready

end Riscv32.Rtl
