import Riscv32.Rtl.Params

/-!
# The NPC crossbar and its slaves

`Xbar.sv`, `MEM.sv` and `UART.sv`.  A read goes to the slave its address
belongs to and its response comes back from the slave that accepted it.  For
writes the crossbar accepts the data before the address, keeps it, and sends
it on once the address has named a slave.

`MEM` and `UART` have the same write side (`WriteSide`); `pmem_read` and
`pmem_write` are calls into the simulator, and the console's output is left out.
The crossbar's registers have no reset; results about it begin where it is at rest
(`Fabric.Writes`).
-/

namespace Riscv32.Rtl

/-! ## Xbar -/

/-- `IDLE`, `UART`, `SRAM`, `CLINT`. -/
inductive XbarSel where
  | idle
  | uart
  | sram
  | clint
deriving DecidableEq, Repr, Inhabited

/-- `sel_rd` and `sel_wr`: the slave an address belongs to. -/
def xbarSel (addr : Word) : XbarSel :=
  if inWindow uartBase uartEnd addr then .uart
  else if inWindow sramBase sramEnd addr then .sram
  else if inWindow (clintBase .npc) (clintEnd .npc) addr then .clint
  else .idle

/-- What the three slaves drive. -/
structure XbarSlaves where
  uart : AxiResp
  mem : AxiResp
  clint : AxiResp
deriving DecidableEq, Repr, Inhabited

/-- `sel == UART ? … : sel == SRAM ? … : sel == CLINT ? … : 0`. -/
def XbarSlaves.pick (p : XbarSlaves) : XbarSel → AxiResp
  | .uart => p.uart
  | .sram => p.mem
  | .clint => p.clint
  | .idle => {}

/-- None of these registers has a reset. -/
structure Xbar where
  ownerRd : XbarSel
  ownerWr : XbarSel
  gotAw : Bool
  gotW : Bool
  sentAw : Bool
  sentW : Bool
  wdataR : Word
  wstrbR : BitVec 4
deriving DecidableEq, Repr, Inhabited

/-- A W channel. -/
structure WChannel where
  wvalid : Bool := false
  wdata : Word := 0
  wstrb : BitVec 4 := 0
deriving DecidableEq, Repr, Inhabited

namespace Xbar

/-- `fire_aw`. -/
def fireAw (arb : AxiReq) (p : XbarSlaves) : Bool :=
  arb.awvalid && (p.pick (xbarSel arb.awaddr)).awready

/-- `axi_arb.wready`. -/
def wready (s : Xbar) (arb : AxiReq) (p : XbarSlaves) : Bool :=
  if fireAw arb p then (p.pick (xbarSel arb.awaddr)).wready
  else if s.gotAw then (p.pick s.ownerWr).wready
  else !s.gotW

/-- `fire_w`. -/
def fireW (s : Xbar) (arb : AxiReq) (p : XbarSlaves) : Bool := arb.wvalid && s.wready arb p

/-- `axi_arb` as driven by the crossbar. -/
def axiArb (s : Xbar) (arb : AxiReq) (p : XbarSlaves) : AxiResp where
  arready := (p.pick (xbarSel arb.araddr)).arready
  rdata := (p.pick s.ownerRd).rdata
  rresp := (p.pick s.ownerRd).rresp
  rvalid := (p.pick s.ownerRd).rvalid
  rlast := (p.pick s.ownerRd).rlast
  awready := (p.pick (xbarSel arb.awaddr)).awready
  wready := s.wready arb p
  bresp := (p.pick s.ownerWr).bresp
  bvalid := (p.pick s.ownerWr).bvalid

/-- The W channel to the slave `sel`: this cycle's data, or the data kept from
before its address. -/
def wTo (s : Xbar) (arb : AxiReq) (p : XbarSlaves) (sel : XbarSel) : WChannel :=
  if s.fireW arb p then
    if s.gotAw then
      if s.ownerWr = sel then ⟨arb.wvalid, arb.wdata, arb.wstrb⟩ else {}
    else if fireAw arb p then
      if xbarSel arb.awaddr = sel then ⟨arb.wvalid, arb.wdata, arb.wstrb⟩ else {}
    else {}
  else if s.gotW then
    if fireAw arb p then
      if xbarSel arb.awaddr = sel then ⟨true, s.wdataR, s.wstrbR⟩ else {}
    else if s.gotAw then
      if s.ownerWr = sel then ⟨!s.sentW, s.wdataR, s.wstrbR⟩ else {}
    else {}
  else {}

/-- The port to the slave `sel`, whose window starts at `base`. -/
def axiTo (s : Xbar) (arb : AxiReq) (p : XbarSlaves) (sel : XbarSel) (base : Word) : AxiReq where
  araddr := if xbarSel arb.araddr = sel then arb.araddr - base else 0
  arvalid := xbarSel arb.araddr == sel && arb.arvalid
  rready := s.ownerRd == sel && arb.rready
  awaddr := if xbarSel arb.awaddr = sel then arb.awaddr - base else 0
  awvalid := xbarSel arb.awaddr == sel && arb.awvalid
  wdata := (s.wTo arb p sel).wdata
  wstrb := (s.wTo arb p sel).wstrb
  wvalid := (s.wTo arb p sel).wvalid
  bready := s.ownerWr == sel && arb.bready

/-- `axi_uart`. -/
def axiUart (s : Xbar) (arb : AxiReq) (p : XbarSlaves) : AxiReq := s.axiTo arb p .uart uartBase

/-- `axi_mem`. -/
def axiMem (s : Xbar) (arb : AxiReq) (p : XbarSlaves) : AxiReq := s.axiTo arb p .sram sramBase

/-- `axi_clint`. -/
def axiClint (s : Xbar) (arb : AxiReq) (p : XbarSlaves) : AxiReq :=
  s.axiTo arb p .clint (clintBase .npc)

/-- One clock edge.  Several blocks write the same registers; the one that
clears them on a response is the last. -/
def step (s : Xbar) (arb : AxiReq) (p : XbarSlaves) : Xbar where
  ownerRd :=
    if rFire arb (s.axiArb arb p) then .idle
    else if arFire arb (s.axiArb arb p) then xbarSel arb.araddr
    else s.ownerRd
  ownerWr :=
    if bFire arb (s.axiArb arb p) then .idle
    else if fireAw arb p then xbarSel arb.awaddr
    else s.ownerWr
  gotAw := !bFire arb (s.axiArb arb p) && (fireAw arb p || s.gotAw)
  gotW := !bFire arb (s.axiArb arb p) && (s.fireW arb p || s.gotW)
  sentAw := !bFire arb (s.axiArb arb p) &&
    (awFire (s.axiUart arb p) p.uart || awFire (s.axiMem arb p) p.mem || s.sentAw)
  sentW := !bFire arb (s.axiArb arb p) &&
    (wFire (s.axiUart arb p) p.uart || wFire (s.axiMem arb p) p.mem || s.sentW)
  wdataR :=
    if s.fireW arb p && !s.gotAw && !fireAw arb p && !s.gotW then arb.wdata else s.wdataR
  wstrbR :=
    if s.fireW arb p && !s.gotAw && !fireAw arb p && !s.gotW then arb.wstrb else s.wstrbR

end Xbar

/-! ## The write side of MEM and UART -/

structure WriteSide where
  awGot : Bool
  wGot : Bool
  bvalid : Bool
  bresp : BitVec 2
  memWaddr : Word
  memWdata : Word
  memWmask : BitVec 8
deriving DecidableEq, Repr, Inhabited

namespace WriteSide

/-- The write channels as driven by the slave. -/
def axi (s : WriteSide) : AxiResp where
  awready := !s.awGot
  wready := !s.wGot
  bresp := s.bresp
  bvalid := s.bvalid

/-- One clock edge with `reset` low; `offset` rebases the address. -/
def step (s : WriteSide) (req : AxiReq) (offset : Word) : WriteSide where
  awGot := !bFire req s.axi && (awFire req s.axi || s.awGot)
  wGot := !bFire req s.axi && (wFire req s.axi || s.wGot)
  bvalid := !bFire req s.axi && ((s.awGot && s.wGot) || s.bvalid)
  bresp := if (s.awGot && s.wGot) || bFire req s.axi then 1 else s.bresp
  memWaddr := if awFire req s.axi then req.awaddr + offset else s.memWaddr
  memWdata := if wFire req s.axi then req.wdata else s.memWdata
  memWmask := if wFire req s.axi then req.wstrb.setWidth 8 else s.memWmask

/-- One clock edge with `reset` high. -/
def reset (s : WriteSide) : WriteSide :=
  { s with awGot := false, wGot := false, bvalid := false }

end WriteSide

/-! ## MEM -/

structure Mem extends WriteSide where
  arready : Bool
  rdata : Word
  rresp : BitVec 2
  rvalid : Bool
  rlast : Bool
  isBusyAr : Bool
deriving DecidableEq, Repr, Inhabited

namespace Mem

/-- The port as driven by the memory. -/
def axi (s : Mem) : AxiResp :=
  { s.toWriteSide.axi with
    arready := s.arready
    rdata := s.rdata
    rresp := s.rresp
    rvalid := s.rvalid
    rlast := s.rlast }

/-- `pmem_write(mem_waddr, mem_wdata, mem_wmask)`, called in this cycle. -/
def pmemWrite (s : Mem) : Option (Word × Word × BitVec 8) :=
  if s.awGot && s.wGot then some (s.memWaddr, s.memWdata, s.memWmask) else none

/-- The read block.  It looks at `arvalid` alone and runs in reset too; only
`arready` is held low there. -/
def readStep (s : Mem) (req : AxiReq) (pmemRead : Word → Word) (reset : Bool) : Mem :=
  if req.arvalid && !s.isBusyAr then
    { s with
      arready := !s.isBusyAr && !reset
      rdata := pmemRead req.araddr
      rresp := 0
      rvalid := true
      rlast := true
      isBusyAr := true }
  else if req.rready then
    { s with arready := !s.isBusyAr && !reset, rvalid := false, isBusyAr := false, rlast := false }
  else { s with arready := !s.isBusyAr && !reset }

/-- One clock edge with `reset` low. -/
def step (s : Mem) (req : AxiReq) (pmemRead : Word → Word) : Mem :=
  { s.readStep req pmemRead false with toWriteSide := s.toWriteSide.step req 0x80000000#32 }

/-- One clock edge with `reset` high. -/
def reset (s : Mem) (req : AxiReq) (pmemRead : Word → Word) : Mem :=
  { s.readStep req pmemRead true with toWriteSide := s.toWriteSide.reset }

end Mem

/-! ## UART -/

structure Uart extends WriteSide
deriving DecidableEq, Repr, Inhabited

namespace Uart

/-- The port as driven by the console; it has no read channel. -/
def axi (s : Uart) : AxiResp := s.toWriteSide.axi

/-- One clock edge with `reset` low. -/
def step (s : Uart) (req : AxiReq) : Uart := ⟨s.toWriteSide.step req 0⟩

/-- One clock edge with `reset` high. -/
def reset (s : Uart) : Uart := ⟨s.toWriteSide.reset⟩

end Uart

end Riscv32.Rtl
