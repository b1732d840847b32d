import Riscv32.Rtl.Bus
import Riscv32.Rtl.Core
import Riscv32.Rtl.Icache

/-!
# The SoC build

`ysyx_25120302.v` under `ARCH_YSYXSOC`: the core, the cache on its fetch port,
the arbiter, the crossbar and the timer.  The only input is what the slave
behind `io_master` drives.

`Fabric` is the part that carries bus traffic, fetch unit and load/store unit
included, with the rest of the pipeline and both slaves as its environment; it
is what the routing and stability results are about.  `fabric_step`, `core_step`
and `Fabric.frontend_step` say that each part moves inside the chip as it does
alone, which is how results about parts become results about the chip.
-/

namespace Riscv32.Rtl

/-! ## The bus fabric -/

structure Fabric where
  ifu : Ifu
  icache : Icache
  lsu : Lsu
  arb : Arbiter
  xbar : SocXbar
deriving Inhabited

/-- What the pipeline and the slaves drive. -/
structure FabricIn where
  inFenceiDone : Bool
  inRedirectPc : Word
  inRedirectFire : Bool
  inReady : Bool
  lsuInValid : Bool
  lsuInReady : Bool
  lsuInst : ExuOut
  soc : AxiResp
  clint : AxiResp
deriving DecidableEq, Repr, Inhabited

namespace Fabric

/-- `axi_arb`, master side. -/
def arbReq (s : Fabric) : AxiReq := s.arb.axiArb s.icache.axiOut s.lsu.axi

/-- `axi_arb`, slave side. -/
def arbResp (s : Fabric) (i : FabricIn) : AxiResp := s.xbar.axiArb s.arbReq i.soc i.clint

/-- `axi_icache`, slave side. -/
def icacheResp (s : Fabric) (i : FabricIn) : AxiResp := s.arb.axiIfu (s.arbResp i)

/-- `axi_lsu`, slave side. -/
def lsuResp (s : Fabric) (i : FabricIn) : AxiResp := s.arb.axiLsu s.lsu.axi (s.arbResp i)

/-- `axi_soc`, master side. -/
def socReq (s : Fabric) : AxiReq := s.xbar.axiSoc s.arbReq

/-- `axi_clint`, master side. -/
def clintReq (s : Fabric) : AxiReq := s.xbar.axiClint s.arbReq

/-- The fetch unit with its cache. -/
def frontend (s : Fabric) : Frontend := ⟨s.ifu, s.icache⟩

def frontendIn (s : Fabric) (i : FabricIn) : FrontendIn where
  inFenceiDone := i.inFenceiDone
  inRedirectPc := i.inRedirectPc
  inRedirectFire := i.inRedirectFire
  inReady := i.inReady
  axi := s.icacheResp i

def lsuIn (s : Fabric) (i : FabricIn) : LsuIn where
  inValid := i.lsuInValid
  inReady := i.lsuInReady
  inst := i.lsuInst
  axi := s.lsuResp i

/-- One clock edge with `reset` low. -/
def step (s : Fabric) (i : FabricIn) : Fabric where
  ifu := (s.frontend.step (s.frontendIn i)).ifu
  icache := (s.frontend.step (s.frontendIn i)).icache
  lsu := s.lsu.step .ysyxsoc (s.lsuIn i)
  arb := s.arb.step s.icache.axiOut s.lsu.axi (s.arbResp i)
  xbar := s.xbar.step s.arbReq i.soc i.clint

/-- The fabric after reset. -/
structure AfterReset (s : Fabric) : Prop where
  frontend : s.frontend.AfterReset .ysyxsoc
  lsuState : s.lsu.lsuState = .idle
  lsuValid : s.lsu.outValid = false
  lsuAr : s.lsu.ar.valid = false
  lsuAw : s.lsu.aw.valid = false
  lsuW : s.lsu.w.valid = false
  arb : s.arb = Arbiter.reset
  xbar : s.xbar.readSlave = .idle

end Fabric

/-! ## The whole chip -/

/-- The outputs of `io_master`; the constants are tied at the top level. -/
structure IoMaster where
  awvalid : Bool
  awaddr : Word
  awid : BitVec 4 := 0
  awlen : BitVec 8 := 0
  awsize : BitVec 3 := 0
  awburst : BitVec 2 := 0
  wvalid : Bool
  wdata : Word
  wstrb : BitVec 4
  wlast : Bool := true
  bready : Bool
  arvalid : Bool
  araddr : Word
  arid : BitVec 4 := 0
  arlen : BitVec 8
  arsize : BitVec 3
  arburst : BitVec 2
  rready : Bool

structure Soc where
  core : Core
  icache : Icache
  arb : Arbiter
  xbar : SocXbar
  clint : Clint
deriving Inhabited

namespace Soc

/-- The bus-carrying part of the chip. -/
def fabric (s : Soc) : Fabric where
  ifu := s.core.ifu
  icache := s.icache
  lsu := s.core.lsu
  arb := s.arb
  xbar := s.xbar

/-- What the rest of the chip and the slave behind `io_master` drive into it. -/
def fabricIn (s : Soc) (io : AxiResp) : FabricIn where
  inFenceiDone := s.core.fenceiDone
  inRedirectPc := s.core.redirectPc
  inRedirectFire := s.core.redirectFire
  inReady := s.core.iduReady
  lsuInValid := s.core.exu.outValid
  lsuInReady := true
  lsuInst := s.core.exu.out
  soc := io
  clint := s.clint.axi

/-- `io_master`, master side. -/
def ioMaster (s : Soc) : AxiReq := s.fabric.socReq

/-- The outputs of `io_master` with the attributes the top level adds. -/
def ioMasterPort (s : Soc) : IoMaster where
  awvalid := s.ioMaster.awvalid
  awaddr := s.ioMaster.awaddr
  wvalid := s.ioMaster.wvalid
  wdata := s.ioMaster.wdata
  wstrb := s.ioMaster.wstrb
  bready := s.ioMaster.bready
  arvalid := s.ioMaster.arvalid
  araddr := s.ioMaster.araddr
  arlen := s.ioMaster.arlen
  arsize := s.ioMaster.arsize
  arburst := s.ioMaster.arburst
  rready := s.ioMaster.rready

/-- What the two ports of the core see. -/
def coreIn (s : Soc) (io : AxiResp) : CoreIn where
  ifu := s.icache.axiIn
  lsu := s.fabric.lsuResp (s.fabricIn io)

/-- One clock edge with `reset` low. -/
def step (s : Soc) (io : AxiResp) : Soc where
  core := s.core.step .ysyxsoc (s.coreIn io)
  icache := s.icache.step s.core.ifu.outIcacheFlush s.core.ifuAxi
    (s.fabric.icacheResp (s.fabricIn io))
  arb := s.arb.step s.icache.axiOut s.core.lsuAxi (s.fabric.arbResp (s.fabricIn io))
  xbar := s.xbar.step s.fabric.arbReq io s.clint.axi
  clint := s.clint.step s.fabric.clintReq

/-- One clock edge with `reset` high. -/
def reset (s : Soc) (io : AxiResp) : Soc where
  core := s.core.reset .ysyxsoc (s.coreIn io)
  icache := s.icache.reset
  arb := Arbiter.reset
  xbar := s.xbar.reset s.fabric.arbReq io s.clint.axi
  clint := s.clint.reset

/-- The chip after reset. -/
structure AfterReset (s : Soc) : Prop where
  core : s.core.AfterReset .ysyxsoc
  icache : s.icache.AfterReset
  arb : s.arb = Arbiter.reset
  xbar : s.xbar.readSlave = .idle

/-- Two clock edges with `reset` high reset the chip: after the first no
request is granted, so the second finds the crossbar's branch quiet. -/
theorem reset_afterReset (s : Soc) (io io' : AxiResp) : ((s.reset io).reset io').AfterReset where
  core := Core.reset_afterReset _ _ _
  icache := Icache.reset_afterReset _
  arb := rfl
  xbar := SocXbar.reset_idle _ rfl rfl

/-- The chip two reset edges after all registers were zero. -/
def powerUp : Soc := ((default : Soc).reset default).reset default

theorem powerUp_afterReset : powerUp.AfterReset := reset_afterReset _ _ _

/-- The chip's fabric moves as the fabric does. -/
theorem fabric_step (s : Soc) (io : AxiResp) :
    (s.step io).fabric = s.fabric.step (s.fabricIn io) := rfl

/-- The chip's core moves as the core does. -/
theorem core_step (s : Soc) (io : AxiResp) :
    (s.step io).core = s.core.step .ysyxsoc (s.coreIn io) := rfl

theorem fabric_afterReset {s : Soc} (h : s.AfterReset) : s.fabric.AfterReset where
  frontend := ⟨h.core.ifu, h.icache⟩
  lsuState := h.core.lsuState
  lsuValid := h.core.lsuValid
  lsuAr := h.core.lsuAr
  lsuAw := h.core.lsuAw
  lsuW := h.core.lsuW
  arb := h.arb
  xbar := h.xbar

end Soc

/-- The fabric's fetch side moves as the fetch unit with its cache does. -/
theorem Fabric.frontend_step (s : Fabric) (i : FabricIn) :
    (s.step i).frontend = s.frontend.step (s.frontendIn i) := rfl

end Riscv32.Rtl
