import Riscv32.Rtl.Bus
import Riscv32.Rtl.Core
import Riscv32.Rtl.Xbar

/-!
# The NPC build

`ysyx_25120302.v` under `ARCH_NPC`: the core with both ports on the arbiter,
the crossbar, and three slaves.  The only input is what the simulator's memory
answers.

`NpcCore` is the part up to the arbiter, with whatever answers on `axi_arb` as
its environment; by `npcCore_step` it moves inside the build as it does alone, so
results about the core of this build need not look at the slaves.
-/

namespace Riscv32.Rtl

/-! ## Core and arbiter -/

structure NpcCore where
  core : Core
  arb : Arbiter
deriving Inhabited

namespace NpcCore

/-- `axi_arb`, master side. -/
def arbReq (s : NpcCore) : AxiReq := s.arb.axiArb s.core.ifuAxi s.core.lsuAxi

/-- What the two ports of the core see. -/
def coreIn (s : NpcCore) (arb : AxiResp) : CoreIn where
  ifu := s.arb.axiIfu arb
  lsu := s.arb.axiLsu s.core.lsuAxi arb

/-- One clock edge with `reset` low. -/
def step (s : NpcCore) (arb : AxiResp) : NpcCore where
  core := s.core.step .npc (s.coreIn arb)
  arb := s.arb.step s.core.ifuAxi s.core.lsuAxi arb

/-- The state after reset. -/
structure AfterReset (s : NpcCore) : Prop where
  core : s.core.AfterReset .npc
  arb : s.arb = Arbiter.reset

theorem core_step (s : NpcCore) (arb : AxiResp) :
    (s.step arb).core = s.core.step .npc (s.coreIn arb) := rfl

end NpcCore

/-! ## The whole build -/

structure Npc where
  core : Core
  arb : Arbiter
  xbar : Xbar
  mem : Mem
  uart : Uart
  clint : Clint
deriving Inhabited

namespace Npc

def npcCore (s : Npc) : NpcCore := ⟨s.core, s.arb⟩

def slaves (s : Npc) : XbarSlaves := ⟨s.uart.axi, s.mem.axi, s.clint.axi⟩

/-- `axi_arb`, slave side. -/
def arbResp (s : Npc) : AxiResp := s.xbar.axiArb s.npcCore.arbReq s.slaves

/-- One clock edge with `reset` low. -/
def step (s : Npc) (pmemRead : Word → Word) : Npc where
  core := s.core.step .npc (s.npcCore.coreIn s.arbResp)
  arb := s.arb.step s.core.ifuAxi s.core.lsuAxi s.arbResp
  xbar := s.xbar.step s.npcCore.arbReq s.slaves
  mem := s.mem.step (s.xbar.axiMem s.npcCore.arbReq s.slaves) pmemRead
  uart := s.uart.step (s.xbar.axiUart s.npcCore.arbReq s.slaves)
  clint := s.clint.step (s.xbar.axiClint s.npcCore.arbReq s.slaves)

/-- One clock edge with `reset` high; the crossbar has no reset. -/
def reset (s : Npc) (pmemRead : Word → Word) : Npc where
  core := s.core.reset .npc (s.npcCore.coreIn s.arbResp)
  arb := Arbiter.reset
  xbar := s.xbar.step s.npcCore.arbReq s.slaves
  mem := s.mem.reset (s.xbar.axiMem s.npcCore.arbReq s.slaves) pmemRead
  uart := s.uart.reset
  clint := s.clint.reset

theorem reset_afterReset (s : Npc) (pmemRead : Word → Word) :
    (s.reset pmemRead).npcCore.AfterReset :=
  ⟨Core.reset_afterReset _ _ _, rfl⟩

/-- The build one reset edge after all registers were zero. -/
def powerUp : Npc := (default : Npc).reset fun _ => 0

theorem powerUp_afterReset : powerUp.npcCore.AfterReset := reset_afterReset _ _

/-- The part up to the arbiter moves as `NpcCore` does. -/
theorem npcCore_step (s : Npc) (pmemRead : Word → Word) :
    (s.step pmemRead).npcCore = s.npcCore.step s.arbResp := rfl

end Npc

end Riscv32.Rtl
