import Riscv32.Rtl.Core

/-!
# The checks of the simulated stages

Under `ifdef VERILATOR` every stage of the pipeline looks at what it hands on
and calls `$error` and `$fatal(1)` when the pc or the word is zero, which ends
the simulator.  The six checks stand in `IFU.sv`, `IDU.v`, `EXU.sv`, `LSU.sv`
and `WBU.sv`, and are named here after the stage their message gives.  They are
not alike: the one on the read channel tests `fetch_pc` and not the address of
the response, so that it also meets words fetched past a jump; the one behind
decode lets an exception entry off for its pc but not for its zero word; those
behind it know no exceptions.

`Core.pipeError` says that one of them fails at the next clock edge.  The checks
only end the simulation: they drive nothing, and the core synthesised without
them is `Core.step`.
-/

namespace Riscv32.Rtl

/-- `IFU->IDU`. -/
def Ifu.pipeErrorOut (s : Ifu) (i : IfuIn) : Bool :=
  s.outFire i && (!s.outExceptionValid && (s.outPc == 0 || s.outInst == 0))

/-- `IFU-AXI-R`. -/
def Ifu.pipeErrorAxiR (s : Ifu) (i : IfuIn) : Bool :=
  s.ifuRFire i && (s.fetchPc == 0 || i.axi.rdata == 0)

/-- `IDU->EXU`; `&&` binds tighter than `||` in the source. -/
def Idu.pipeError (s : Idu) (inReady : Bool) : Bool :=
  s.outValid && inReady && (!s.out.exceptionValid && s.out.pc == 0 || s.out.inst == 0)

/-- `EXU->LSU`. -/
def Exu.pipeError (s : Exu) (lsuReady : Bool) : Bool :=
  s.outFire lsuReady && (s.out.pc == 0 || s.out.inst == 0)

/-- `LSU->WBU`; the write-back unit is always ready. -/
def Lsu.pipeError (s : Lsu) : Bool := s.outValid && (s.outPc == 0 || s.outInst == 0)

/-- `WBU-COMMIT`. -/
def Commit.pipeError (c : Commit) (commitFire : Bool) : Bool :=
  commitFire && (c.pc == 0 || c.inst == 0)

/-- A check fails at the clock edge. -/
def Core.pipeError (s : Core) (i : CoreIn) : Bool :=
  s.ifu.pipeErrorOut (s.ifuIn i) || s.ifu.pipeErrorAxiR (s.ifuIn i) ||
    s.idu.pipeError s.exuReady || s.exu.pipeError s.lsuReady || s.lsu.pipeError ||
    s.commit.pipeError s.commitFire

end Riscv32.Rtl
