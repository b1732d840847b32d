import Riscv32.Lockstep.Exec
import Riscv32.Pipeline.Refinement
import Riscv32.Rtl.Checks

/-!
# Co-simulation

The NPC simulator with NEMU beside it: `exec_once` of `sim_main.cpp`,
`trace_and_difftest` and `execute` of `cpu-exec.cpp`, `difftest_step` of
`dut.cpp`, and on NEMU's side `difftest_exec` and `difftest_regcpy` of
`ref.c`.  NEMU is the shared object, so it is built for `CONFIG_TARGET_SHARE`.

The simulator is built from the stages with `VERILATOR` defined, so a clock edge
can also end it: where a check of a stage fails (`Core.pipeError`), `top->eval()`
does not return, and `Sim.execOnce` is `none`.  Everything else of a stage that
stands under `ifdef VERILATOR` only counts events.

What a slave answers is the input of a cycle, as in all runs of the core; the
simulator's own memory is one such slave.
-/

namespace Riscv32.Lockstep

open Riscv32.Rtl
open Riscv32.Nemu
open Riscv32.Pipeline

/-! ## The reference -/

/-- What `difftest_regcpy` copies. -/
structure CPUArchState where
  gpr : BitVec 5 → Word
  pc : Word

/-- The globals of NEMU. -/
structure Ref where
  machine : Machine
  pc : Word

namespace Ref

/-- `difftest_exec(1)`: `cpu_exec` executes nothing once the program has ended.
`none` where the instruction accesses a device or no memory at all. -/
def exec (r : Ref) : Option Ref :=
  match r.machine.nemuState with
  | .running => (isaExecOnce .share r.machine r.pc).map fun p => ⟨p.1, p.2⟩
  | .ended _ _ | .aborted _ => some r

/-- `difftest_regcpy(dut, DIFFTEST_TO_REF)`. -/
def regcpy (r : Ref) (dut : CPUArchState) : Ref where
  machine := { r.machine with gpr := fun i => if i.toNat < 16 then dut.gpr i else r.machine.gpr i }
  pc := dut.pc

end Ref

/-! ## The simulator -/

/-- `npc_state.state`. -/
inductive NpcState
  | running | stop | ended | abort | quit
deriving DecidableEq, Repr

/-- The globals of the simulator. -/
structure Sim where
  top : Core
  cpu : CPUArchState
  ref : Ref
  state : NpcState
  haltPc : Word
  haltRet : Word
  isSkipRef : Bool

namespace Sim

/-- `exec_once`: one clock cycle, and the commit it shows.  `none` where `top->eval()`
comes to the `$fatal(1)` of a failed check, which ends the simulator. -/
def execOnce (arch : Arch) (s : Sim) (i : CoreIn) : Option (Sim × Option Commit) :=
  let top := s.top.step arch i
  if s.top.pipeError i then none
  else if s.top.commitFire then
    let c := s.top.commit
    let gpr := fun r : BitVec 5 =>
      if r = 0 then 0 else if r.toNat < 16 then top.rf.read r else s.cpu.gpr r
    let s := { s with top := top, cpu := ⟨gpr, c.npc⟩ }
    some (if c.ebreak then
      { s with
        haltPc := c.pc
        haltRet := s.cpu.gpr 10
        state := if s.cpu.gpr 10 = 0 then .ended else .abort }
      else s, some c)
  else some ({ s with top := top }, none)

/-- `isa_difftest_checkregs`. -/
def checkregsOk (s : Sim) : Bool :=
  (List.range 16).all (fun n =>
    s.cpu.gpr (BitVec.ofNat 5 n) = s.ref.machine.gpr (BitVec.ofNat 5 n)) && s.cpu.pc = s.ref.pc

/-- `checkregs`. -/
def checkregs (s : Sim) (pc : Word) : Sim :=
  if s.checkregsOk then s else { s with state := .abort, haltPc := pc }

/-- `difftest_step`. -/
def difftestStep (s : Sim) (pc : Word) : Option Sim :=
  if s.isSkipRef then some { s with ref := s.ref.regcpy s.cpu, isSkipRef := false }
  else s.ref.exec.map fun ref => checkregs { s with ref := ref } pc

/-- `trace_and_difftest`. -/
def traceAndDifftest (s : Sim) (c : Commit) : Option Sim :=
  difftestStep { s with isSkipRef := c.skipRef || s.isSkipRef } c.pc

/-- A round of `execute`. -/
def round (arch : Arch) (s : Sim) (i : CoreIn) : Option Sim :=
  match s.execOnce arch i with
  | none => none
  | some (s, some c) => s.traceAndDifftest c
  | some (s, none) => some s

/-- `execute`, which leaves the loop when the state is no longer `NPC_RUNNING`. -/
def execute (arch : Arch) (inp : Nat → CoreIn) (s : Sim) : Nat → Option Sim
  | 0 => some s
  | t + 1 => (execute arch inp s t).bind fun s =>
      if s.state = .running then s.round arch (inp t) else some s

end Sim

end Riscv32.Lockstep
