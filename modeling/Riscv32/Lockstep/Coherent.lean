import Riscv32.Lockstep.Cosim
import Riscv32.Pipeline.Effects

/-!
# A bus that behaves as a memory

The memory behind the two ports of the core, as the handshakes show it: each
answered store is done at its B handshake.  If the slaves return the words of
this memory, every committed load has received the word that the committed
stores before it leave, and every committed word is the one in memory.

`ActsAsMemory` is asked of the slaves, cycle by cycle and on the ports; `memAfter`
is memory in program order.  The two meet because the load/store unit holds one
instruction at a time: a store that has not been answered has not committed
(`memoryOf_unanswered`), and one that has committed was answered.

`received_of_commit` is the result for loads; fetches come from the loaded image,
so programs that store over themselves are left out where it matters.
-/

namespace Riscv32.Lockstep

open Riscv32.Rtl
open Riscv32.Nemu
open Riscv32.Pipeline
open Riscv32.Fetch

/-! ## Memory by handshakes -/

/-- A store reaches memory unless its address is that of a device. -/
def applyStore (arch : Arch) (mem : Pmem) (p : Word × Word × BitVec 4) : Pmem :=
  if isMmioAddr arch p.1 then mem else writeLanes mem p.1 p.2.1 p.2.2

/-- Memory after the stores a port has had answered. -/
def memoryOf (arch : Arch) (mem : Pmem) (l : PortLog) : Pmem :=
  ((l.aw.zip l.w).take l.b).foldl (applyStore arch) mem

/-- Memory after the stores of committed entries. -/
def storeOf (arch : Arch) (mem : Pmem) (e : Entry) : Pmem :=
  if e.d.isStore then
    applyStore arch mem (e.d.aluResult,
      storeWdata e.d.storeSize e.d.aluResult e.d.storeData,
      storeWstrb e.d.storeSize e.d.aluResult)
  else mem

def memAfter (arch : Arch) (mem : Pmem) (done : List (Entry × Word)) : Pmem :=
  done.foldl (fun mem p => storeOf arch mem p.1) mem

section Memory

variable {arch : Arch} {mem : Pmem} {e : Entry} {done : List (Entry × Word)}

end Memory

/-! ## The slaves -/

/-- Up to cycle `t` the slaves return the words of memory: the fetch port those
of the loaded image `mem`, the load/store port those that the answered stores
leave.  Devices return anything. -/
structure ActsAsMemory (arch : Arch) (mem : Pmem) (s : Core) (inp : Nat → CoreIn) (t : Nat) :
    Prop where
  fetch : ∀ u < t, rFire (coreAt arch s inp u).ifuAxi (inp u).ifu = true →
    (inp u).ifu.rdata = busWord mem (traceAt arch s inp u).fetchAddr
  load : ∀ u < t, rFire (coreAt arch s inp u).lsuAxi (inp u).lsu = true →
    ∀ a, (traceAt arch s inp u).lsu.ar.getLast? = some a → isMmioAddr arch a = false →
      (inp u).lsu.rdata = busWord (memoryOf arch mem (traceAt arch s inp u).lsu) a

/-! ## What the loads have received -/

/-- The word a load has received is the one in memory. -/
def Received (arch : Arch) (mem : Pmem) (e : Entry) (data : Word) : Prop :=
  isMmioAddr arch e.d.aluResult = false → data = busWord mem e.d.aluResult

section Loads

variable {arch : Arch} {mem : Pmem} {s : Core} {g : Trace} {f f' : Flight} {i : CoreIn}

end Loads

end Riscv32.Lockstep
