import Riscv32.Fabric.Bursts
import Riscv32.Fabric.Routing
import Riscv32.Pipeline.Front

/-!
# Runs of the chip

A run of the SoC build under an arbitrary slave behind `io_master`, and the
runs of its parts it contains: the core between its two ports, the bus fabric,
the fetch unit with its cache.  What is proved of a part in every environment
holds in the chip.

The parts are projections (`Clocked.run_project`): `coreInp`, `fabricInp` and
`frontendInp` are what each part sees, and `core_socAt`, `fabric_socAt` and
`frontend_socAt` say that it makes its own run on that.  The pipeline invariant
and that of the bus are carried over once, as `coreInv_socAt` and `busInv_socAt`.
-/

namespace Riscv32.Chip

open Riscv32.Rtl
open Riscv32.Clocked
open Riscv32.Pipeline
open Riscv32.Fabric
open Riscv32.Cache

variable (s : Soc) (io : Nat → AxiResp)

def socAt (t : Nat) : Soc := run Soc.step s io t

/-- What the core's ports see. -/
def coreInp (t : Nat) : CoreIn := (socAt s io t).coreIn (io t)

/-- What the fabric sees. -/
def fabricInp (t : Nat) : FabricIn := (socAt s io t).fabricIn (io t)

/-- What the fetch unit with its cache sees. -/
def frontendInp (t : Nat) : FrontendIn := (socAt s io t).fabric.frontendIn (fabricInp s io t)

theorem core_socAt (t : Nat) :
    (socAt s io t).core = coreAt .ysyxsoc s.core (coreInp s io) t :=
  run_project Soc.core (fun s io => s.coreIn io) Soc.core_step s io t

theorem fabric_socAt (t : Nat) :
    (socAt s io t).fabric = fabricAt s.fabric (fabricInp s io) t :=
  run_project Soc.fabric (fun s io => s.fabricIn io) Soc.fabric_step s io t

theorem frontend_socAt (t : Nat) :
    (socAt s io t).fabric.frontend = frontendAt s.fabric.frontend (frontendInp s io) t :=
  run_project (fun s : Soc => s.fabric.frontend) (fun s io => s.fabric.frontendIn (s.fabricIn io))
    (fun _ _ => rfl) s io t

/-- The cache sees the chip's fabric. -/
theorem frontendInp_eq : frontendInp s io = cacheInp s.fabric (fabricInp s io) := by
  funext t
  rw [frontendInp, cacheInp, fabric_socAt]

variable {s io}

/-- Grant and ownership in every cycle of the chip. -/
theorem busInv_socAt (h : s.AfterReset) (t : Nat) : BusInv (socAt s io t).fabric := by
  induction t with
  | zero => exact busInv_reset (Soc.fabric_afterReset h)
  | succ t ih => exact @busInv_step _ ((socAt s io t).fabricIn (io t)) ih

/-- The pipeline invariant in every cycle of the chip. -/
theorem coreInv_socAt (h : s.AfterReset) (t : Nat) :
    CoreInv .ysyxsoc s.core.csr (socAt s io t).core
      (traceAt .ysyxsoc s.core (coreInp s io) t) := by
  rw [core_socAt]
  exact coreInv_at h.core (coreInp s io) t

end Riscv32.Chip
