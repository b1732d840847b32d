import Riscv32.Cache.Refill
import Riscv32.Fabric.Reads

/-!
# Refills over the bus

The cache of `Cache.Refill` in front of the bus of `Fabric.Reads`: the promise
of the slave behind `io_master` about its bursts reaches the cache unchanged.

The cache is proved correct for any memory that answers a burst with as many
beats as it asked for and flags the last (`BurstMemory`).  On the chip its memory
is the bus, and `burstMemory_of_soc` discharges that assumption from the one
about `io_master` alone, refills aimed at the timer included.
-/

namespace Riscv32.Fabric

open Riscv32.Rtl
open Riscv32.Cache
open Riscv32.Clocked

section Cache

variable (s : Fabric) (inp : Nat → FabricIn)

/-- What the fetch unit with its cache sees of the fabric. -/
def cacheInp (t : Nat) : FrontendIn := (fabricAt s inp t).frontendIn (inp t)

theorem frontend_fabricAt (t : Nat) :
    (fabricAt s inp t).frontend = frontendAt s.frontend (cacheInp s inp) t :=
  run_project Fabric.frontend (fun s i => s.frontendIn i) Fabric.frontend_step s inp t

/-- The cache's beats are those of the fetch side. -/
theorem refillBeat_eq : refillBeat s.frontend (cacheInp s inp) = masterBeat s inp .ifu := by
  funext t
  simp only [refillBeat, ← frontend_fabricAt]
  rfl

/-- The cache's accepted requests are the accepted reads of the fetch side. -/
theorem refillAr_eq (t : Nat) :
    refillAr s.frontend (cacheInp s inp) t =
      (readAr s inp t).bind fun r => if r.master = .ifu then some (r.addr, r.len) else none := by
  have hPort : refillAr s.frontend (cacheInp s inp) t =
      if arFire (fabricAt s inp t).icache.axiOut ((fabricAt s inp t).icacheResp (inp t)) then
        some ((fabricAt s inp t).icache.araddr, (fabricAt s inp t).icache.arlen)
      else none := by
    simp only [refillAr, ← frontend_fabricAt]
    rfl
  rw [hPort, icacheAr_eq]
  cases hFire : arbAr (fabricAt s inp t) (inp t) with
  | false => simp [readAr_none hFire]
  | true =>
      rw [readAr, if_pos hFire]
      cases hGrant : (fabricAt s inp t).arb.readGrant <;>
        simp [Fabric.arbReq, Arbiter.axiArb, Arbiter.granted, hGrant, Icache.axiOut]

variable {s inp}

/-- **The bus keeps the slave's promise to the cache**: a refill ends with its
fourth beat.  One aimed at the timer has a single beat, which is not flagged. -/
theorem burstMemory_of_soc (hReset : s.AfterReset) (hSoc : SocBursts s inp) :
    BurstMemory s.frontend (cacheInp s inp) := by
  intro a t b ha hAr hQuiet hBeat
  rw [refillBeat_eq] at hBeat ⊢
  have hTaken : (fabricAt s inp t).arb.readOwner = .ifu ∧
      arbR (fabricAt s inp t) (inp t) = true := by
    rw [masterBeat, icacheR_eq] at hBeat
    split at hBeat
    · rename_i hTake
      simpa using hTake
    · cases hBeat
  obtain ⟨hOwner, hFire⟩ := hTaken
  obtain ⟨a', r, hOut⟩ := (routeInv hReset hSoc t).owned (by simp [hOwner])
  have hMaster : r.master = .ifu := hOut.master.trans hOwner
  -- the open burst of the cache is the outstanding read of the bus
  have hSame : a' = a ∧ b = (r.addr, r.len) := by
    have hAr' : refillAr s.frontend (cacheInp s inp) a' = some (r.addr, r.len) := by
      rw [refillAr_eq, hOut.ar]
      simp [hMaster]
    rcases Nat.lt_trichotomy a a' with hLt | rfl | hGt
    · rw [hQuiet a' hLt hOut.before] at hAr'
      cases hAr'
    · exact ⟨rfl, Option.some.inj (hAr.symm.trans hAr')⟩
    · rw [refillAr_eq, hOut.quiet a hGt ha] at hAr
      cases hAr
  obtain ⟨rfl, rfl⟩ := hSame
  have hFlag : ((cacheInp s inp) t).axi.rlast = ((fabricAt s inp t).arbResp (inp t)).rlast := by
    simp [cacheInp, Fabric.frontendIn, Fabric.icacheResp, Arbiter.axiIfu, hOwner]
  have hLog : (logFrom (masterBeat s inp .ifu) (a' + 1) t).length = beatsOf s inp a' r t := by
    rw [beatsOf, ← hOut.log, hMaster]
  dsimp only
  rw [hFlag, hLog]
  have hSel := hOut.selected hFire
  cases hSlave : r.slave with
  | idle => exact absurd hSlave (slave_ne_idle hOut.ar)
  | soc => exact soc_last_iff hSoc hOut hFire hSlave
  | clint =>
      have hX : (fabricAt s inp t).xbar.readSlave = .clint := hSel.symm.trans hSlave
      have hLen : r.len.toNat = 3 := by rw [hOut.ifuLen hMaster]; rfl
      rw [clint_no_last (by simp [hX]), hOut.clintBeats hX, hLen]
      simp

end Cache

end Riscv32.Fabric
