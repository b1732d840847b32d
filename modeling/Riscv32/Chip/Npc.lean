import Riscv32.Pipeline.Drain
import Riscv32.Rtl.Npc

/-!
# `fence.i` in the NPC build

Without a cache the fetch unit's port is the arbiter's, and the arbiter is
ready only for a master it has granted.  It grants the fetch unit only while
that asks, so an idle read channel never sees `arready`: the sequencer of a
committed `fence.i` waits for ever.

`GrantAsks` is the invariant behind this; it holds in `NpcCore` under any answers
on `axi_arb`, and `npcCore_run` carries it to the whole build.  `npc_wedged` is
the consequence: `fence_pending` never falls again.
-/

namespace Riscv32.Chip

open Riscv32.Rtl
open Riscv32.Clocked
open Riscv32.Pipeline
open Riscv32.Fetch

section Run

variable (s : NpcCore) (arb : Nat → AxiResp)

def npcAt (t : Nat) : NpcCore := run NpcCore.step s arb t

/-- What the core's ports see. -/
def npcInp (t : Nat) : CoreIn := (npcAt s arb t).coreIn (arb t)

theorem core_npcAt (t : Nat) : (npcAt s arb t).core = coreAt .npc s.core (npcInp s arb) t :=
  run_project NpcCore.core (fun s arb => s.coreIn arb) NpcCore.core_step s arb t

theorem npcAt_add (a n : Nat) :
    npcAt s arb (a + n) = npcAt (npcAt s arb a) (fun k => arb (a + k)) n :=
  run_add NpcCore.step s arb a n

end Run

/-- What answers on `axi_arb` in a run of the whole build. -/
def npcArb (s : Npc) (pmemRead : Nat → Word → Word) (t : Nat) : AxiResp :=
  (run Npc.step s pmemRead t).arbResp

/-- The whole build runs as its core and arbiter do. -/
theorem npcCore_run (s : Npc) (pmemRead : Nat → Word → Word) (t : Nat) :
    (run Npc.step s pmemRead t).npcCore = npcAt s.npcCore (npcArb s pmemRead) t :=
  run_project Npc.npcCore (fun s _ => s.arbResp) Npc.npcCore_step s pmemRead t

/-- The fetch unit is granted only while it asks. -/
def GrantAsks (s : NpcCore) : Prop :=
  s.arb.readGrant = .ifu → s.core.ifu.axiState = .sendAr

section Step

variable {s : NpcCore} {arb : AxiResp}

/-- A request that is not accepted stays. -/
private theorem asks_hold (hSend : s.core.ifu.axiState = .sendAr)
    (hFire : s.core.ifu.ifuArFire (s.core.ifuIn (s.coreIn arb)) = false) :
    (s.step arb).core.ifu.axiState = .sendAr := by
  have hMove := axiMove s.core.ifu (s.core.ifuIn (s.coreIn arb))
  change (s.core.ifu.axiBlock (s.core.ifuIn (s.coreIn arb))).axiState = .sendAr
  generalize s.core.ifu.axiBlock (s.core.ifuIn (s.coreIn arb)) = ax at hMove
  cases hMove with
  | start | ask => rfl
  | rest hBad | answered hBad | await hBad => rw [hSend] at hBad; cases hBad
  | asked _ hBad => rw [hFire] at hBad; cases hBad

theorem grantAsks_step (h : GrantAsks s) : GrantAsks (s.step arb) := by
  intro hGrant
  have hNext : (s.step arb).arb.readGrant =
      if s.arb.readGrant = .idle ∧ s.arb.readOwner = .idle then
        if s.core.lsuAxi.arvalid then .lsu else if s.core.ifuAxi.arvalid then .ifu else .idle
      else if arFire s.arbReq arb then .idle
      else s.arb.readGrant := rfl
  have hPort : s.core.ifu.ifuArFire (s.core.ifuIn (s.coreIn arb)) =
      (s.core.ifuAxi.arvalid && (s.arb.readGrant == .ifu && arb.arready)) := rfl
  rw [hNext] at hGrant
  by_cases hFree : s.arb.readGrant = .idle ∧ s.arb.readOwner = .idle
  · -- the grant answers a request made in this cycle
    rw [if_pos hFree] at hGrant
    have hValid : s.core.ifuAxi.arvalid = true := by
      cases hV : s.core.ifuAxi.arvalid with
      | true => rfl
      | false => cases hL : s.core.lsuAxi.arvalid <;> simp [hV, hL] at hGrant
    refine asks_hold (by simpa [Core.ifuAxi, Ifu.axi] using hValid) ?_
    rw [hPort, hFree.1]
    simp
  · rw [if_neg hFree] at hGrant
    have hFire : arFire s.arbReq arb = false := by
      cases hF : arFire s.arbReq arb with
      | false => rfl
      | true => simp [hF] at hGrant
    rw [hFire] at hGrant
    have hOld : s.arb.readGrant = .ifu := hGrant
    refine asks_hold (h hOld) ?_
    rw [hPort, hOld]
    simpa [arFire, NpcCore.arbReq, Arbiter.axiArb, Arbiter.granted, hOld] using hFire

end Step

section Run

variable {s : NpcCore} {arb : Nat → AxiResp}

theorem grantAsks_at (h : GrantAsks s) (t : Nat) : GrantAsks (npcAt s arb t) :=
  run_invariant GrantAsks h (fun _ _ => grantAsks_step) t

/-- The sequencer never leaves its wait. -/
theorem npc_stuck {pc : Word} (hGrant : GrantAsks s) (h : Drained s.core pc)
    (hWait : s.core.ifu.fenceiState = .wait) (n : Nat) :
    Drained (npcAt s arb n).core pc ∧ (npcAt s arb n).core.ifu.fenceiState = .wait := by
  rw [core_npcAt]
  refine drained_stuck h hWait (fun k _ hIdle => ?_) n
  rw [← core_npcAt] at hIdle
  change ((npcAt s arb k).arb.readGrant == .ifu && (arb k).arready) = false
  have hNot : (npcAt s arb k).arb.readGrant ≠ .ifu := fun hIfu => by
    rw [grantAsks_at hGrant k hIfu] at hIdle
    cases hIdle
  simp [hNot]

/-- **In the NPC build a committed `fence.i` wedges the core**, whatever the
slaves answer: `fence_pending` never falls again. -/
theorem npc_wedged (hReset : s.AfterReset) {c t : Nat}
    (hDrain : Draining .npc s.core (npcInp s arb) c t) (arb' : Nat → AxiResp) (n : Nat) :
    (npcAt (npcAt s arb t) arb' n).core.idu.fencePending = true := by
  have hGrant : GrantAsks s := by
    intro hIfu
    rw [hReset.arb] at hIfu
    cases hIfu
  obtain ⟨hFirst, hWait⟩ := drained_first hReset.core hDrain.commits
  rw [← core_npcAt] at hFirst hWait
  have hNow := @npc_stuck _ (fun k => arb (c + 1 + k)) _ (grantAsks_at hGrant (c + 1)) hFirst hWait
    (t - (c + 1))
  have hTime : c + 1 + (t - (c + 1)) = t := by
    have := hDrain.before
    omega
  rw [← npcAt_add, hTime] at hNow
  exact (npc_stuck (grantAsks_at hGrant t) hNow.1 hNow.2 n).1.pending

end Run

end Riscv32.Chip
