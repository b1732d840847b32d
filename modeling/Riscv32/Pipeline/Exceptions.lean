import Riscv32.Pipeline.Front

/-!
# Misaligned fetches

The fetch unit answers a misaligned address with an exception entry and stops
until the next redirect; decode registers the flag and the cause.  The execute
unit has no input for either, so the entry passes through it as an ordinary
instruction, and with nothing left to redirect it the fetch unit never starts
again.

`TakesTrap` is what taking the exception should look like.  The proof that it
never happens follows the entry: `Blocked` is the fetch unit behind it,
`exception_ctrl` what decode makes of it, and `Dead` the core once it has entered
execution, where nothing enters or redirects any more (`dead_at`).

`misaligned_fetch_never_traps` says all of this for every exception entry of
every run, together with the commit it comes to.
-/

namespace Riscv32.Pipeline

open Riscv32.Rtl
open Riscv32.Fetch
open Riscv32.Clocked

/-- What taking an exception entry should do: redirect to `mtvec`, leaving the
address in `mepc` and the cause in `mcause`. -/
structure TakesTrap (s s' : Core) : Prop where
  redirect : s.redirectFire = true
  target : s.redirectPc = s.csr.mtvec
  mepc : s'.csr.mepc = s.idu.out.pc
  mcause : s'.csr.mcause = s.idu.out.exceptionCause

/-- The fetch unit has handed an exception over and waits for a redirect. -/
structure Blocked (s : Ifu) : Prop where
  empty : s.ifuState = .empty
  pending : s.exceptionPending = true

/-- Nothing will enter execution any more. -/
structure Dead (s : Core) : Prop where
  blocked : Blocked s.ifu
  iduEmpty : s.idu.outValid = false
  noFence : s.idu.fencePending = false

/-- An exception entry in decode leaves the fetch unit blocked. -/
def HeldException (s : Core) : Prop :=
  s.idu.outValid = true → s.idu.out.exceptionValid = true →
    Blocked s.ifu ∧ s.idu.fencePending = false

section Step

variable {arch : Arch} {csr₀ : Csr} {s : Core} {g : Trace} {f : Flight} {pc : Word} {i : CoreIn}

/-- A blocked fetch unit stays blocked without a redirect or a `fence.i`. -/
theorem blocked_step {u : Ifu} {j : IfuIn} (hTracks : Tracks u pc) (h : Blocked u)
    (hRedirect : j.inRedirectFire = false) (hFence : j.inFenceiDone = false) :
    Blocked (u.step j) := by
  have hMove := slotMove u j
  obtain ⟨hEmpty, hPending⟩ := h
  suffices hSlot : (u.slotBlock j).ifuState = .empty ∧
      (u.slotBlock j).exceptionPending = true from ⟨hSlot.1, hSlot.2⟩
  generalize u.slotBlock j = sl at hMove
  cases hMove with
  | redirect hYes => simp [hRedirect] at hYes
  | fence _ hYes => simp [hFence] at hYes
  | raise _ _ _ _ hNo => simp [hPending] at hNo
  | handOver _ _ hValid _ => simp [hEmpty] at hValid
  | keep => exact ⟨hEmpty, hPending⟩
  | accept _ _ _ _ hFire hStale _ =>
      -- a live response would mean that no exception is pending
      have hWait := rFire_waitR hFire
      have hLive := hTracks.live (by simp [hWait]) hStale
      simp [hPending] at hLive

/-- An exception entry decodes to nothing. -/
theorem exception_ctrl (hBack : BackInv arch s g f) (hFront : FrontInv arch csr₀ s g f pc)
    (hValid : s.idu.outValid = true) (hExc : s.idu.out.exceptionValid = true) :
    s.idu.out.toCtrl = {} ∧ s.idu.out.inst = 0 := by
  obtain ⟨hFlag, hInst⟩ := hFront.iduExc hValid
  have hZero := hInst (hFlag ▸ hExc)
  have hCtrl : s.idu.out.toCtrl = decodeTaken s.idu.out.inst := (hBack.iduWf hValid).ctrl
  rw [hZero, decodeTaken_zero] at hCtrl
  exact ⟨hCtrl, hZero⟩

theorem redirectFire_false_of_exception (hBack : BackInv arch s g f)
    (hFront : FrontInv arch csr₀ s g f pc) (hValid : s.idu.outValid = true)
    (hExc : s.idu.out.exceptionValid = true) : s.redirectFire = false := by
  obtain ⟨hCtrl, -⟩ := exception_ctrl hBack hFront hValid hExc
  have hNo : s.idu.out.redirectValid = false := by simp [IduOut.redirectValid, hCtrl]
  simp [Core.redirectFire, Exu.redirectFire, hNo]

/-- With `fence_pending` low and no `fence.i` in decode, none is anywhere. -/
private theorem fenceiDone_false_of_quiet (hBack : BackInv arch s g f) (h : FencePhase s f)
    (hPending : s.idu.fencePending = false) : s.fenceiDone = false := by
  cases h with
  | quiet _ _ _ hLsu _ => exact fenceiDone_false_of_noFence hBack hLsu
  | decoded hYes => simp [hPending] at hYes
  | executed hYes => simp [hPending] at hYes
  | memory hYes => simp [hPending] at hYes
  | flushing hYes => simp [hPending] at hYes
  | flushed hYes => simp [hPending] at hYes

private theorem iduInFire_false_of_blocked (h : Blocked s.ifu) : s.iduInFire = false := by
  cases hFire : s.iduInFire with
  | false => rfl
  | true =>
      have hValid := (iduInFire_open hFire).1
      rw [h.empty] at hValid
      cases hValid

/-- While the fetch unit is blocked and nothing redirects, it stays so and
decode takes nothing. -/
private theorem blocked_core_step (hBack : BackInv arch s g f)
    (hFront : FrontInv arch csr₀ s g f pc) (h : Blocked s.ifu)
    (hRedirect : s.redirectFire = false) (hPending : s.idu.fencePending = false) :
    Blocked (s.step arch i).ifu ∧ (s.step arch i).idu.fencePending = false ∧
      (s.step arch i).idu.out = s.idu.out ∧
      (s.step arch i).idu.outValid = if s.exuInFire then false else s.idu.outValid := by
  have hTake := iduInFire_false_of_blocked h
  refine ⟨?_, ?_, iduOut_keep _ _ hRedirect hTake, ?_⟩
  · exact blocked_step hFront.tracks h hRedirect
      (fenceiDone_false_of_quiet hBack hFront.fence hPending)
  · simp [fencePending_step, hRedirect, hTake, hPending]
  · simp [iduValid_step, hRedirect, hTake]

theorem heldException_step (hBack : BackInv arch s g f) (hFront : FrontInv arch csr₀ s g f pc)
    (h : HeldException s) : HeldException (s.step arch i) := by
  intro hValid hExc
  cases hRedirect : s.redirectFire with
  | true => simp [iduValid_step, hRedirect] at hValid
  | false =>
      cases hFire : s.iduInFire with
      | true =>
          obtain ⟨hSlot, -, hPending, -⟩ := iduInFire_open hFire
          have hFence := fenceiDone_false_of_quiet hBack hFront.fence hPending
          rw [iduOut_take _ _ hRedirect hFire] at hExc
          have hMis : misaligned (fetchNext s pc) = true := by
            rw [← hFront.tracks.slot.validExc hSlot]
            exact hExc
          have hInst := hFront.tracks.slot.validInst hSlot hMis
          refine ⟨?_, ?_⟩
          · have hOut : s.ifu.outFire (s.ifuIn i) = true := hFire
            have h1 : (s.ifuIn i).inRedirectFire = false := hRedirect
            have h2 : (s.ifuIn i).inFenceiDone = false := hFence
            have hPend := hFront.tracks.slot.validPending hSlot
            constructor <;>
              simp [Core.step, Ifu.step, Ifu.slotBlock, h1, h2, hSlot, hOut, hPend, hMis]
          · have hZero : (decodeTaken s.ifu.outInst).isFencei = false := by
              rw [hInst, decodeTaken_zero]
            simp [fencePending_step, hRedirect, hFire, hZero, hPending]
      | false =>
          have hKeep := iduOut_keep arch i hRedirect hFire
          rw [hKeep] at hExc
          have hOld : s.idu.outValid = true := by
            cases hX : s.exuInFire <;> simp [iduValid_step, hRedirect, hFire, hX] at hValid
            exact hValid
          obtain ⟨hBlocked, hPending⟩ := h hOld hExc
          obtain ⟨h1, h2, -, -⟩ :=
            blocked_core_step (i := i) hBack hFront hBlocked hRedirect hPending
          exact ⟨h1, h2⟩

theorem dead_step (hBack : BackInv arch s g f) (hFront : FrontInv arch csr₀ s g f pc)
    (h : Dead s) : Dead (s.step arch i) := by
  obtain ⟨hBlocked, hIdu, hPending⟩ := h
  obtain ⟨h1, h2, -, h4⟩ := blocked_core_step (i := i) hBack hFront hBlocked
    (redirectFire_false_of_invalid hIdu) hPending
  refine ⟨h1, ?_, h2⟩
  rw [h4, hIdu]
  split <;> rfl

/-- An exception entry that enters execution leaves a dead core behind. -/
theorem dead_of_exception (hBack : BackInv arch s g f) (hFront : FrontInv arch csr₀ s g f pc)
    (h : HeldException s) (hFire : s.exuInFire = true)
    (hExc : s.idu.out.exceptionValid = true) : Dead (s.step arch i) := by
  have hValid := exuInFire_valid hFire
  obtain ⟨hBlocked, hPending⟩ := h hValid hExc
  obtain ⟨h1, h2, -, h4⟩ := blocked_core_step (i := i) hBack hFront hBlocked
    (redirectFire_false_of_exception hBack hFront hValid hExc) hPending
  exact ⟨h1, by simp [h4, hFire], h2⟩

/-- A zero word goes through the load/store unit in one cycle. -/
private theorem lsuPhase_zero {u : Lsu} {e : Entry} {m : PortLog}
    (hPhase : LsuPhase arch u (some e) m) (hCtrl : e.d.toCtrl = {}) : u.outValid = true := by
  cases hPhase with
  | passing _ _ _ hValid => exact hValid
  | readAddr _ _ _ _ hLoad => simp [hCtrl] at hLoad
  | waitR _ _ _ _ _ hLoad => simp [hCtrl] at hLoad
  | loaded _ _ _ _ hValid => exact hValid
  | writeReq _ _ _ _ _ _ _ hStore => simp [hCtrl] at hStore
  | waitB _ _ _ _ _ _ hStore => simp [hCtrl] at hStore
  | stored _ _ _ hValid => exact hValid

end Step

/-! ## Every run -/

/-- The commit of a word that does nothing. -/
structure PassesThrough (c : Commit) (addr : Word) : Prop where
  pc : c.pc = addr
  inst : c.inst = 0
  npc : c.npc = addr + 4
  wen : c.wen = false

section Run

variable {arch : Arch} {s : Core} {inp : Nat → CoreIn}

theorem heldException_at (h : s.AfterReset arch) (t : Nat) :
    HeldException (coreAt arch s inp t) := by
  induction t with
  | zero =>
      intro hValid
      have hEmpty : (coreAt arch s inp 0).idu.outValid = false := h.iduValid
      simp [hEmpty] at hValid
  | succ t ih =>
      obtain ⟨f, pc, hBack, hFront⟩ := coreInv_at h inp t
      exact heldException_step hBack hFront ih

/-- Once dead, dead for ever. -/
theorem dead_at (h : s.AfterReset arch) {t u : Nat} (hDead : Dead (coreAt arch s inp t))
    (hle : t ≤ u) : Dead (coreAt arch s inp u) := by
  induction u, hle using Nat.le_induction with
  | base => exact hDead
  | succ u _ ih =>
      obtain ⟨f, pc, hBack, hFront⟩ := coreInv_at h inp u
      exact dead_step hBack hFront ih

/-- The commit with index `n` is that of the entry with index `n`. -/
theorem commit_of_entry {g : Trace} {f : Flight} {n : Nat} {c : Commit}
    (hBack : BackInv arch s g f) (hc : g.commits[n]? = some c) :
    ∃ e data, g.entries[n]? = some e ∧ retiredOf c = e.retired data := by
  have hDone : (f.done.map fun p => p.1.retired p.2)[n]? = some (retiredOf c) := by
    rw [← hBack.commits, List.getElem?_map, hc]
    rfl
  rw [List.getElem?_map, Option.map_eq_some_iff] at hDone
  obtain ⟨p, hp, hEq⟩ := hDone
  refine ⟨p.1, p.2, ?_, hEq.symm⟩
  have hLt : n < f.done.length := by
    by_contra hGe
    rw [List.getElem?_eq_none (by omega)] at hp
    cases hp
  rw [hBack.entries, Flight.entries, List.append_assoc,
    List.getElem?_append_left (by simpa using hLt), List.getElem?_map, hp]
  rfl

/-- The entry made in cycle `t` keeps its index. -/
private theorem entry_at {t u : Nat} (hFire : (coreAt arch s inp t).exuInFire = true)
    (hlt : t < u) :
    (traceAt arch s inp u).entries[(traceAt arch s inp t).entries.length]? =
      some ⟨(coreAt arch s inp t).idu.out, (coreAt arch s inp t).csr⟩ := by
  have hNext : (traceAt arch s inp (t + 1)).entries =
      (traceAt arch s inp t).entries ++
        [⟨(coreAt arch s inp t).idu.out, (coreAt arch s inp t).csr⟩] := by
    simp [traceAt_succ, Trace.watch, hFire]
  obtain ⟨rest, hRest⟩ := (traceAt_grows arch s inp hlt).1
  rw [← hRest, hNext]
  simp

/-- A dead core takes no more entries. -/
private theorem entries_dead (h : s.AfterReset arch) {t u : Nat}
    (hDead : Dead (coreAt arch s inp t)) (hle : t ≤ u) :
    (traceAt arch s inp u).entries = (traceAt arch s inp t).entries := by
  induction u, hle using Nat.le_induction with
  | base => rfl
  | succ u hle ih =>
      have hNo := exuInFire_false_of_invalid (dead_at h hDead hle).iduEmpty
      simp [traceAt_succ, Trace.watch, hNo, ih]

private theorem passesThrough_of_entry {e : Entry} {c : Commit} {data : Word}
    (hCtrl : e.d.toCtrl = {}) (hInst : e.d.inst = 0) (h : retiredOf c = e.retired data) :
    PassesThrough c e.d.pc where
  pc := congrArg Retired.pc h
  inst := (congrArg Retired.inst h).trans hInst
  npc := by
    have hNpc : c.npc = e.npc := congrArg Retired.npc h
    rw [hNpc]
    simp [Entry.npc, IduOut.npc, IduOut.redirectValid, hCtrl]
  wen := by
    have hWrite := congrArg Retired.write h
    simpa [retiredOf, Entry.retired, hCtrl] using hWrite

/-- The last entry commits two cycles after the load/store unit is free for it,
if it does nothing there. -/
private theorem commits_when_free (h : s.AfterReset arch) {u n : Nat} {e : Entry}
    (hCtrl : e.d.toCtrl = {})
    (hLen : (traceAt arch s inp u).entries.length = n + 1)
    (he : (traceAt arch s inp u).entries[n]? = some e)
    (hFree : (coreAt arch s inp u).lsuReady = true) :
    ∃ c, (traceAt arch s inp (u + 2)).commits[n]? = some c := by
  obtain ⟨f, pc, hBack, hFront⟩ := coreInv_at h inp u
  have hNone : f.lsu = none := by
    rw [hBack.lsuReady] at hFree
    simpa using hFree
  have hCommits : ∀ {v : Nat} {f : Flight},
      BackInv arch (coreAt arch s inp v) (traceAt arch s inp v) f →
      (traceAt arch s inp v).commits.length = f.done.length := by
    intro v f hBack
    simpa using congrArg List.length hBack.commits
  cases hExu : f.exu with
  | none =>
      -- already committed
      have hDone : f.done.length = n + 1 := by
        simpa [hBack.entries, Flight.entries, hNone, hExu] using hLen
      have hLt : n < (traceAt arch s inp u).commits.length := by
        rw [hCommits hBack]; omega
      obtain ⟨rest, hRest⟩ := (traceAt_grows arch s inp
        (Nat.le_add_right u 2)).2
      refine ⟨(traceAt arch s inp u).commits[n], ?_⟩
      rw [← hRest, List.getElem?_append_left hLt, List.getElem?_eq_getElem hLt]
  | some e' =>
      have hDone : f.done.length = n := by
        simpa [hBack.entries, Flight.entries, hNone, hExu] using hLen
      have hSame : e' = e := by
        have hLast : (traceAt arch s inp u).entries[n]? = some e' := by
          simp [hBack.entries, Flight.entries, hNone, hExu, ← hDone]
        rw [he] at hLast
        exact (Option.some.inj hLast).symm
      subst hSame
      obtain ⟨f', hBack', hLsu', -, hMove⟩ := backInv_step (i := inp u) hBack
      have hDone' : f'.done.length = n := by
        obtain ⟨-, hKeep⟩ | ⟨e, data, -, hSome, -⟩ := hMove
        · rw [hKeep, hDone]
        · simp [hNone] at hSome
      have hPhase := hBack'.phase
      rw [hLsu', lsuNext, hNone, hExu] at hPhase
      have hFire : (coreAt arch s inp (u + 1)).commitFire = true := lsuPhase_zero hPhase hCtrl
      refine ⟨(coreAt arch s inp (u + 1)).commit, ?_⟩
      have hLen' : (traceAt arch s inp (u + 1)).commits.length = n := by
        rw [hCommits (v := u + 1) hBack', hDone']
      rw [traceAt_succ]
      simp [Trace.watch, hFire, ← hLen']

/-- **Misaligned fetches never trap.**  Whenever an exception entry enters
execution, in any run: no trap is taken and no CSR changes, nothing enters
execution or redirects afterwards, and the entry commits as a word that does
nothing and continues at the next address, as soon as the load/store unit is
free for it. -/
theorem misaligned_fetch_never_traps (h : s.AfterReset arch) (inp : Nat → CoreIn) (t : Nat)
    (hFire : (coreAt arch s inp t).exuInFire = true)
    (hExc : (coreAt arch s inp t).idu.out.exceptionValid = true) :
    ¬ TakesTrap (coreAt arch s inp t) (coreAt arch s inp (t + 1)) ∧
      archCsr (coreAt arch s inp (t + 1)).csr = archCsr (coreAt arch s inp t).csr ∧
      (∀ u, t < u → (coreAt arch s inp u).exuInFire = false ∧
        (coreAt arch s inp u).redirectFire = false) ∧
      (∀ u c, (traceAt arch s inp u).commits[(traceAt arch s inp t).entries.length]? = some c →
        PassesThrough c (coreAt arch s inp t).idu.out.pc) ∧
      ∀ u, t < u → (coreAt arch s inp u).lsuReady = true →
        ∃ c, (traceAt arch s inp (u + 2)).commits[(traceAt arch s inp t).entries.length]? = some c ∧
          PassesThrough c (coreAt arch s inp t).idu.out.pc := by
  obtain ⟨f, pc, hBack, hFront⟩ := coreInv_at h inp t
  have hValid := exuInFire_valid hFire
  obtain ⟨hCtrl, hInst⟩ := exception_ctrl hBack hFront hValid hExc
  have hNo := redirectFire_false_of_exception hBack hFront hValid hExc
  have hDead : Dead (coreAt arch s inp (t + 1)) :=
    dead_of_exception hBack hFront (heldException_at h t) hFire hExc
  have hCommit : ∀ u c,
      (traceAt arch s inp u).commits[(traceAt arch s inp t).entries.length]? = some c →
      PassesThrough c (coreAt arch s inp t).idu.out.pc := by
    intro u c hc
    obtain ⟨fu, pcu, hBackU, -⟩ := coreInv_at h inp u
    obtain ⟨e, data, he, hRet⟩ := commit_of_entry hBackU hc
    rcases Nat.lt_or_ge t u with hlt | hge
    · rw [entry_at hFire hlt] at he
      cases he
      exact passesThrough_of_entry hCtrl hInst hRet
    · -- before cycle `t` the entry does not exist
      have hLe := (traceAt_grows arch s inp hge).1.length_le
      rw [List.getElem?_eq_none hLe] at he
      cases he
  refine ⟨fun hTrap => by simpa [hNo] using hTrap.redirect, ?_, ?_, hCommit, ?_⟩
  · have hStep : (coreAt arch s inp (t + 1)).csr =
        (coreAt arch s inp t).csr.step ((coreAt arch s inp t).idu.out.csrIn
          (coreAt arch s inp t).csr true) := by
      rw [coreAt_succ, ← hFire]; rfl
    rw [hStep, archCsr_step]
    simp [IduOut.csrIn, hCtrl]
  · intro u hlt
    have hEmpty := (dead_at h hDead hlt).iduEmpty
    exact ⟨exuInFire_false_of_invalid hEmpty, redirectFire_false_of_invalid hEmpty⟩
  · intro u hlt hFree
    have hLen : (traceAt arch s inp u).entries.length =
        (traceAt arch s inp t).entries.length + 1 := by
      rw [entries_dead h hDead hlt]
      simp [traceAt_succ, Trace.watch, hFire]
    obtain ⟨c, hc⟩ := commits_when_free h hCtrl hLen
      (entry_at hFire hlt) hFree
    exact ⟨c, hc, hCommit _ c hc⟩

/-- `jalr x0, 2(x0)` at the reset address: in cycle 7 the exception entry for
address 2 enters execution, and it commits with successor 6. -/
theorem misaligned_fetch_never_traps_jalr :
    (coreAt .npc (Core.powerUp .npc) (promptInp 0x00200067#32) 7).idu.out.pc = 2 ∧
      ∃ c, (traceAt .npc (Core.powerUp .npc) (promptInp 0x00200067#32) 10).commits[1]? = some c ∧
        PassesThrough c
          (coreAt .npc (Core.powerUp .npc) (promptInp 0x00200067#32) 7).idu.out.pc := by
  have hLen :
      (traceAt .npc (Core.powerUp .npc) (promptInp 0x00200067#32) 7).entries.length = 1 := by
    decide +kernel
  obtain ⟨-, -, -, -, hCommits⟩ := misaligned_fetch_never_traps
    (Core.powerUp_afterReset .npc) (promptInp 0x00200067#32) 7
    (by decide +kernel) (by decide +kernel)
  have hFree := hCommits 8 (by decide) (by decide +kernel)
  rw [hLen] at hFree
  exact ⟨by decide +kernel, hFree⟩

/-- The same run falsifies the intended behaviour: an exception entry enters
execution in cycle 7, no trap is taken, and it retires with successor `pc + 4`. -/
theorem misaligned_jalr_retires :
    (coreAt .npc (Core.powerUp .npc) (promptInp 0x00200067#32) 7).exuInFire = true ∧
      (coreAt .npc (Core.powerUp .npc) (promptInp 0x00200067#32) 7).idu.out.exceptionValid = true ∧
      ¬ TakesTrap (coreAt .npc (Core.powerUp .npc) (promptInp 0x00200067#32) 7)
        (coreAt .npc (Core.powerUp .npc) (promptInp 0x00200067#32) 8) ∧
      ((traceAt .npc (Core.powerUp .npc) (promptInp 0x00200067#32) 10).commits.map
        fun c => (c.pc, c.npc)) = [(0x80000000#32, 2#32), (2#32, 6#32)] := by
  have hNo :
      (coreAt .npc (Core.powerUp .npc) (promptInp 0x00200067#32) 7).redirectFire = false := by
    decide +kernel
  refine ⟨by decide +kernel, by decide +kernel, fun hTrap => ?_, by decide +kernel⟩
  rw [hTrap.redirect] at hNo
  cases hNo

end Run

end Riscv32.Pipeline
