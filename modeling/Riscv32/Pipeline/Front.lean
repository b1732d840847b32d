import Mathlib.Data.List.Chain
import Riscv32.Pipeline.Fence

/-!
# The front half of the pipeline

Program order as the front half keeps it: every instruction enters the execute
unit at the successor address its predecessor computed and against the CSRs it
left, the decode register holds the next one, and the fetch unit tracks the
one after that.  Every word executed was returned by the fetch bus for its own
address, in order.

`FrontInv` is the invariant, with the next address to execute as its parameter;
together with `BackInv` it is `CoreInv`, from which every result about runs of
the core starts.

## Main results

* `frontInv_step` — one edge of the front half.
* `coreInv_at` — the pipeline invariant in every cycle after reset, under any
  behaviour of the two buses.
-/

namespace Riscv32.Pipeline

open Riscv32.Rtl
open Riscv32.Fetch
open Riscv32.Clocked

/-! ## Chains of entries -/

/-- What an instruction hands to the next one before write-back. -/
structure Front where
  pc : Word
  csr : Csr
deriving DecidableEq, Repr

def Entry.before (e : Entry) : Front := ⟨e.d.pc, archCsr e.csr⟩

def Entry.after (e : Entry) : Front := ⟨e.npc, archCsr e.csrNext⟩

/-- From `a`, the entries execute one after the other and leave `b`. -/
def Chained : Front → List Entry → Front → Prop
  | a, [], b => a = b
  | a, e :: l, b => a = e.before ∧ Chained e.after l b

theorem chained_append {a c : Front} {l l' : List Entry} :
    Chained a (l ++ l') c ↔ ∃ b, Chained a l b ∧ Chained b l' c := by
  induction l generalizing a with
  | nil => simp [Chained]
  | cons e l ih => simp [Chained, ih, and_assoc]

theorem chained_concat {a b : Front} {l : List Entry} {e : Entry}
    (h : Chained a l b) (he : b = e.before) : Chained a (l ++ [e]) e.after :=
  chained_append.mpr ⟨b, h, he, rfl⟩

/-- Entries of a chain follow one another. -/
theorem chained_consecutive {a b : Front} {l : List Entry} (h : Chained a l b) :
    (∀ e ∈ l.head?, e.d.pc = a.pc) ∧ l.IsChain fun e e' => e'.d.pc = e.npc := by
  induction l generalizing a with
  | nil => simp
  | cons e l ih =>
      obtain ⟨hBefore, hRest⟩ := h
      obtain ⟨hHead, hTail⟩ := ih hRest
      refine ⟨?_, List.isChain_cons.mpr ⟨fun e' he' => hHead e' he', hTail⟩⟩
      simp [hBefore, Entry.before]

/-! ## Fetched words -/

/-- The bus word behind a decoded instruction; exception entries have none. -/
def fetchPair (d : IduOut) : List (Word × Word) :=
  if misaligned d.pc then [] else [(d.pc, d.inst)]

/-- The bus word waiting in the decode register. -/
def iduPair (s : Idu) : List (Word × Word) := if s.outValid then fetchPair s.out else []

/-- The bus word waiting in the fetch unit's slot. -/
def slotPair (s : IfuSlot) : List (Word × Word) :=
  if s.ifuState == .valid && !s.outExceptionValid then [(s.outPc, s.outInst)] else []

/-! ## The invariant -/

/-- The address the fetch unit is to offer, when `pc` is the next to execute. -/
def fetchNext (s : Core) (pc : Word) : Word :=
  if s.idu.outValid then s.idu.out.pc + 4 else pc

/-- The next address to execute after this cycle. -/
def pcNext (s : Core) (pc : Word) : Word :=
  if s.exuInFire then s.idu.out.npc s.csr else pc

/-- A decoded instruction is an exception entry exactly at a misaligned
address, and then carries the zero word. -/
def ExceptionEntry (d : IduOut) : Prop :=
  d.exceptionValid = misaligned d.pc ∧ (misaligned d.pc = true → d.inst = 0)

structure FrontInv (arch : Arch) (csr₀ : Csr) (s : Core) (g : Trace) (f : Flight)
    (pc : Word) : Prop where
  chain : Chained ⟨resetPc arch, archCsr csr₀⟩ g.entries ⟨pc, archCsr s.csr⟩
  iduPc : s.idu.outValid = true → s.idu.out.pc = pc
  iduExc : s.idu.outValid = true → ExceptionEntry s.idu.out
  entryExc : ∀ e ∈ g.entries, ExceptionEntry e.d
  tracks : Tracks s.ifu (fetchNext s pc)
  fence : FencePhase s f
  fetchAddr : s.ifu.axiState = .waitR → g.fetchAddr = s.ifu.outstandingPc
  fetched : (g.entries.flatMap (fun e => fetchPair e.d) ++ iduPair s.idu ++
    slotPair s.ifu.toIfuSlot).Sublist g.fetched

section Step

variable {arch : Arch} {csr₀ : Csr} {s : Core} {g : Trace} {f f' : Flight} {pc : Word}
  {i : CoreIn}

private theorem archCsr_step_quiet (c : Csr) (d : IduOut) :
    archCsr (c.step (d.csrIn c false)) = archCsr c := by
  simp [archCsr, Csr.step, IduOut.csrIn]

private theorem chain_step (h : FrontInv arch csr₀ s g f pc) :
    Chained ⟨resetPc arch, archCsr csr₀⟩ (g.watch s i).entries
      ⟨pcNext s pc, archCsr (s.step arch i).csr⟩ := by
  have hCsr : (s.step arch i).csr = s.csr.step (s.idu.out.csrIn s.csr s.exuInFire) := rfl
  cases hFire : s.exuInFire with
  | true =>
      have hPc := h.iduPc (exuInFire_valid hFire)
      have hNext := chained_concat (e := ⟨s.idu.out, s.csr⟩) h.chain
        (by simp [Entry.before, hPc])
      simpa [Trace.watch, hFire, pcNext, Entry.after, Entry.npc, Entry.csrNext, hCsr]
        using hNext
  | false =>
      simpa [Trace.watch, hFire, pcNext, hCsr, archCsr_step_quiet] using h.chain

/-- The address in the slot is the one tracked. -/
private theorem slot_of_take (h : FrontInv arch csr₀ s g f pc) (hFire : s.iduInFire = true) :
    s.ifu.outPc = fetchNext s pc ∧
      s.ifu.outExceptionValid = misaligned (fetchNext s pc) ∧
      (misaligned (fetchNext s pc) = true → s.ifu.outInst = 0) := by
  obtain ⟨hValid, -⟩ := iduInFire_open hFire
  exact ⟨h.tracks.slot.validPc hValid, h.tracks.slot.validExc hValid,
    h.tracks.slot.validInst hValid⟩

/-- Without a redirect, the instruction that leaves decode continues at the
next address. -/
private theorem npc_of_no_redirect (hFire : s.exuInFire = true)
    (hRedirect : s.redirectFire = false) :
    s.idu.out.npc s.csr = s.idu.out.pc + 4 := by
  have hNo : s.idu.out.redirectValid = false := by
    cases hV : s.idu.out.redirectValid with
    | false => rfl
    | true =>
        have hIn : s.exu.inFire s.idu.outValid s.lsuReady = true := hFire
        simp [Core.redirectFire, Exu.redirectFire, hIn, hV] at hRedirect
  simp [IduOut.npc, hNo]

private theorem npc_of_redirect (h : s.redirectFire = true) :
    s.idu.out.npc s.csr = s.redirectPc := by
  simp [IduOut.npc, (redirectFire_enters h).2, Core.redirectPc]

/-- The address of the word decode takes is the next one to execute. -/
private theorem fetchNext_of_take (hFire : s.iduInFire = true) :
    fetchNext s pc = pcNext s pc := by
  obtain ⟨-, hRedirect, -, hLeave⟩ := iduInFire_open hFire
  unfold fetchNext pcNext
  cases hValid : s.idu.outValid with
  | true =>
      have hX := hLeave hValid
      simp [hX, npc_of_no_redirect hX hRedirect]
  | false => simp [exuInFire_false_of_invalid hValid]

/-- The fetch unit is to offer what `nextPc` says. -/
theorem fetchNext_step (h : FrontInv arch csr₀ s g f pc) :
    fetchNext (s.step arch i) (pcNext s pc) =
      nextPc s.ifu (s.ifuIn i) (fetchNext s pc) := by
  have hOut : s.ifu.outFire (s.ifuIn i) = s.iduInFire := rfl
  have hRed : (s.ifuIn i).inRedirectFire = s.redirectFire := rfl
  unfold nextPc
  rw [hOut, hRed]
  cases hRedirect : s.redirectFire with
  | true =>
      have hX := (redirectFire_enters hRedirect).1
      simp [fetchNext, iduValid_step, hRedirect, pcNext, hX, npc_of_redirect hRedirect,
        Core.ifuIn]
  | false =>
      cases hFire : s.iduInFire with
      | true =>
          have hPc := (slot_of_take h hFire).1
          have hIdu := iduOut_take arch i hRedirect hFire
          have hValid : (s.step arch i).idu.outValid = true := by
            simp [iduValid_step, hRedirect, hFire]
          simp [fetchNext, hValid, hIdu, hPc]
      | false =>
          have hIdu := iduOut_keep arch i hRedirect hFire
          cases hX : s.exuInFire with
          | true =>
              have hValid : (s.step arch i).idu.outValid = false := by
                simp [iduValid_step, hRedirect, hFire, hX]
              simp [fetchNext, hValid, exuInFire_valid hX, pcNext, hX,
                npc_of_no_redirect hX hRedirect]
          | false =>
              have hValid : (s.step arch i).idu.outValid = s.idu.outValid := by
                simp [iduValid_step, hRedirect, hFire, hX]
              simp [fetchNext, hValid, hIdu, pcNext, hX]

/-- A committing `fence.i` meets a closed decode unit and a fetch unit that is
not blocked: the address behind the `fence.i` is aligned. -/
theorem fence_meets_open_fetch (hBack : BackInv arch s g f)
    (h : FrontInv arch csr₀ s g f pc) (hDone : s.fenceiDone = true) :
    s.iduInFire = false ∧ misaligned (fetchNext s pc) = false := by
  obtain ⟨e, he, hFencei, -⟩ := (fenceiDone_eq hBack).mp hDone
  have hPhase := h.fence
  cases hPhase with
  | quiet _ _ _ hLsu _ => rw [hLsu e he] at hFencei; cases hFencei
  | decoded _ _ _ _ hLsu _ => rw [hLsu e he] at hFencei; cases hFencei
  | executed _ _ _ _ _ hLsu _ => rw [hLsu e he] at hFencei; cases hFencei
  | flushing _ _ _ hLsu => rw [hLsu] at he; cases he
  | flushed _ _ _ hLsu => rw [hLsu] at he; cases he
  | memory hPending hIdu hExu _ _ _ _ =>
      refine ⟨iduInFire_false_of_pending hPending, ?_⟩
      have hEntries : g.entries = f.done.map Prod.fst ++ [e] := by
        simp [hBack.entries, Flight.entries, he, hExu]
      have hMem : e ∈ g.entries := by simp [hEntries]
      have hWf := hBack.wf e hMem
      have hFlag : (decodeTaken e.d.inst).isFencei = true := by
        rw [← hWf.ctrl]; exact hFencei
      -- the `fence.i` itself is aligned: an exception entry carries the zero word
      have hAligned : misaligned e.d.pc = false := by
        cases hMis : misaligned e.d.pc with
        | false => rfl
        | true =>
            rw [(h.entryExc e hMem).2 hMis, decodeTaken_zero] at hFlag
            cases hFlag
      have hNpc : e.npc = e.d.pc + 4 := by
        have hCtrl := hWf.ctrl
        rw [decodeTaken_fencei hFlag] at hCtrl
        simp [Entry.npc, IduOut.npc, IduOut.redirectValid, hCtrl]
      have hChain := h.chain
      rw [hEntries] at hChain
      obtain ⟨b, -, hLast⟩ := chained_append.mp hChain
      have hPc : e.npc = pc := congrArg Front.pc hLast.2
      simp only [fetchNext, hIdu, Bool.false_eq_true, if_false]
      rw [← hPc, hNpc, misaligned_add_four, hAligned]

theorem tracks_front_step (hBack : BackInv arch s g f)
    (h : FrontInv arch csr₀ s g f pc) :
    Tracks (s.step arch i).ifu (fetchNext (s.step arch i) (pcNext s pc)) := by
  rw [fetchNext_step h]
  refine tracks_step h.tracks fun hDone => ?_
  obtain ⟨hClosed, hAligned⟩ := fence_meets_open_fetch hBack h hDone
  refine ⟨hClosed, fun hPending => ?_⟩
  rw [h.tracks.slot.pendingPc hPending] at hAligned
  cases hAligned

private theorem iduPc_step (h : FrontInv arch csr₀ s g f pc)
    (hValid : (s.step arch i).idu.outValid = true) :
    (s.step arch i).idu.out.pc = pcNext s pc ∧ ExceptionEntry (s.step arch i).idu.out := by
  cases hRedirect : s.redirectFire with
  | true => simp [iduValid_step, hRedirect] at hValid
  | false =>
      cases hFire : s.iduInFire with
      | true =>
          obtain ⟨hPc, hExc, hInst⟩ := slot_of_take h hFire
          rw [iduOut_take _ _ hRedirect hFire]
          refine ⟨hPc.trans (fetchNext_of_take hFire), ?_⟩
          simp only [ExceptionEntry, latch, hPc]
          exact ⟨hExc, hInst⟩
      | false =>
          rw [iduOut_keep _ _ hRedirect hFire]
          cases hX : s.exuInFire with
          | true => simp [iduValid_step, hRedirect, hFire, hX] at hValid
          | false =>
              have hOld : s.idu.outValid = true := by
                simpa [iduValid_step, hRedirect, hFire, hX] using hValid
              exact ⟨by simpa [pcNext, hX] using h.iduPc hOld, h.iduExc hOld⟩

private theorem entryExc_step (h : FrontInv arch csr₀ s g f pc) :
    ∀ e ∈ (g.watch s i).entries, ExceptionEntry e.d := by
  intro e he
  simp only [Trace.watch, List.mem_append] at he
  rcases he with he | he
  · exact h.entryExc e he
  · cases hFire : s.exuInFire with
    | false => simp [hFire] at he
    | true =>
        simp only [hFire, if_true, List.mem_singleton] at he
        subst he
        exact h.iduExc (exuInFire_valid hFire)

private theorem fetchAddr_step (h : FrontInv arch csr₀ s g f pc)
    (hWait : (s.step arch i).ifu.axiState = .waitR) :
    (g.watch s i).fetchAddr = (s.step arch i).ifu.outstandingPc := by
  have hMove := axiMove s.ifu (s.ifuIn i)
  change (s.ifu.axiBlock (s.ifuIn i)).axiState = .waitR at hWait
  change _ = (s.ifu.axiBlock (s.ifuIn i)).outstandingPc
  generalize s.ifu.axiBlock (s.ifuIn i) = ax at hMove hWait
  cases hMove with
  | start => cases hWait
  | rest => cases hWait
  | ask => cases hWait
  | answered => cases hWait
  | asked _ hFire =>
      have hAr : arFire s.ifuAxi i.ifu = true := hFire
      simp only [Trace.watch, hAr, if_true]
      rfl
  | await hOld _ =>
      have hAr : arFire s.ifuAxi i.ifu = false := by
        simp [arFire, Core.ifuAxi, Ifu.axi, hOld]
      simpa [Trace.watch, hAr] using h.fetchAddr hOld

/-! The bus words move with their instructions: from the slot to decode, from
decode to the entries, and only a redirect or a `fence.i` drops the slot's. -/

private theorem pairs_move (h : FrontInv arch csr₀ s g f pc) :
    (g.watch s i).entries.flatMap (fun e => fetchPair e.d) ++ iduPair (s.step arch i).idu =
      g.entries.flatMap (fun e => fetchPair e.d) ++ iduPair s.idu ++
        if s.iduInFire then slotPair s.ifu.toIfuSlot else [] := by
  cases hRedirect : s.redirectFire with
  | true =>
      have hX := (redirectFire_enters hRedirect).1
      have hNo : s.iduInFire = false := by
        cases hFire : s.iduInFire with
        | false => rfl
        | true => simp [(iduInFire_open hFire).2.1] at hRedirect
      simp [Trace.watch, hX, iduPair, iduValid_step, hRedirect, hNo, exuInFire_valid hX]
  | false =>
      cases hFire : s.iduInFire with
      | true =>
          obtain ⟨hPc, hExc, -⟩ := slot_of_take h hFire
          obtain ⟨hSlot, -, -, hLeave⟩ := iduInFire_open hFire
          have hNew : iduPair (s.step arch i).idu = slotPair s.ifu.toIfuSlot := by
            have hValid : (s.step arch i).idu.outValid = true := by
              simp [iduValid_step, hRedirect, hFire]
            have hIdu := iduOut_take arch i hRedirect hFire
            simp only [iduPair, hValid, if_true, hIdu, fetchPair, latch_pc, latch_inst,
              slotPair, hSlot, hExc, hPc]
            cases misaligned (fetchNext s pc) <;> rfl
          rw [hNew]
          cases hValid : s.idu.outValid with
          | true => simp [Trace.watch, hLeave hValid, iduPair, hValid]
          | false => simp [Trace.watch, exuInFire_false_of_invalid hValid, iduPair, hValid]
      | false =>
          have hIdu := iduOut_keep arch i hRedirect hFire
          cases hX : s.exuInFire with
          | true =>
              have hValid : (s.step arch i).idu.outValid = false := by
                simp [iduValid_step, hRedirect, hFire, hX]
              simp [Trace.watch, hX, iduPair, hValid, exuInFire_valid hX]
          | false =>
              have hValid : (s.step arch i).idu.outValid = s.idu.outValid := by
                simp [iduValid_step, hRedirect, hFire, hX]
              simp [Trace.watch, hX, iduPair, hValid, hIdu]

private theorem slotPair_move (h : FrontInv arch csr₀ s g f pc) :
    ((if s.iduInFire then slotPair s.ifu.toIfuSlot else []) ++
      slotPair (s.step arch i).ifu.toIfuSlot).Sublist
      (slotPair s.ifu.toIfuSlot ++
        if rFire s.ifuAxi i.ifu then [(g.fetchAddr, i.ifu.rdata)] else []) := by
  have hMove := slotMove s.ifu (s.ifuIn i)
  have hFireEq : s.ifu.outFire (s.ifuIn i) = s.iduInFire := rfl
  change List.Sublist (_ ++ slotPair (s.ifu.slotBlock (s.ifuIn i))) _
  generalize s.ifu.slotBlock (s.ifuIn i) = sl at hMove
  have hDrop : ∀ l : List (Word × Word), (if s.iduInFire then slotPair s.ifu.toIfuSlot
      else []).Sublist (slotPair s.ifu.toIfuSlot ++ l) := by
    intro l
    split
    · exact List.sublist_append_left _ _
    · exact List.nil_sublist _
  cases hMove with
  | redirect => simpa [slotPair] using hDrop _
  | fence => simpa [slotPair] using hDrop _
  | raise => simpa [slotPair] using hDrop _
  | handOver => simpa [slotPair] using hDrop _
  | keep _ _ hQuiet =>
      rw [← hFireEq, hQuiet]
      simp
  | accept _ _ hEmpty _ hFire _ _ =>
      have hR : rFire s.ifuAxi i.ifu = true := hFire
      have hNo : s.iduInFire = false := by
        rw [← hFireEq]
        simp [Ifu.outFire, Ifu.outValid, hEmpty]
      have hAddr := h.fetchAddr (rFire_waitR hFire)
      simp [slotPair, hNo, hR, hAddr, Core.ifuIn, hEmpty]

private theorem fetched_step (h : FrontInv arch csr₀ s g f pc) :
    ((g.watch s i).entries.flatMap (fun e => fetchPair e.d) ++ iduPair (s.step arch i).idu ++
      slotPair (s.step arch i).ifu.toIfuSlot).Sublist (g.watch s i).fetched := by
  rw [pairs_move h, List.append_assoc]
  refine (List.Sublist.append_left (slotPair_move h) _).trans ?_
  rw [← List.append_assoc]
  exact List.Sublist.append_right h.fetched _

/-- **The front half through one edge.** -/
theorem frontInv_step (hBack : BackInv arch s g f) (h : FrontInv arch csr₀ s g f pc)
    (hLsu : f'.lsu = lsuNext s f) (hExu : f'.exu = exuNext s f) :
    FrontInv arch csr₀ (s.step arch i) (g.watch s i) f' (pcNext s pc) where
  chain := chain_step h
  iduPc := fun hValid => (iduPc_step h hValid).1
  iduExc := fun hValid => (iduPc_step h hValid).2
  entryExc := entryExc_step h
  tracks := tracks_front_step hBack h
  fence := fencePhase_step hBack h.fence hLsu hExu
  fetchAddr := fetchAddr_step h
  fetched := fetched_step h

end Step

/-! ## Every cycle -/

/-- Both halves, with the flight and the next address they agree on. -/
def CoreInv (arch : Arch) (csr₀ : Csr) (s : Core) (g : Trace) : Prop :=
  ∃ f pc, BackInv arch s g f ∧ FrontInv arch csr₀ s g f pc

section Run

variable {arch : Arch} {s : Core} {inp : Nat → CoreIn}

theorem coreAt_succ (t : Nat) :
    coreAt arch s inp (t + 1) = (coreAt arch s inp t).step arch (inp t) := rfl

theorem traceAt_succ (t : Nat) :
    traceAt arch s inp (t + 1) =
      (traceAt arch s inp t).watch (coreAt arch s inp t) (inp t) := rfl

/-- Logs only grow. -/
theorem traceAt_grows (arch : Arch) (s : Core) (inp : Nat → CoreIn) {t u : Nat} (h : t ≤ u) :
    (traceAt arch s inp t).entries <+: (traceAt arch s inp u).entries ∧
      (traceAt arch s inp t).commits <+: (traceAt arch s inp u).commits := by
  induction u, h using Nat.le_induction with
  | base => exact ⟨List.prefix_refl _, List.prefix_refl _⟩
  | succ u _ ih =>
      rw [traceAt_succ]
      exact ⟨ih.1.trans (List.prefix_append _ _), ih.2.trans (List.prefix_append _ _)⟩

theorem backInv_reset (h : s.AfterReset arch) :
    BackInv arch s {} ⟨[], none, none, {}⟩ where
  entries := rfl
  commits := rfl
  phase := .empty h.lsuState h.lsuValid ⟨h.lsuAr, h.lsuAw, h.lsuW⟩
  log := rfl
  exuValid := h.exuValid
  exuOut := by intro e he; cases he
  wf := by intro e he; cases he
  iduWf := by simp [h.iduValid]

theorem frontInv_reset (h : s.AfterReset arch) :
    FrontInv arch s.csr s {} ⟨[], none, none, {}⟩ (resetPc arch) where
  chain := rfl
  iduPc := by simp [h.iduValid]
  iduExc := by simp [h.iduValid]
  entryExc := by intro e he; cases he
  tracks := by
    simp only [fetchNext, h.iduValid, h.ifu, Bool.false_eq_true, if_false]
    exact tracks_reset arch
  fence := by
    refine .quiet h.fencePending (by simp [h.iduValid]) ?_ ?_ ?_
    · intro e he; cases he
    · intro e he; cases he
    · rw [h.ifu]; exact ⟨rfl, rfl, rfl⟩
  fetchAddr := by rw [h.ifu]; intro hWait; cases hWait
  fetched := by simp [iduPair, h.iduValid, slotPair, h.ifu, Ifu.reset]

/-- **The pipeline invariant** holds in every cycle after reset. -/
theorem coreInv_at (h : s.AfterReset arch) (inp : Nat → CoreIn) (t : Nat) :
    CoreInv arch s.csr (coreAt arch s inp t) (traceAt arch s inp t) := by
  induction t with
  | zero => exact ⟨_, _, backInv_reset h, frontInv_reset h⟩
  | succ t ih =>
      obtain ⟨f, pc, hBack, hFront⟩ := ih
      obtain ⟨f', hBack', hLsu, hExu, -⟩ := backInv_step (i := inp t) hBack
      exact ⟨f', _, hBack', frontInv_step hBack hFront hLsu hExu⟩

end Run

end Riscv32.Pipeline
