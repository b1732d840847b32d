import Riscv32.Pipeline.Operands

/-!
# The pipeline refines sequential execution

The committed instructions, replayed on the one-instruction-at-a-time machine
with the words the bus delivered for them, retire exactly what the write-back
unit committed and read exactly the operands the pipeline used.

The abstract machine runs behind the pipeline, not beside it: it is fed for an
instruction when that commits (`feedsOf`), so no case needs a squashed or a
waiting instruction.  `SeqInv` joins the replay to the registers of the core, and
the operands still in flight to what the replay is about to leave.

## Main results

* `seqInv_step` — one edge of the refinement.
* `commits_refine_sequential` — in every run from reset, the commits so far are
  the outputs of the sequential machine on the words delivered for them.
-/

namespace Riscv32.Pipeline

open Riscv32.Rtl
open Riscv32.Clocked
open Riscv32.Fetch

/-! ## Replaying committed instructions -/

/-- What the sequential machine is fed for committed instructions. -/
def feedsOf (done : List (Entry × Word)) : List Feed := done.map fun p => p.1.feed p.2

/-- What the sequential machine shows for committed instructions. -/
def outsOf (done : List (Entry × Word)) : List SeqOut :=
  done.map fun p => ⟨p.1.retired p.2, p.1.operands⟩

def SeqState.front (s : SeqState) : Front := ⟨s.pc, archCsr s.csr⟩

/-- The sequential machine, fed for `done`, shows `done` and ends with the
registers `rf`. -/
structure Replay (start : SeqState) (done : List (Entry × Word)) (rf : RegFile) : Prop where
  outs : feedOuts clockedStep start (feedsOf done) = outsOf done
  rf : (feedState clockedStep start (feedsOf done)).rf = rf
  front : Chained start.front (done.map Prod.fst)
    (feedState clockedStep start (feedsOf done)).front

theorem chained_unique {a b b' : Front} {l : List Entry} (h : Chained a l b)
    (h' : Chained a l b') : b = b' := by
  induction l generalizing a with
  | nil => exact h.symm.trans h'
  | cons e l ih => exact ih h.2 h'.2

/-- One more instruction: its predecessor's address and CSRs, current operands. -/
theorem Replay.concat {start : SeqState} {done : List (Entry × Word)} {rf : RegFile}
    {e : Entry} {b : Front} (h : Replay start done rf) (hWf : e.WellFormed)
    (hChain : Chained start.front (done.map Prod.fst ++ [e]) b)
    (h1 : usesRs1 e.d.inst = true → e.d.src1Data = rf.read (rs1Idx e.d.inst))
    (h2 : usesRs2 e.d.inst = true → e.d.src2Data = rf.read (rs2Idx e.d.inst))
    (data : Word) : Replay start (done ++ [(e, data)]) (retire rf (e.retired data)) := by
  obtain ⟨outs, hRf, front⟩ := h
  generalize hState : feedState clockedStep start (feedsOf done) = q at hRf front
  obtain ⟨c, hc, hLast⟩ := chained_append.mp hChain
  obtain rfl := chained_unique hc front
  have hPair : q.pc = e.d.pc ∧ archCsr q.csr = archCsr e.csr := by
    simpa [SeqState.front, Entry.before] using hLast.1
  have hStep := clockedStep_of_matches hWf
    ⟨hPair.1, hPair.2, hRf ▸ h1, hRf ▸ h2⟩ data
  have hFeeds : feedsOf (done ++ [(e, data)]) = feedsOf done ++ [e.feed data] := by
    simp [feedsOf]
  constructor
  · rw [hFeeds, feedOuts_concat, outs, hState, hStep]
    simp [outsOf, SeqState.exec]
  · rw [hFeeds, feedState_concat, hState, hStep]
    simp [SeqState.exec, hRf]
  · rw [hFeeds, feedState_concat, hState, hStep, List.map_append]
    exact chained_append.mpr ⟨_, front, hLast.1, rfl⟩

/-! ## The invariant -/

/-- The replay reaches the core's registers, and every operand latched in the
pipeline is what the older instructions leave. -/
structure SeqInv (start : SeqState) (s : Core) (f : Flight) : Prop where
  replay : Replay start f.done s.rf
  operands : AllOk s.rf (window s f)

section Step

variable {arch : Arch} {start : SeqState} {s : Core} {g : Trace} {f f' : Flight}
  {pc : Word} {i : CoreIn}

private theorem rf_step_commit {e : Entry} {data : Word} (hFire : s.commitFire = true)
    (hRet : retiredOf s.commit = e.retired data) :
    (s.step arch i).rf = retire s.rf (e.retired data) := by
  rw [← hRet]
  simp only [Core.step, RegFile.step, hFire, Bool.true_and, retire, retiredOf]
  cases s.commit.wen <;> rfl

private theorem rf_step_quiet (hFire : s.commitFire = false) : (s.step arch i).rf = s.rf := by
  simp [Core.step, RegFile.step, hFire]

/-- **One edge of the refinement.** -/
theorem seqInv_step (hBack : BackInv arch s g f)
    (hFront : FrontInv arch start.csr s g f pc) (hPc : start.pc = resetPc arch)
    (h : SeqInv start s f) (hRegs : ∀ e ∈ g.entries, RegsBelow16 e.d.inst)
    (hLsu : f'.lsu = lsuNext s f) (hExu : f'.exu = exuNext s f)
    (hMove : (s.commitFire = false ∧ f'.done = f.done) ∨
        ∃ e data, s.commitFire = true ∧ f.lsu = some e ∧
          f'.done = f.done ++ [(e, data)] ∧ retiredOf s.commit = e.retired data) :
    SeqInv start (s.step arch i) f' := by
  have hWindow := window_step (i := i) hBack hLsu hExu
  have hAll : AllOk s.rf (window s f ++ if s.iduInFire then [taken s] else []) := by
    cases hFire : s.iduInFire with
    | false => simpa using h.operands
    | true => exact h.operands.concat (operandsOk_of_take hBack hFire)
  obtain ⟨hQuiet, hDone⟩ | ⟨e, data, hFire, hE, hDone, hRet⟩ := hMove
  · constructor
    · rw [hDone, rf_step_quiet hQuiet]
      exact h.replay
    · rw [hWindow, rf_step_quiet hQuiet, hQuiet]
      exact hAll
  · have hMem : e ∈ g.entries := by simp [hBack.entries, Flight.entries, hE]
    have hWf := hBack.wf e hMem
    have hReg := hRegs e hMem
    have hHead : window s f = e.d :: (window s f).tail := by simp [window, hE]
    have hOk : OperandsOk s.rf [] e.d := h.operands [] e.d (window s f).tail hHead
    -- the chain up to the committing instruction is a part of the whole chain
    have hChain : ∃ b, Chained start.front (f.done.map Prod.fst ++ [e]) b := by
      have hWhole := hFront.chain
      rw [hBack.entries, Flight.entries, hE, ← hPc] at hWhole
      obtain ⟨b, hPrefix, -⟩ := chained_append.mp hWhole
      exact ⟨b, hPrefix⟩
    obtain ⟨b, hChain⟩ := hChain
    constructor
    · rw [hDone, rf_step_commit hFire hRet]
      exact h.replay.concat hWf hChain (fun hUse => (hOk.src1 hUse (hReg.rs1 hUse)).value)
        (fun hUse => (hOk.src2 hUse (hReg.rs2 hUse)).value) data
    · rw [hWindow, rf_step_commit hFire hRet, hFire, if_pos rfl]
      rw [hHead, List.cons_append] at hAll
      refine hAll.retire fun hWe => ?_
      rw [hWf.rd]
      exact hReg.rd (by rw [← hWf.ctrl]; exact hWe)

end Step

/-! ## What the bus delivered -/

/-- The fetch words, load data and counter values fed to the sequential
machine are those the committed instructions received. -/
structure Delivered (g : Trace) (feeds : List Feed) : Prop where
  words : feeds.map Feed.word = g.commits.map Commit.inst
  /-- In order, each committed word is an R beat for its own address. -/
  fetched : (g.commits.flatMap fun c =>
    if misaligned c.pc then [] else [(c.pc, c.inst)]).Sublist g.fetched
  /-- A misaligned address is not fetched; it carries the zero word. -/
  exception : ∀ c ∈ g.commits, misaligned c.pc = true → c.inst = 0
  /-- In order, the loads received the R beats of the load/store port. -/
  loads : (feeds.flatMap fun f =>
    if (decodeTaken f.word).isLoad then [f.load] else []) <+: g.lsu.r
  /-- The counter as it stood when each instruction entered execution. -/
  counter : (feeds.map fun f => (f.mcycle, f.mcycleh)) =
    (g.entries.take feeds.length).map fun e => (e.csr.mcycle, e.csr.mcycleh)

/-- The observed run up to now is a run of the sequential machine on `feeds`. -/
structure Refines (start : SeqState) (g : Trace) (feeds : List Feed) : Prop where
  delivered : Delivered g feeds
  commits : g.commits.map retiredOf =
    (feedOuts clockedStep start feeds).map SeqOut.retired
  operands : (g.entries.take feeds.length).map Entry.operands =
    (feedOuts clockedStep start feeds).map SeqOut.operands
  /-- Unless the program reads the counter, the machine needs no clock. -/
  unclocked : (∀ f ∈ feeds, ¬ ReadsCounter f.word) →
    feedOuts clockedStep start feeds = feedOuts seqStep start feeds
  first : ∀ c ∈ g.commits.head?, c.pc = start.pc
  consecutive : g.commits.IsChain fun c c' => c'.pc = c.npc

section Delivered

variable {arch : Arch} {start : SeqState} {s : Core} {g : Trace} {f : Flight} {pc : Word}

private theorem transactions_r (done : List (Entry × Word)) :
    (transactions done).r = done.flatMap fun p => if p.1.d.isLoad then [p.2] else [] := by
  induction done with
  | nil => rfl
  | cons p done ih =>
      simp only [transactions, PortLog.append_def, List.flatMap_cons, ih]
      congr 1
      unfold Entry.transaction
      cases p.1.d.isLoad <;> cases p.1.d.isStore <;> rfl

/-- A list function of the retired part of the commits is one of the entries. -/
private theorem commits_flatMap {α : Type} (hBack : BackInv arch s g f) (k : Retired → List α) :
    (g.commits.flatMap fun c => k (retiredOf c)) =
      f.done.flatMap fun p => k (p.1.retired p.2) := by
  have h := congrArg (List.flatMap k) hBack.commits
  rwa [List.flatMap_map, List.flatMap_map] at h

private theorem delivered (hBack : BackInv arch s g f) (hFront : FrontInv arch start.csr s g f pc) :
    Delivered g (feedsOf f.done) where
  words := by
    have h := congrArg (List.map Retired.inst) hBack.commits
    simp only [List.map_map, Function.comp_def] at h
    rw [feedsOf, List.map_map]
    exact h.symm
  fetched := by
    have hEq := commits_flatMap hBack fun r =>
      if misaligned r.pc then [] else [(r.pc, r.inst)]
    refine List.Sublist.trans ?_ hFront.fetched
    rw [show (g.commits.flatMap fun c => if misaligned c.pc then [] else [(c.pc, c.inst)]) = _
      from hEq, hBack.entries, Flight.entries]
    simp only [List.flatMap_append, List.flatMap_map, List.append_assoc]
    exact List.sublist_append_left _ _
  exception := by
    intro c hc hMis
    have hMem : retiredOf c ∈ f.done.map fun p => p.1.retired p.2 := by
      rw [← hBack.commits]
      exact List.mem_map_of_mem hc
    obtain ⟨p, hp, hEq⟩ := List.mem_map.mp hMem
    have hEntry := hBack.mem_entries hp
    have hPc : p.1.d.pc = c.pc := congrArg Retired.pc hEq
    have hInst : p.1.d.inst = c.inst := congrArg Retired.inst hEq
    rw [← hInst]
    exact (hFront.entryExc p.1 hEntry).2 (hPc ▸ hMis)
  loads := by
    have hWf : ∀ p ∈ f.done, (decodeTaken p.1.d.inst).isLoad = p.1.d.isLoad := by
      intro p hp
      rw [← (hBack.wf p.1 (hBack.mem_entries hp)).ctrl]
    rw [hBack.log, PortLog.append_def, transactions_r, feedsOf, List.flatMap_map]
    refine ⟨f.log.r, congrArg (· ++ f.log.r) ?_⟩
    refine List.flatMap_congr fun p hp => ?_
    simp only [Entry.feed, hWf p hp]
  counter := by
    rw [hBack.entries, Flight.entries, List.append_assoc]
    simp [feedsOf, Entry.feed]

/-- The replay of the committed instructions is what the run refines. -/
theorem refines_of_inv (hBack : BackInv arch s g f) (hFront : FrontInv arch start.csr s g f pc)
    (hSeq : SeqInv start s f) : Refines start g (feedsOf f.done) where
  delivered := delivered hBack hFront
  commits := by
    rw [hSeq.replay.outs, hBack.commits, outsOf, List.map_map]
    rfl
  operands := by
    rw [hSeq.replay.outs, hBack.entries, Flight.entries, List.append_assoc]
    simp [feedsOf, outsOf]
  unclocked := fun hNo => feedOuts_counter ⟨rfl, rfl, rfl⟩ hNo
  first := by
    have hHead := (chained_consecutive hSeq.replay.front).1
    have hCommits := congrArg List.head? hBack.commits
    intro c hc
    cases hDone : f.done with
    | nil => simp [hDone] at hCommits; simp [hCommits] at hc
    | cons p rest =>
        simp only [List.head?_map, hDone, List.head?_cons, Option.map_some] at hCommits hHead
        rw [Option.mem_def] at hc
        rw [hc, Option.map_some, Option.some.injEq] at hCommits
        have hPc : c.pc = p.1.d.pc := congrArg Retired.pc hCommits
        rw [hPc]
        exact hHead p.1 (by simp)
  consecutive := by
    have hChain := (chained_consecutive hSeq.replay.front).2
    rw [List.isChain_map] at hChain
    have hRetired : (g.commits.map retiredOf).IsChain fun r r' => r'.pc = r.npc := by
      rw [hBack.commits, List.isChain_map]
      exact hChain
    rwa [List.isChain_map] at hRetired

end Delivered

/-! ## Every run -/

section Run

variable {arch : Arch} {s : Core} {inp : Nat → CoreIn}

/-- All invariants together, for runs that name only sixteen registers. -/
theorem seqInv_at (h : s.AfterReset arch) (t : Nat)
    (hRegs : ∀ e ∈ (traceAt arch s inp t).entries, RegsBelow16 e.d.inst) :
    ∃ f pc, BackInv arch (coreAt arch s inp t) (traceAt arch s inp t) f ∧
      FrontInv arch s.csr (coreAt arch s inp t) (traceAt arch s inp t) f pc ∧
      SeqInv ⟨resetPc arch, s.rf, s.csr⟩ (coreAt arch s inp t) f := by
  induction t with
  | zero =>
      refine ⟨_, _, backInv_reset h, frontInv_reset h, ⟨⟨rfl, rfl, rfl⟩, ?_⟩⟩
      intro older d younger hEq
      simp [window, coreAt, h.iduValid] at hEq
  | succ t ih =>
      have hRegs' : ∀ e ∈ (traceAt arch s inp t).entries, RegsBelow16 e.d.inst := fun e he =>
        hRegs e ((traceAt_grows arch s inp (Nat.le_succ t)).1.subset he)
      obtain ⟨f, pc, hBack, hFront, hSeq⟩ := ih hRegs'
      obtain ⟨f', hBack', hLsu, hExu, hMove⟩ := backInv_step (i := inp t) hBack
      exact ⟨f', _, hBack', frontInv_step hBack hFront hLsu hExu,
        seqInv_step hBack hFront rfl hSeq hRegs' hLsu hExu hMove⟩

/-- **The pipeline refines sequential execution.**  In every run from reset,
under any behaviour of the two buses, the commits so far are the outputs of
the one-instruction-at-a-time machine on the words delivered for them. -/
theorem commits_refine_sequential (h : s.AfterReset arch) (t : Nat)
    (hRegs : ∀ e ∈ (traceAt arch s inp t).entries, RegsBelow16 e.d.inst) :
    ∃ feeds, Refines ⟨resetPc arch, s.rf, s.csr⟩ (traceAt arch s inp t) feeds := by
  obtain ⟨f, pc, hBack, hFront, hSeq⟩ := seqInv_at h t hRegs
  exact ⟨feedsOf f.done, refines_of_inv hBack hFront hSeq⟩

/-- A run of `addi x1, x1, 1`: each reads what the one before it is still about
to write; after sixteen cycles three have committed. -/
theorem commits_refine_sequential_counting :
    ((traceAt .npc (Core.powerUp .npc) (promptInp 0x00108093#32) 16).commits.map Commit.wdata) =
        [1#32, 2#32, 3#32] ∧
      ∃ feeds, Refines ⟨resetPc .npc, (Core.powerUp .npc).rf, (Core.powerUp .npc).csr⟩
        (traceAt .npc (Core.powerUp .npc) (promptInp 0x00108093#32) 16) feeds :=
  ⟨by decide +kernel, commits_refine_sequential (Core.powerUp_afterReset .npc) 16
    (by decide +kernel)⟩

end Run

end Riscv32.Pipeline
