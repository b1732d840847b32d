import Riscv32.Fetch.Tracks
import Riscv32.Pipeline.Memory

/-!
# Traces of the core and the instructions in flight

`Trace` is what an observer of the two AXI ports, of the execute unit's input
and of the commit port writes down.  `Flight` accounts for it: which entries
have committed and with which load data, which one the load/store unit holds
and which one waits behind the execute unit.

`BackInv` ties the registers of the back half to a flight and its logs.  A flight
is determined by the history and not by the registers alone, so that data words
of loads that have committed are still known.

## Main results

* `backInv_step` — the back half through one edge: a commit moves the instruction
  in the load/store unit to the committed ones, with exactly its transaction on
  the port, and otherwise the committed ones stay as they are.
-/

namespace Riscv32.Pipeline

open Riscv32.Rtl
open Riscv32.Clocked
open Riscv32.Fetch

/-- The observations of a run, oldest first. -/
structure Trace where
  /-- Address of the last AR handshake on the fetch port. -/
  fetchAddr : Word := 0
  /-- R handshakes on the fetch port: address and word. -/
  fetched : List (Word × Word) := []
  /-- Instructions taken by the execute unit (`exu_in_fire`). -/
  entries : List Entry := []
  commits : List Commit := []
  /-- Handshakes on the load/store port. -/
  lsu : PortLog := {}
  /-- Cycles in which the CSR file is written. -/
  csrWrites : List Csr.In := []

def Trace.watch (g : Trace) (s : Core) (i : CoreIn) : Trace where
  fetchAddr := if arFire s.ifuAxi i.ifu then s.ifuAxi.araddr else g.fetchAddr
  fetched := g.fetched ++ if rFire s.ifuAxi i.ifu then [(g.fetchAddr, i.ifu.rdata)] else []
  entries := g.entries ++ if s.exuInFire then [⟨s.idu.out, s.csr⟩] else []
  commits := g.commits ++ if s.commitFire then [s.commit] else []
  lsu := g.lsu ++ PortLog.events s.lsuAxi i.lsu
  csrWrites := g.csrWrites ++ if s.csrIn.csrWen || s.csrIn.isEcall then [s.csrIn] else []

/-- The core in cycle `t`. -/
def coreAt (arch : Arch) (s : Core) (inp : Nat → CoreIn) (t : Nat) : Core :=
  run (Core.step arch) s inp t

/-- What has been observed before cycle `t`. -/
def traceAt (arch : Arch) (s : Core) (inp : Nat → CoreIn) (t : Nat) : Trace :=
  observe (Core.step arch) Trace.watch {} s inp t

/-- Buses that answer every request at once; every fetch returns `word`. -/
def promptInp (word : Word) (_ : Nat) : CoreIn where
  ifu := { arready := true, rvalid := true, rdata := word }
  lsu := { arready := true, rvalid := true, awready := true, wready := true, bvalid := true }

/-! ## Instructions in flight -/

/-- The bus transactions of committed instructions. -/
def transactions : List (Entry × Word) → PortLog
  | [] => {}
  | p :: l => p.1.transaction p.2 ++ transactions l

theorem transactions_concat (l : List (Entry × Word)) (p : Entry × Word) :
    transactions (l ++ [p]) = transactions l ++ p.1.transaction p.2 := by
  induction l with
  | nil => simp [transactions]
  | cons q l ih => simp only [List.cons_append, transactions, ih, PortLog.append_assoc]

structure Flight where
  /-- Committed entries, each with the word the bus returned to it. -/
  done : List (Entry × Word)
  lsu : Option Entry
  exu : Option Entry
  /-- Handshakes made so far for the instruction in the load/store unit. -/
  log : PortLog

/-- All entries in program order. -/
def Flight.entries (f : Flight) : List Entry :=
  f.done.map Prod.fst ++ f.lsu.toList ++ f.exu.toList

/-- The instruction the load/store unit holds in the next cycle. -/
def lsuNext (s : Core) (f : Flight) : Option Entry :=
  match f.lsu with
  | none => f.exu
  | some e => if s.lsu.outValid then none else some e

/-- The instruction behind the execute unit in the next cycle. -/
def exuNext (s : Core) (f : Flight) : Option Entry :=
  if s.exuInFire then some ⟨s.idu.out, s.csr⟩
  else match f.lsu with
    | none => none
    | some _ => f.exu

/-- The back half of the pipeline holds `f`. -/
structure BackInv (arch : Arch) (s : Core) (g : Trace) (f : Flight) : Prop where
  entries : g.entries = f.entries
  commits : g.commits.map retiredOf = f.done.map fun p => p.1.retired p.2
  phase : LsuPhase arch s.lsu f.lsu f.log
  log : g.lsu = transactions f.done ++ f.log
  exuValid : s.exu.outValid = f.exu.isSome
  exuOut : ∀ e, f.exu = some e → s.exu.out = e.d.execute e.csr
  wf : ∀ e ∈ g.entries, e.WellFormed
  iduWf : s.idu.outValid = true → Entry.WellFormed ⟨s.idu.out, s.csr⟩

section Back

variable {arch : Arch} {s : Core} {g : Trace} {f : Flight} {i : CoreIn}

theorem BackInv.mem_entries (h : BackInv arch s g f) {p : Entry × Word} (hp : p ∈ f.done) :
    p.1 ∈ g.entries := by
  rw [h.entries, Flight.entries]
  simp only [List.mem_append]
  exact .inl (.inl (List.mem_map_of_mem hp))

theorem BackInv.lsuReady (h : BackInv arch s g f) : s.lsuReady = f.lsu.isNone := by
  have hPhase := h.phase
  cases hLsu : f.lsu with
  | none => rw [hLsu] at hPhase; exact lsuPhase_none_ready hPhase
  | some e => rw [hLsu] at hPhase; exact lsuPhase_some_not_ready hPhase

theorem BackInv.exuInFire (h : BackInv arch s g f) :
    s.exuInFire = (s.idu.outValid && (f.exu.isNone || f.lsu.isNone)) := by
  unfold Core.exuInFire Exu.inFire Exu.outReady
  rw [h.lsuReady, h.exuValid]
  cases f.exu <;> rfl

theorem BackInv.commitFire_some (h : BackInv arch s g f) (hFire : s.commitFire = true) :
    ∃ e, f.lsu = some e := by
  cases hLsu : f.lsu with
  | some e => exact ⟨e, rfl⟩
  | none =>
      have hPhase := h.phase
      rw [hLsu] at hPhase
      have hInvalid := lsuPhase_none_invalid hPhase
      rw [Core.commitFire, hInvalid] at hFire
      cases hFire

/-! ### One edge -/

private theorem exuValid_step (h : BackInv arch s g f) :
    (s.step arch i).exu.outValid = (exuNext s f).isSome := by
  have hReady := h.lsuReady
  have hValid := h.exuValid
  unfold exuNext
  cases hFire : s.exuInFire with
  | true =>
      have hIn : s.exu.inFire s.idu.outValid s.lsuReady = true := hFire
      simp [Core.step, Exu.step, hIn]
  | false =>
      have hIn : s.exu.inFire s.idu.outValid s.lsuReady = false := hFire
      rw [hReady] at hIn
      simp only [Core.step, Exu.step, Exu.outFire, hReady, hIn, hValid]
      cases f.lsu <;> cases f.exu <;> rfl

private theorem exuOut_step (h : BackInv arch s g f) (e : Entry)
    (he : exuNext s f = some e) : (s.step arch i).exu.out = e.d.execute e.csr := by
  unfold exuNext at he
  cases hFire : s.exuInFire with
  | true =>
      have hIn : s.exu.inFire s.idu.outValid s.lsuReady = true := hFire
      simp only [hFire, if_true, Option.some.injEq] at he
      subst he
      simp [Core.step, Exu.step, hIn]
  | false =>
      have hIn : s.exu.inFire s.idu.outValid s.lsuReady = false := hFire
      cases hLsu : f.lsu with
      | none => simp [hFire, hLsu] at he
      | some e' =>
          simp only [hFire, hLsu, Bool.false_eq_true, if_false] at he
          simpa [Core.step, Exu.step, hIn] using h.exuOut e he

/-- Entering instructions join the entries behind those already there. -/
private theorem entries_step (h : BackInv arch s g f) {f' : Flight}
    (hLsu : f'.lsu = lsuNext s f) (hExu : f'.exu = exuNext s f)
    (hDone : f'.done.map Prod.fst = f.done.map Prod.fst ++
      if s.commitFire then f.lsu.toList else []) :
    (g.watch s i).entries = f'.entries := by
  have hEnter := h.exuInFire
  have hCommit := h.commitFire_some
  simp only [Trace.watch, Flight.entries, h.entries, hLsu, hExu, hDone, lsuNext, exuNext]
  cases hL : f.lsu with
  | none =>
      have hNo : s.commitFire = false := by
        cases hFire : s.commitFire with
        | false => rfl
        | true => obtain ⟨e, he⟩ := hCommit hFire; simp [hL] at he
      cases hFire : s.exuInFire <;> cases hX : f.exu <;> simp [hNo]
  | some e =>
      cases hFire : s.exuInFire with
      | true =>
          rw [hFire, hL] at hEnter
          have hX : f.exu = none := by
            cases hX : f.exu with
            | none => rfl
            | some e' => simp [hX] at hEnter
          cases hV : s.lsu.outValid <;> simp [Core.commitFire, hV, hX]
      | false =>
          cases hV : s.lsu.outValid <;> simp [Core.commitFire, hV]

private theorem wf_step (h : BackInv arch s g f) :
    ∀ e ∈ (g.watch s i).entries, e.WellFormed := by
  intro e he
  simp only [Trace.watch, List.mem_append] at he
  rcases he with he | he
  · exact h.wf e he
  · cases hFire : s.exuInFire with
    | false => simp [hFire] at he
    | true =>
        simp only [hFire, if_true, List.mem_singleton] at he
        subst he
        refine h.iduWf ?_
        have hIn := h.exuInFire
        rw [hFire] at hIn
        simpa using (Bool.and_eq_true_iff.mp hIn.symm).1

private theorem iduWf_step (h : BackInv arch s g f)
    (hValid : (s.step arch i).idu.outValid = true) :
    Entry.WellFormed ⟨(s.step arch i).idu.out, (s.step arch i).csr⟩ := by
  simp only [Entry.WellFormed]
  cases hFlush : s.redirectFire with
  | true =>
      have h1 : s.iduIn.inFlush = true := hFlush
      simp [Core.step, Idu.step, h1] at hValid
  | false =>
      have h1 : s.iduIn.inFlush = false := hFlush
      cases hFire : s.idu.inFire s.iduIn with
      | true =>
          rw [show (s.step arch i).idu.out = _ from
            Idu.step_out_of_inFire s.idu s.iduIn h1 hFire]
          rfl
      | false =>
          have hOut : (s.step arch i).idu.out = s.idu.out := by
            simp [Core.step, Idu.step, h1, hFire]
          have hOld : s.idu.outValid = true := by
            simp only [Core.step, Idu.step, h1, hFire, Bool.false_eq_true, if_false] at hValid
            split at hValid
            · cases hValid
            · exact hValid
          rw [hOut]
          exact h.iduWf hOld

/-- The rest follows from where the load/store unit's instruction goes. -/
private theorem backInv_moved (h : BackInv arch s g f) (f' : Flight) (hLsu : f'.lsu = lsuNext s f)
    (hExu : f'.exu = exuNext s f)
    (hDone : f'.done.map Prod.fst = f.done.map Prod.fst ++
      (if s.commitFire then f.lsu.toList else []))
    (hCommits : (g.watch s i).commits.map retiredOf = f'.done.map fun p => p.1.retired p.2)
    (hNext : LsuPhase arch (s.step arch i).lsu f'.lsu f'.log)
    (hLog : (g.watch s i).lsu = transactions f'.done ++ f'.log) :
    BackInv arch (s.step arch i) (g.watch s i) f' where
  entries := entries_step h hLsu hExu hDone
  commits := hCommits
  phase := hNext
  log := hLog
  exuValid := by rw [hExu]; exact exuValid_step h
  exuOut := by rw [hExu]; exact exuOut_step h
  wf := wf_step h
  iduWf := iduWf_step h

/-- An empty load/store unit takes what the execution unit offers. -/
private theorem backInv_idle (h : BackInv arch s g f) (hL : f.lsu = none) :
    s.commitFire = false ∧
      BackInv arch (s.step arch i) (g.watch s i) ⟨f.done, lsuNext s f, exuNext s f, {}⟩ := by
  have hPhase := h.phase
  rw [hL] at hPhase
  have hNo : s.commitFire = false := lsuPhase_none_invalid hPhase
  have hQuiet : PortLog.events s.lsuAxi i.lsu = {} := events_quiet hPhase (.inl rfl) i.lsu
  refine ⟨hNo, backInv_moved h _ rfl rfl ?_ ?_ ?_ ?_⟩
  · simp [hNo]
  · simpa [Trace.watch, hNo] using h.commits
  · simp only [lsuNext, hL]
    cases hX : f.exu with
    | none =>
        refine lsuPhase_idle hPhase ?_
        simp [Core.lsuIn, h.exuValid, hX]
    | some e =>
        have hMem : e ∈ g.entries := by simp [h.entries, Flight.entries, hX]
        refine lsuPhase_take hPhase ?_ ?_ (h.wf e hMem)
        · simp [Core.lsuIn, h.exuValid, hX]
        · simp [Core.lsuIn, h.exuOut e hX]
  · have hEmpty : f.log = {} := lsuPhase_none_log hPhase
    simp [Trace.watch, hQuiet, h.log, hEmpty]

/-- A finished instruction commits with exactly its transaction on the port. -/
private theorem backInv_commit (h : BackInv arch s g f) {e : Entry} (hL : f.lsu = some e)
    (hV : s.lsu.outValid = true) :
    ∃ data, retiredOf s.commit = e.retired data ∧
      BackInv arch (s.step arch i) (g.watch s i)
        ⟨f.done ++ [(e, data)], lsuNext s f, exuNext s f, {}⟩ := by
  have hPhase := h.phase
  rw [hL] at hPhase
  have hWf : e.WellFormed := h.wf e (by simp [h.entries, Flight.entries, hL])
  obtain ⟨data, hTrans, hRet⟩ := lsuPhase_finished hPhase hV hWf
  have hYes : s.commitFire = true := hV
  have hQuiet : PortLog.events s.lsuAxi i.lsu = {} := events_quiet hPhase (.inr hV) i.lsu
  refine ⟨data, hRet, backInv_moved h _ rfl rfl ?_ ?_ ?_ ?_⟩
  · simp [hYes, hL]
  · simp [Trace.watch, hYes, h.commits, Core.commit, hRet]
  · simp only [lsuNext, hL, hV, if_true]
    exact lsuPhase_leave hPhase hV rfl
  · simp [Trace.watch, hQuiet, h.log, hTrans, transactions_concat]

/-- An instruction under way keeps its place and adds to its log. -/
private theorem backInv_work (h : BackInv arch s g f) {e : Entry} (hL : f.lsu = some e)
    (hV : s.lsu.outValid = false) :
    BackInv arch (s.step arch i) (g.watch s i)
      ⟨f.done, lsuNext s f, exuNext s f, f.log ++ PortLog.events s.lsu.axi i.lsu⟩ := by
  have hPhase := h.phase
  rw [hL] at hPhase
  have hNo : s.commitFire = false := hV
  refine backInv_moved h _ rfl rfl ?_ ?_ ?_ ?_
  · simp [hNo]
  · simpa [Trace.watch, hNo] using h.commits
  · simp only [lsuNext, hL, hV, Bool.false_eq_true, if_false]
    exact lsuPhase_work hPhase hV
  · simp [Trace.watch, h.log, PortLog.append_assoc, Core.lsuAxi]

/-- **The back half through one edge.**  A commit moves the instruction the
load/store unit holds to the committed ones, with exactly its transaction on
the port; otherwise the committed instructions stay as they are. -/
theorem backInv_step (h : BackInv arch s g f) :
    ∃ f', BackInv arch (s.step arch i) (g.watch s i) f' ∧
      f'.lsu = lsuNext s f ∧ f'.exu = exuNext s f ∧
      ((s.commitFire = false ∧ f'.done = f.done) ∨
        ∃ e data, s.commitFire = true ∧ f.lsu = some e ∧
          f'.done = f.done ++ [(e, data)] ∧ retiredOf s.commit = e.retired data) := by
  cases hL : f.lsu with
  | none =>
      obtain ⟨hNo, hNext⟩ := backInv_idle (i := i) h hL
      exact ⟨_, hNext, rfl, rfl, .inl ⟨hNo, rfl⟩⟩
  | some e =>
      cases hV : s.lsu.outValid with
      | true =>
          obtain ⟨data, hRet, hNext⟩ := backInv_commit (i := i) h hL hV
          exact ⟨_, hNext, rfl, rfl, .inr ⟨e, data, hV, rfl, rfl, hRet⟩⟩
      | false => exact ⟨_, backInv_work h hL hV, rfl, rfl, .inl ⟨hV, rfl⟩⟩

end Back

end Riscv32.Pipeline
