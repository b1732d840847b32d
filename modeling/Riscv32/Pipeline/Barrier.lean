import Riscv32.Clocked.Burst
import Riscv32.Pipeline.Effects

/-!
# A committing `fence.i`

What the core itself guarantees in the cycle a `fence.i` commits, whatever is
attached to its fetch port: every older store has its response, nothing behind
the `fence.i` has been handed to decode, and the words handed over from now on
start at the address behind it.

The argument is about the youngest instruction behind the fetch unit.  While
`fence_pending` stands that is the last one handed over
(`handed_of_pending`); in the cycle of its commit the `fence.i` is alone there
(`fenceiCommits_alone`); and from then on `stream_run` carries the address of the
next hand-over from cycle to cycle, redirects included.

`fenceiCommitted` puts these together.  What happens to the cache and on the bus
in the meantime is not the core's: see `Chip.Barrier`.
-/

namespace Riscv32.Pipeline

open Riscv32.Rtl
open Riscv32.Clocked
open Riscv32.Fetch

def isFenceiWord (inst : Word) : Bool := opcode inst == 0b0001111#7 && funct3 inst == 0b001#3

theorem isFencei_eq {inst : Word} : (decodeTaken inst).isFencei = isFenceiWord inst := by
  have hCase := decodeCase inst
  unfold isFenceiWord
  cases hFence : (decodeTaken inst).isFencei with
  | true =>
      generalize decodeTaken inst = c at hCase hFence
      cases hCase <;> simp_all
  | false =>
      by_contra hNot
      simp only [Bool.false_eq, Bool.not_eq_false, Bool.and_eq_true, beq_iff_eq] at hNot
      rw [decodeTaken_fence hNot.1 hNot.2] at hFence
      cases hFence

/-! ## Hand-overs -/

/-- The youngest instruction behind the fetch unit: its address and word. -/
def youngest (s : Core) (g : Trace) : Option (Word × Word) :=
  if s.idu.outValid then some (s.idu.out.pc, s.idu.out.inst)
  else g.entries.getLast?.map fun e => (e.d.pc, e.d.inst)

section Step

variable {arch : Arch} {s : Core} {g : Trace} {i : CoreIn}

theorem youngest_take (hRedirect : s.redirectFire = false) (hFire : s.iduInFire = true) :
    youngest (s.step arch i) (g.watch s i) = some (s.ifu.outPc, s.ifu.outInst) := by
  have hValid : (s.step arch i).idu.outValid = true := by
    simp [iduValid_step, hRedirect, hFire]
  rw [youngest, if_pos hValid, iduOut_take arch i hRedirect hFire]
  rfl

theorem youngest_keep (hRedirect : s.redirectFire = false) (hFire : s.iduInFire = false) :
    youngest (s.step arch i) (g.watch s i) = youngest s g := by
  have hOut := iduOut_keep arch i hRedirect hFire
  cases hX : s.exuInFire with
  | true =>
      -- the decode register empties into the entries
      have hEmpty : (s.step arch i).idu.outValid = false := by
        simp [iduValid_step, hRedirect, hFire, hX]
      simp [youngest, hEmpty, exuInFire_valid hX, Trace.watch, hX]
  | false =>
      have hSame : (s.step arch i).idu.outValid = s.idu.outValid := by
        simp [iduValid_step, hRedirect, hFire, hX]
      simp [youngest, hSame, hOut, Trace.watch, hX]

end Step

section Run

variable (arch : Arch) (s : Core) (inp : Nat → CoreIn)

/-- The instruction handed from fetch to decode in cycle `t`: its address and
word. -/
def handed (t : Nat) : Option (Word × Word) :=
  if (coreAt arch s inp t).iduInFire then
    some ((coreAt arch s inp t).ifu.outPc, (coreAt arch s inp t).ifu.outInst)
  else none

/-- The address of the next hand-over in cycle `c + n`, when it was `pc` in
cycle `c`: hand-overs count up by four, redirects set it. -/
def streamFrom (c : Nat) (pc : Word) : Nat → Word
  | 0 => pc
  | n + 1 =>
      nextPc (coreAt arch s inp (c + n)).ifu ((coreAt arch s inp (c + n)).ifuIn (inp (c + n)))
        (streamFrom c pc n)

/-- A `fence.i` commits in cycle `c`. -/
def FenceiCommits (c : Nat) : Prop :=
  (coreAt arch s inp c).commitFire = true ∧
    isFenceiWord (coreAt arch s inp c).commit.inst = true

instance (c : Nat) : Decidable (FenceiCommits arch s inp c) := inferInstanceAs (Decidable (_ ∧ _))

/-- What the core guarantees when a `fence.i` commits in cycle `c`. -/
structure FenceiCommitted (c : Nat) : Prop where
  /-- It is the last instruction that entered execution. -/
  last : (traceAt arch s inp c).entries.getLast?.map (fun e => (e.d.pc, e.d.inst)) =
    some ((coreAt arch s inp c).commit.pc, (coreAt arch s inp c).commit.inst)
  /-- Every store that entered execution is on the bus with address and data … -/
  aw : (traceAt arch s inp c).lsu.aw =
    (traceAt arch s inp c).entries.flatMap Entry.writeAddrs
  w : (traceAt arch s inp c).lsu.w =
    (traceAt arch s inp c).entries.flatMap Entry.writeData
  /-- … and has its response. -/
  b : (traceAt arch s inp c).lsu.b =
    ((traceAt arch s inp c).entries.flatMap Entry.writeAddrs).length
  /-- It was handed to decode and nothing has been since. -/
  handedLast : ∃ h, h < c ∧
    handed arch s inp h =
      some ((coreAt arch s inp c).commit.pc, (coreAt arch s inp c).commit.inst) ∧
    QuietBetween (handed arch s inp) h (c + 1)
  /-- The stream goes on behind it … -/
  stream : ∀ n p, handed arch s inp (c + n) = some p →
    p.1 = streamFrom arch s inp c ((coreAt arch s inp c).commit.pc + 4) n
  /-- … with the very next address. -/
  next : ∀ t p, c < t → QuietBetween (handed arch s inp) c t → handed arch s inp t = some p →
    p.1 = (coreAt arch s inp c).commit.pc + 4

variable {arch s inp}

/-- While `fence_pending` stands, the youngest instruction is the last one
handed over. -/
theorem handed_of_pending (h : s.AfterReset arch) (t : Nat)
    (hPending : (coreAt arch s inp t).idu.fencePending = true) :
    ∃ a, a < t ∧ (handed arch s inp a).isSome = true ∧
      handed arch s inp a = youngest (coreAt arch s inp t) (traceAt arch s inp t) ∧
      QuietBetween (handed arch s inp) a t := by
  induction t with
  | zero =>
      have hNone : (coreAt arch s inp 0).idu.fencePending = false := h.fencePending
      rw [hNone] at hPending
      cases hPending
  | succ t ih =>
      rw [coreAt_succ, fencePending_step] at hPending
      rw [coreAt_succ, traceAt_succ]
      cases hRedirect : (coreAt arch s inp t).redirectFire with
      | true => simp [hRedirect] at hPending
      | false =>
          cases hFire : (coreAt arch s inp t).iduInFire with
          | true =>
              have hNow : handed arch s inp t =
                  some ((coreAt arch s inp t).ifu.outPc, (coreAt arch s inp t).ifu.outInst) := by
                rw [handed, if_pos hFire]
              refine ⟨t, Nat.lt_succ_self t, by rw [hNow]; rfl, ?_, quietBetween_next _ t⟩
              rw [youngest_take hRedirect hFire, hNow]
          | false =>
              have hOld : (coreAt arch s inp t).idu.fencePending = true := by
                cases hDone : (coreAt arch s inp t).ifu.outFenceiFlushDone with
                | true => simp [hRedirect, hFire, hDone] at hPending
                | false => simpa [hRedirect, hFire, hDone] using hPending
              obtain ⟨a, ha, hSome, hYoung, hQuiet⟩ := ih hOld
              refine ⟨a, Nat.lt_succ_of_lt ha, hSome, ?_, hQuiet.succ (by simp [handed, hFire])⟩
              rw [youngest_keep hRedirect hFire, hYoung]

/-- From a cycle in which the fetch unit is to offer `q`, hand-overs follow the
stream from `q`. -/
theorem stream_run {csr₀ : Csr} {f : Flight} {pc : Word} {c : Nat}
    (hBack : BackInv arch (coreAt arch s inp c) (traceAt arch s inp c) f)
    (hFront : FrontInv arch csr₀ (coreAt arch s inp c) (traceAt arch s inp c) f pc) (n : Nat) :
    ∃ f' pc', BackInv arch (coreAt arch s inp (c + n)) (traceAt arch s inp (c + n)) f' ∧
      FrontInv arch csr₀ (coreAt arch s inp (c + n)) (traceAt arch s inp (c + n)) f' pc' ∧
      fetchNext (coreAt arch s inp (c + n)) pc' =
        streamFrom arch s inp c (fetchNext (coreAt arch s inp c) pc) n := by
  induction n with
  | zero => exact ⟨f, pc, hBack, hFront, rfl⟩
  | succ n ih =>
      obtain ⟨f', pc', hB, hF, hNext⟩ := ih
      obtain ⟨f'', hB', hLsu, hExu, -⟩ := backInv_step (i := inp (c + n)) hB
      refine ⟨f'', _, hB', frontInv_step hB hF hLsu hExu, ?_⟩
      rw [streamFrom, ← hNext]
      exact fetchNext_step hF

/-- An empty decode register stays empty until something is handed over, and
nothing redirects meanwhile. -/
theorem streamFrom_quiet {c : Nat} (pc : Word)
    (hEmpty : (coreAt arch s inp c).idu.outValid = false) (n : Nat)
    (hQuiet : ∀ k, c ≤ k → k < c + n → handed arch s inp k = none) :
    (coreAt arch s inp (c + n)).idu.outValid = false ∧ streamFrom arch s inp c pc n = pc := by
  induction n with
  | zero => exact ⟨hEmpty, rfl⟩
  | succ n ih =>
      obtain ⟨hIdu, hSame⟩ := ih fun k h1 h2 => hQuiet k h1 (by omega)
      have hRedirect := redirectFire_false_of_invalid hIdu
      have hFire : (coreAt arch s inp (c + n)).iduInFire = false := by
        have hNone := hQuiet (c + n) (by omega) (by omega)
        cases hFire : (coreAt arch s inp (c + n)).iduInFire with
        | false => rfl
        | true => simp [handed, hFire] at hNone
      constructor
      · rw [show c + (n + 1) = c + n + 1 from rfl, coreAt_succ, iduValid_step]
        simp [hRedirect, hFire, exuInFire_false_of_invalid hIdu, hIdu]
      · have hOut : (coreAt arch s inp (c + n)).ifu.outFire
            ((coreAt arch s inp (c + n)).ifuIn (inp (c + n))) = false := hFire
        have hIn : ((coreAt arch s inp (c + n)).ifuIn (inp (c + n))).inRedirectFire = false :=
          hRedirect
        simp [streamFrom, nextPc, hOut, hIn, hSame]

/-- The commit port shows the instruction in the load/store unit. -/
theorem commit_of_lsu {s : Core} {g : Trace} {f : Flight} {e : Entry}
    (hBack : BackInv arch s g f) (he : f.lsu = some e) (hFire : s.commitFire = true) :
    s.commit.pc = e.d.pc ∧ s.commit.inst = e.d.inst ∧
      ∃ data, g.lsu = transactions (f.done ++ [(e, data)]) := by
  have hPhase := hBack.phase
  rw [he] at hPhase
  have hWf : e.WellFormed := hBack.wf e (by simp [hBack.entries, Flight.entries, he])
  obtain ⟨data, hLog, hRet⟩ := lsuPhase_finished hPhase hFire hWf
  refine ⟨congrArg Retired.pc hRet, congrArg Retired.inst hRet, data, ?_⟩
  rw [hBack.log, hLog, transactions_concat]

/-- In the cycle it commits, a `fence.i` is alone behind fetch. -/
theorem fenceiCommits_alone {csr₀ : Csr} {s : Core} {g : Trace} {f : Flight} {pc : Word}
    (hBack : BackInv arch s g f) (hFront : FrontInv arch csr₀ s g f pc)
    (hFire : s.commitFire = true) (hFence : isFenceiWord s.commit.inst = true) :
    ∃ e, f.lsu = some e ∧ e.d.isFencei = true ∧ f.exu = none ∧ s.idu.outValid = false ∧
      s.idu.fencePending = true ∧ SequencerIdle s.ifu := by
  obtain ⟨e, he⟩ := hBack.commitFire_some hFire
  have hWf : e.WellFormed := hBack.wf e (by simp [hBack.entries, Flight.entries, he])
  have hFlag : e.d.isFencei = true := by
    rw [show e.d.isFencei = (decodeTaken e.d.inst).isFencei by rw [← hWf.ctrl], isFencei_eq,
      ← (commit_of_lsu hBack he hFire).2.1]
    exact hFence
  have hPhase := hFront.fence
  cases hPhase with
  | quiet _ _ _ hLsu _ => rw [hLsu e he] at hFlag; cases hFlag
  | decoded _ _ _ _ hLsu _ => rw [hLsu e he] at hFlag; cases hFlag
  | executed _ _ _ _ _ hLsu _ => rw [hLsu e he] at hFlag; cases hFlag
  | flushing _ _ _ hLsu => rw [hLsu] at he; cases he
  | flushed _ _ _ hLsu => rw [hLsu] at he; cases he
  | memory hPending hIdu hExu _ _ _ hIdle => exact ⟨e, he, hFlag, hExu, hIdu, hPending, hIdle⟩

/-- The address behind the committing `fence.i` is the next to execute. -/
theorem next_of_alone {csr₀ : Csr} {s : Core} {g : Trace} {f : Flight} {pc : Word}
    {e : Entry} (hBack : BackInv arch s g f) (hFront : FrontInv arch csr₀ s g f pc)
    (he : f.lsu = some e) (hFlag : e.d.isFencei = true) (hExu : f.exu = none) :
    pc = e.d.pc + 4 := by
  have hEntries : g.entries = f.done.map Prod.fst ++ [e] := by
    simp [hBack.entries, Flight.entries, he, hExu]
  have hCtrl := (hBack.wf e (by simp [hEntries])).ctrl
  have hWord : (decodeTaken e.d.inst).isFencei = true := by rw [← hCtrl]; exact hFlag
  have hNpc : e.npc = e.d.pc + 4 := by
    rw [decodeTaken_fencei hWord] at hCtrl
    simp [Entry.npc, IduOut.npc, IduOut.redirectValid, hCtrl]
  have hChain := hFront.chain
  rw [hEntries] at hChain
  obtain ⟨b, -, hLast⟩ := chained_append.mp hChain
  have hPc : e.npc = pc := congrArg Front.pc hLast.2
  rw [← hPc, hNpc]

/-- **The core's half of the barrier.** -/
theorem fenceiCommitted (h : s.AfterReset arch) {c : Nat} (hCommit : FenceiCommits arch s inp c) :
    FenceiCommitted arch s inp c := by
  obtain ⟨hFire, hFence⟩ := hCommit
  obtain ⟨f, pc, hBack, hFront⟩ := coreInv_at h inp c
  obtain ⟨e, he, hFlag, hExu, hIdu, hPending, -⟩ :=
    fenceiCommits_alone hBack hFront hFire hFence
  obtain ⟨hPc, hInst, data, hLog⟩ := commit_of_lsu hBack he hFire
  have hEntries : (traceAt arch s inp c).entries = (f.done ++ [(e, data)]).map Prod.fst := by
    simp [hBack.entries, Flight.entries, he, hExu]
  have hWf : ∀ p ∈ f.done ++ [(e, data)], p.1.WellFormed := fun p hp =>
    hBack.wf p.1 (by rw [hEntries]; exact List.mem_map_of_mem hp)
  obtain ⟨-, hAw, hW, -, hB⟩ := transactions_logs hWf
  have hYoung : youngest (coreAt arch s inp c) (traceAt arch s inp c) =
      some ((coreAt arch s inp c).commit.pc, (coreAt arch s inp c).commit.inst) := by
    simp [youngest, hIdu, hEntries, hPc, hInst]
  have hClosed : handed arch s inp c = none := by
    simp [handed, iduInFire_false_of_pending hPending]
  have hNext : fetchNext (coreAt arch s inp c) pc = (coreAt arch s inp c).commit.pc + 4 := by
    rw [fetchNext, hIdu, hPc, next_of_alone hBack hFront he hFlag hExu]
    rfl
  have hStream : ∀ n p, handed arch s inp (c + n) = some p →
      p.1 = streamFrom arch s inp c ((coreAt arch s inp c).commit.pc + 4) n := by
    intro n p hHanded
    obtain ⟨f', pc', -, hF, hStream⟩ := stream_run hBack hFront n
    unfold handed at hHanded
    split at hHanded
    · rename_i hTake
      cases hHanded
      obtain ⟨hValid, -⟩ := iduInFire_open hTake
      rw [← hNext, ← hStream]
      exact hF.tracks.slot.validPc hValid
    · cases hHanded
  refine ⟨?_, ?_, ?_, ?_, ?_, hStream, ?_⟩
  · simp [hEntries, hPc, hInst]
  · rw [hLog, hAw, hEntries]
  · rw [hLog, hW, hEntries]
  · rw [hLog, hB, hEntries]
  · obtain ⟨a, ha, -, hHanded, hQuiet⟩ := handed_of_pending h c hPending
    exact ⟨a, ha, hHanded.trans hYoung, hQuiet.succ hClosed⟩
  · intro t p ht hQuiet hHanded
    obtain ⟨n, rfl⟩ := Nat.exists_eq_add_of_lt ht
    rw [hStream (n + 1) p hHanded]
    refine (streamFrom_quiet _ hIdu (n + 1) fun k h1 h2 => ?_).2
    rcases Nat.eq_or_lt_of_le h1 with rfl | hLt
    · exact hClosed
    · exact hQuiet k hLt h2

end Run

end Riscv32.Pipeline
