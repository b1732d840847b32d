import Riscv32.Pipeline.Front

/-!
# Side effects, once each and in program order

The handshakes of the load/store port and the writes of the CSR file,
accounted for by the instructions the execute unit took.  What an instruction
should do is read off its word; the logs of a run are compared with that.

A CSR write is logged where it can be seen, in the cycles in which the execute
unit raises the write enable of the file (or its `ecall` input).  What the file
makes of it is another matter: the assignment of the counter comes last in
`CSR.sv`, so a write to either half of it is lost there (`Pipeline.CsrFile`), and
`csrAfter` leaves the counter out.

## Main results

* `transaction_eq` — the transaction of an instruction is the one its word asks
  for.
* `effects_in_order` — in every run, every effect belongs to one instruction that
  entered execution, in program order, and each has it once.
-/

namespace Riscv32.Pipeline

open Riscv32.Rtl
open Riscv32.Clocked

/-! ## What a word asks for -/

def isLoadWord (inst : Word) : Bool := opcode inst == 0b0000011#7

def isStoreWord (inst : Word) : Bool := opcode inst == 0b0100011#7

def isCsrrw (inst : Word) : Bool := opcode inst == 0b1110011#7 && funct3 inst == 0b001#3

def isCsrrs (inst : Word) : Bool := opcode inst == 0b1110011#7 && funct3 inst == 0b010#3

/-- `csrrw`, `csrrs` or `ecall`. -/
def isCsrWord (inst : Word) : Bool := isCsrrw inst || isCsrrs inst || inst == ecallWord

/-- `csrrs` from `x0` only reads. -/
def writesCsr (inst : Word) : Bool :=
  isCsrrw inst || (isCsrrs inst && rs1Idx inst != 0) || inst == ecallWord

namespace Entry

/-- Base register plus immediate. -/
def loadAddr (e : Entry) : Word := e.d.src1Data + immI e.d.inst

def storeAddr (e : Entry) : Word := e.d.src1Data + immS e.d.inst

/-- The AR handshakes an instruction is to make. -/
def reads (e : Entry) : List Word :=
  if isLoadWord e.d.inst then [e.loadAddr] else []

/-- The AW handshakes an instruction is to make. -/
def writeAddrs (e : Entry) : List Word :=
  if isStoreWord e.d.inst then [e.storeAddr] else []

/-- The W handshakes an instruction is to make. -/
def writeData (e : Entry) : List (Word × BitVec 4) :=
  if isStoreWord e.d.inst then
    [(storeWdata (funct3 e.d.inst) e.storeAddr e.d.src2Data,
      storeWstrb (funct3 e.d.inst) e.storeAddr)]
  else []

/-- The CSR writes an instruction is to make. -/
def csrWrites (e : Entry) : List Csr.In :=
  if writesCsr e.d.inst then [e.d.csrIn e.csr true] else []

end Entry

/-! ## The decoded flags say the same -/

section Flags

variable {inst : Word}

/-- The words matched whole are neither loads nor stores, and write no CSR by
`csr_wen`. -/
private theorem wholeWords :
    opcode ecallWord = 0b1110011#7 ∧ funct3 ecallWord = 0b000#3 ∧
      opcode ebreakWord = 0b1110011#7 ∧ funct3 ebreakWord = 0b000#3 ∧
      opcode mretWord = 0b1110011#7 ∧ funct3 mretWord = 0b000#3 ∧
      ebreakWord ≠ ecallWord ∧ mretWord ≠ ecallWord := by decide

private theorem opcode_of_quiet (h : usesRs1 inst = false) :
    opcode inst ≠ 0b0000011#7 ∧ opcode inst ≠ 0b0100011#7 ∧
      (opcode inst = 0b1110011#7 → funct3 inst ≠ 0b001#3 ∧ funct3 inst ≠ 0b010#3) := by
  refine ⟨?_, ?_, ?_⟩
  · intro hOp; simp [usesRs1, hOp] at h
  · intro hOp; simp [usesRs1, hOp] at h
  · intro hOp; simpa [usesRs1, hOp] using h

theorem isLoad_eq : (decodeTaken inst).isLoad = isLoadWord inst := by
  have hCase := decodeCase inst
  have hWhole := wholeWords
  have hQuiet := @opcode_of_quiet inst
  unfold isLoadWord
  generalize decodeTaken inst = c at hCase
  cases hCase <;> simp_all

theorem isStore_eq : (decodeTaken inst).isStore = isStoreWord inst := by
  have hCase := decodeCase inst
  have hWhole := wholeWords
  have hQuiet := @opcode_of_quiet inst
  unfold isStoreWord
  generalize decodeTaken inst = c at hCase
  cases hCase <;> simp_all

theorem writesCsr_eq :
    ((decodeTaken inst).csrWen || (decodeTaken inst).isEcall) = writesCsr inst := by
  have hCase := decodeCase inst
  have hWhole := wholeWords
  have hQuiet := @opcode_of_quiet inst
  have hEcall : opcode inst ≠ 0b1110011#7 ∨ funct3 inst ≠ 0b000#3 → inst ≠ ecallWord := by
    rintro h rfl
    simp [hWhole] at h
  unfold writesCsr isCsrrw isCsrrs
  generalize decodeTaken inst = c at hCase
  cases hCase <;> simp_all [bne, Bool.beq_eq_decide_eq]

end Flags

/-! ## Transactions, by the word -/

section Transaction

variable {arch : Arch} {e : Entry}

theorem wellFormed_fields (hWf : e.WellFormed) :
    e.d.imm = immOf e.d.inst ∧ e.d.storeSize = funct3 e.d.inst ∧
      e.d.isLoad = isLoadWord e.d.inst ∧ e.d.isStore = isStoreWord e.d.inst := by
  refine ⟨congrArg IduOut.imm hWf, congrArg IduOut.storeSize hWf, ?_, ?_⟩
  · rw [← isLoad_eq, ← hWf.ctrl]
  · rw [← isStore_eq, ← hWf.ctrl]

/-- Loads and stores add their immediate to the first operand. -/
private theorem aluResult_of_memory (hWf : e.WellFormed)
    (h : isLoadWord e.d.inst = true ∨ isStoreWord e.d.inst = true) :
    e.d.aluResult = e.d.src1Data + e.d.imm := by
  have hFlag : (decodeTaken e.d.inst).isLoad = true ∨ (decodeTaken e.d.inst).isStore = true := by
    rwa [isLoad_eq, isStore_eq]
  have hCase := decodeCase e.d.inst
  have hCtrl := hWf.ctrl
  generalize decodeTaken e.d.inst = c at hCase hFlag hCtrl
  cases hCase with
  | load => simp only [IduOut.aluResult, IduOut.aluSrc1, IduOut.aluSrc2, hCtrl, aluResult]
  | store => simp only [IduOut.aluResult, IduOut.aluSrc1, IduOut.aluSrc2, hCtrl, aluResult]
  | _ => simp at hFlag

theorem loadAddr_eq (hWf : e.WellFormed) (h : isLoadWord e.d.inst = true) :
    e.d.aluResult = e.loadAddr := by
  have hOp : opcode e.d.inst = 0b0000011#7 := by simpa [isLoadWord] using h
  rw [aluResult_of_memory hWf (.inl h), (wellFormed_fields hWf).1, Entry.loadAddr]
  simp [immOf, hOp]

theorem storeAddr_eq (hWf : e.WellFormed) (h : isStoreWord e.d.inst = true) :
    e.d.aluResult = e.storeAddr := by
  have hOp : opcode e.d.inst = 0b0100011#7 := by simpa [isStoreWord] using h
  rw [aluResult_of_memory hWf (.inr h), (wellFormed_fields hWf).1, Entry.storeAddr]
  simp [immOf, hOp]

private theorem not_store_of_load {inst : Word} (h : isLoadWord inst = true) :
    isStoreWord inst = false := by
  rw [← isStore_eq]
  exact isStore_of_isLoad (by rw [isLoad_eq]; exact h)

/-- The transaction of an instruction is the one its word asks for. -/
theorem transaction_eq (hWf : e.WellFormed) (data : Word) :
    e.transaction data =
      { ar := e.reads
        r := if isLoadWord e.d.inst then [data] else []
        aw := e.writeAddrs
        w := e.writeData
        b := if isStoreWord e.d.inst then 1 else 0 } := by
  obtain ⟨-, hSize, hLoad, hStore⟩ := wellFormed_fields hWf
  unfold Entry.transaction Entry.reads Entry.writeAddrs Entry.writeData
  rw [hLoad, hStore]
  cases hL : isLoadWord e.d.inst with
  | true => simp [not_store_of_load hL, loadAddr_eq hWf hL]
  | false =>
      cases hS : isStoreWord e.d.inst with
      | false => rfl
      | true =>
          have hData : e.d.storeData = e.d.src2Data := by
            simp [IduOut.storeData, hStore, hS]
          simp [storeAddr_eq hWf hS, hSize, hData]

/-- The handshakes made so far are a part of the transaction, the response
never before the request. -/
theorem lsuPhase_partial {s : Lsu} {m : PortLog} (h : LsuPhase arch s (some e) m) :
    ∃ data, m.ar <+: (e.transaction data).ar ∧ m.r.length ≤ m.ar.length ∧
      m.aw <+: (e.transaction data).aw ∧ m.w <+: (e.transaction data).w := by
  cases h with
  | passing => exact ⟨0, List.nil_prefix, Nat.le_refl 0, List.nil_prefix, List.nil_prefix⟩
  | readAddr => exact ⟨0, List.nil_prefix, Nat.le_refl 0, List.nil_prefix, List.nil_prefix⟩
  | waitR _ _ _ _ _ hLoad => exact ⟨0, by simp [Entry.transaction, hLoad]⟩
  | loaded _ data _ _ _ _ hLoad => exact ⟨data, by simp [Entry.transaction, hLoad]⟩
  | writeReq _ awLeft wLeft _ _ _ hLoad hStore =>
      refine ⟨0, ?_⟩
      cases awLeft <;> cases wLeft <;> simp [Entry.transaction, hLoad, hStore]
  | waitB _ _ _ _ _ hLoad hStore => exact ⟨0, by simp [Entry.transaction, hLoad, hStore]⟩
  | stored _ _ _ _ _ hLoad hStore => exact ⟨0, by simp [Entry.transaction, hLoad, hStore]⟩

theorem transactions_logs {done : List (Entry × Word)}
    (hWf : ∀ p ∈ done, p.1.WellFormed) :
    (transactions done).ar = (done.map Prod.fst).flatMap Entry.reads ∧
      (transactions done).aw = (done.map Prod.fst).flatMap Entry.writeAddrs ∧
      (transactions done).w = (done.map Prod.fst).flatMap Entry.writeData ∧
      (transactions done).r.length = (transactions done).ar.length ∧
      (transactions done).b = ((done.map Prod.fst).flatMap Entry.writeAddrs).length := by
  induction done with
  | nil => simp [transactions]
  | cons p done ih =>
      obtain ⟨hAr, hAw, hW, hR, hB⟩ := ih fun q hq => hWf q (by simp [hq])
      have hp := transaction_eq (hWf p (by simp)) p.2
      simp only [transactions, PortLog.append_def, List.map_cons, List.flatMap_cons, hAr, hAw,
        hW, hp, List.length_append, hR, hB, true_and]
      constructor
      · simp only [Entry.reads]
        split <;> simp
      · simp only [Entry.writeAddrs]
        split <;> simp

end Transaction

/-! ## The logs of a run -/

/-- The instructions that have committed, as the execute unit took them. -/
def Trace.committed (g : Trace) : List Entry := g.entries.take g.commits.length

/-- Those and the next one, which may be in the load/store unit. -/
def Trace.started (g : Trace) : List Entry := g.entries.take (g.commits.length + 1)

/-- Every logged effect belongs to one instruction that entered execution, in
program order, and a committed instruction has had all of its effects. -/
structure EffectsInOrder (g : Trace) : Prop where
  commits : (g.commits.map fun c => (c.pc, c.inst)) =
    g.committed.map fun e => (e.d.pc, e.d.inst)
  /-- What entered execution is one path: nothing squashed ever enters. -/
  onePath : g.entries.IsChain fun e e' => e'.d.pc = e.npc
  ar : g.committed.flatMap Entry.reads <+: g.lsu.ar ∧
    g.lsu.ar <+: g.started.flatMap Entry.reads
  r : (g.committed.flatMap Entry.reads).length ≤ g.lsu.r.length ∧
    g.lsu.r.length ≤ g.lsu.ar.length
  aw : g.committed.flatMap Entry.writeAddrs <+: g.lsu.aw ∧
    g.lsu.aw <+: g.started.flatMap Entry.writeAddrs
  w : g.committed.flatMap Entry.writeData <+: g.lsu.w ∧
    g.lsu.w <+: g.started.flatMap Entry.writeData
  csr : g.csrWrites = g.entries.flatMap Entry.csrWrites

section Logs

variable {arch : Arch} {s : Core} {g : Trace} {f : Flight}

private theorem commits_length (hBack : BackInv arch s g f) :
    g.commits.length = f.done.length := by
  have h := congrArg List.length hBack.commits
  simpa using h

private theorem committed_eq (hBack : BackInv arch s g f) :
    g.committed = f.done.map Prod.fst := by
  rw [Trace.committed, commits_length hBack, hBack.entries, Flight.entries, List.append_assoc]
  simp

/-- What an instruction in the load/store unit has done so far is the only
thing that goes beyond the committed ones. -/
private theorem between {α : Type} (k : Entry → List α) (part : List α)
    (hBack : BackInv arch s g f) (hNone : f.lsu = none → part = [])
    (hSome : ∀ e, f.lsu = some e → part <+: k e) :
    (f.done.map Prod.fst).flatMap k ++ part <+: g.started.flatMap k := by
  rw [Trace.started, commits_length hBack, hBack.entries, Flight.entries]
  cases hLsu : f.lsu with
  | none =>
      rw [hNone hLsu]
      simp [List.take_of_length_le]
  | some e =>
      obtain ⟨rest, hRest⟩ := hSome e hLsu
      simp [List.take_append, List.take_of_length_le, ← hRest]

private theorem logs_of_back (hBack : BackInv arch s g f) :
    (g.committed.flatMap Entry.reads <+: g.lsu.ar ∧
        g.lsu.ar <+: g.started.flatMap Entry.reads) ∧
      ((g.committed.flatMap Entry.reads).length ≤ g.lsu.r.length ∧
        g.lsu.r.length ≤ g.lsu.ar.length) ∧
      (g.committed.flatMap Entry.writeAddrs <+: g.lsu.aw ∧
        g.lsu.aw <+: g.started.flatMap Entry.writeAddrs) ∧
      g.committed.flatMap Entry.writeData <+: g.lsu.w ∧
        g.lsu.w <+: g.started.flatMap Entry.writeData := by
  have hDoneWf : ∀ p ∈ f.done, p.1.WellFormed := fun p hp =>
    hBack.wf p.1 (by
      rw [hBack.entries, Flight.entries]
      simp only [List.mem_append]
      exact .inl (.inl (List.mem_map_of_mem hp)))
  obtain ⟨hAr, hAw, hW, hR, -⟩ := transactions_logs hDoneWf
  have hNone : f.lsu = none → f.log = {} := by
    intro hLsu
    have hPhase := hBack.phase
    rw [hLsu] at hPhase
    exact lsuPhase_none_log hPhase
  have hSome : ∀ e, f.lsu = some e → f.log.ar <+: e.reads ∧
      f.log.r.length ≤ f.log.ar.length ∧ f.log.aw <+: e.writeAddrs ∧
      f.log.w <+: e.writeData := by
    intro e hLsu
    have hPhase := hBack.phase
    rw [hLsu] at hPhase
    have hWf : e.WellFormed := hBack.wf e (by simp [hBack.entries, Flight.entries, hLsu])
    obtain ⟨data, hPart⟩ := lsuPhase_partial hPhase
    rwa [transaction_eq hWf] at hPart
  have hRLog : f.log.r.length ≤ f.log.ar.length := by
    cases hLsu : f.lsu with
    | none => simp [hNone hLsu]
    | some e => exact (hSome e hLsu).2.1
  rw [committed_eq hBack, hBack.log, PortLog.append_def]
  simp only [List.length_append, hR, hAr, hAw, hW]
  refine ⟨⟨List.prefix_append _ _, ?_⟩, ⟨by omega, by omega⟩, ⟨List.prefix_append _ _, ?_⟩,
    List.prefix_append _ _, ?_⟩
  · exact between _ _ hBack (fun h => by rw [hNone h]) fun e h => (hSome e h).1
  · exact between _ _ hBack (fun h => by rw [hNone h]) fun e h => (hSome e h).2.2.1
  · exact between _ _ hBack (fun h => by rw [hNone h]) fun e h => (hSome e h).2.2.2

/-- The CSR file is written exactly by the instructions that enter execution. -/
private theorem csrWrites_step {i : CoreIn} (hBack : BackInv arch s g f)
    (h : g.csrWrites = g.entries.flatMap Entry.csrWrites) :
    (g.watch s i).csrWrites = (g.watch s i).entries.flatMap Entry.csrWrites := by
  have hIn : s.csrIn = s.idu.out.csrIn s.csr s.exuInFire := rfl
  simp only [Trace.watch, List.flatMap_append, ← h, hIn]
  congr 1
  cases hFire : s.exuInFire with
  | false => simp [IduOut.csrIn]
  | true =>
      have hCtrl : s.idu.out.toCtrl = decodeTaken s.idu.out.inst :=
        (hBack.iduWf (exuInFire_valid hFire)).ctrl
      have hFlag : (s.idu.out.csrWen || s.idu.out.isEcall) = writesCsr s.idu.out.inst := by
        rw [hCtrl]
        exact writesCsr_eq
      simp only [if_true, List.flatMap_singleton, Entry.csrWrites, ← hFlag]
      simp [IduOut.csrIn]

end Logs

/-! ## Every run -/

section Run

variable {arch : Arch} {s : Core} {inp : Nat → CoreIn}

/-- The CSR file without its counter, after the writes `l`. -/
def csrAfter (csr : Csr) (l : List Csr.In) : Csr :=
  l.foldl (fun c i => archCsr (c.step i)) (archCsr csr)

private theorem archCsr_step_arch (c : Csr) (i : Csr.In) :
    archCsr (c.step i) =
      if i.csrWen || i.isEcall then archCsr ((archCsr c).step i) else archCsr c := by
  rw [archCsr_step, archCsr_step, ← archCsr_write]
  cases i.isEcall <;> cases i.csrWen <;> rfl

private theorem csrAfter_at (t : Nat) :
    archCsr (coreAt arch s inp t).csr = csrAfter s.csr (traceAt arch s inp t).csrWrites := by
  induction t with
  | zero => rfl
  | succ t ih =>
      have hStep : (coreAt arch s inp (t + 1)).csr =
          (coreAt arch s inp t).csr.step (coreAt arch s inp t).csrIn := rfl
      rw [hStep, archCsr_step_arch, traceAt_succ]
      simp only [Trace.watch, csrAfter, List.foldl_append]
      cases (coreAt arch s inp t).csrIn.csrWen || (coreAt arch s inp t).csrIn.isEcall with
      | false => simpa [csrAfter] using ih
      | true => simp [ih, csrAfter]

/-- **Effects happen once and in order.**  In every run from reset: the
load/store port makes exactly the handshakes the committed instructions ask
for, plus a part of those of the instruction it holds; the write enable of the
CSR file is up for one cycle for each instruction that asks for it, as it enters
execution, with its address and value, and for nothing else.  The file without
its counter holds what these writes leave; a write to the counter is lost in
`CSR.sv`, whose counting assignment comes last. -/
theorem effects_in_order (h : s.AfterReset arch) (t : Nat) :
    EffectsInOrder (traceAt arch s inp t) ∧
      archCsr (coreAt arch s inp t).csr =
        csrAfter s.csr (traceAt arch s inp t).csrWrites := by
  refine ⟨?_, csrAfter_at t⟩
  have hCsr : (traceAt arch s inp t).csrWrites =
      (traceAt arch s inp t).entries.flatMap Entry.csrWrites := by
    induction t with
    | zero => rfl
    | succ t ih =>
        obtain ⟨f, pc, hBack, -⟩ := coreInv_at h inp t
        exact csrWrites_step hBack ih
  obtain ⟨f, pc, hBack, hFront⟩ := coreInv_at h inp t
  obtain ⟨hAr, hR, hAw, hW⟩ := logs_of_back hBack
  refine ⟨?_, (chained_consecutive hFront.chain).2, hAr, hR, hAw, hW, hCsr⟩
  have hPairs := congrArg (List.map fun r : Retired => (r.pc, r.inst)) hBack.commits
  simp only [List.map_map] at hPairs
  rw [committed_eq hBack, List.map_map]
  exact hPairs

/-- A run of `sw x1, 4(x2)`: after fifteen cycles two have committed and the
third is on the bus. -/
theorem effects_in_order_stores :
    (traceAt .npc (Core.powerUp .npc) (promptInp 0x00112223#32) 15).commits.length = 2 ∧
      (traceAt .npc (Core.powerUp .npc) (promptInp 0x00112223#32) 15).lsu.aw = [4, 4, 4] ∧
      EffectsInOrder (traceAt .npc (Core.powerUp .npc) (promptInp 0x00112223#32) 15) :=
  ⟨by decide +kernel, by decide +kernel,
    (effects_in_order (Core.powerUp_afterReset .npc) 15).1⟩

/-- `csrrs x1, mstatus, x0` executes and commits without any CSR write: there
are fewer write cycles than `csrrw`, `csrrs` and `ecall` instructions. -/
theorem csrrs_x0_writes_nothing :
    ((traceAt .npc (Core.powerUp .npc) (promptInp 0x300020F3#32) 8).commits.map Commit.inst) =
        [0x300020F3#32] ∧
      isCsrrs 0x300020F3#32 = true ∧
      ¬ (traceAt .npc (Core.powerUp .npc) (promptInp 0x300020F3#32) 8).csrWrites.length =
        ((traceAt .npc (Core.powerUp .npc) (promptInp 0x300020F3#32) 8).entries.filter
          fun e => isCsrWord e.d.inst).length := by
  decide +kernel

end Run

end Riscv32.Pipeline
