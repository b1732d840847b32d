import Riscv32.Clocked.Run
import Riscv32.Rtl.Core
import Riscv32.Pipeline.DecodeCases

/-!
# The one-instruction-at-a-time machine

What the pipelined core is for: a machine that takes one fetch word, decodes
it, reads its operands, executes it with the combinational functions of the
decode, execute and load/store units, and retires it before looking at the
next.  `Entry` is an instruction on its way through execution (what the
execute unit takes in one cycle); the sequential machine makes the same
entries from its own registers.

There is one difference that no order of instructions explains: `mcycle` counts
clock cycles.  `clockedStep` is the machine with the counter delivered from
outside, `seqStep` the one that counts on its own.

## Main results

* `clockedStep_of_matches` — a machine that matches an entry retires it.
* `feedOuts_counter` — for a program that never reads the counter the two
  machines show the same.
-/

namespace Riscv32.Pipeline

open Riscv32.Rtl
open Riscv32.Clocked

/-- The observable part of a commit: the destination counts only when it is
written. -/
structure Retired where
  pc : Word
  inst : Word
  npc : Word
  write : Option (BitVec 5 × Word)
deriving DecidableEq, Repr

def retiredOf (c : Commit) : Retired where
  pc := c.pc
  inst := c.inst
  npc := c.npc
  write := if c.wen then some (c.rd, c.wdata) else none

/-- The register operands an instruction uses. -/
structure Operands where
  src1 : Option Word
  src2 : Option Word
deriving DecidableEq, Repr

/-- Register file after a retirement. -/
def retire (rf : RegFile) (r : Retired) : RegFile :=
  match r.write with
  | some (rd, v) => rf.write rd v
  | none => rf

/-! ## Entries -/

/-- A decoded instruction together with the CSR file it executes against. -/
structure Entry where
  d : IduOut
  csr : Csr
deriving DecidableEq, Repr

namespace Entry

/-- The decoded fields are those of the word. -/
def WellFormed (e : Entry) : Prop :=
  e.d = latch e.d.inst e.d.pc e.d.src1Data e.d.src2Data e.d.exceptionValid
    e.d.exceptionCause

theorem WellFormed.ctrl {e : Entry} (h : e.WellFormed) :
    e.d.toCtrl = decodeTaken e.d.inst :=
  congrArg IduOut.toCtrl h

theorem WellFormed.rd {e : Entry} (h : e.WellFormed) : e.d.rd = rdIdx e.d.inst :=
  congrArg IduOut.rd h

def npc (e : Entry) : Word := e.d.npc e.csr

/-- The CSR file after the instruction executed. -/
def csrNext (e : Entry) : Csr := e.csr.step (e.d.csrIn e.csr true)

/-- The written-back value, with `data` the word the bus returned to a load. -/
def result (e : Entry) (data : Word) : Word :=
  if e.d.isLoad then loadExtract e.d.loadSize e.d.aluResult data else e.d.wbData e.csr

def retired (e : Entry) (data : Word) : Retired where
  pc := e.d.pc
  inst := e.d.inst
  npc := e.npc
  write := if e.d.rfWe && e.d.rd != 0 then some (e.d.rd, e.result data) else none

def operands (e : Entry) : Operands where
  src1 := if usesRs1 e.d.inst then some e.d.src1Data else none
  src2 := if usesRs2 e.d.inst then some e.d.src2Data else none

end Entry

/-! ## The machine -/

structure SeqState where
  pc : Word
  rf : RegFile
  csr : Csr

/-- What the bus and the clock deliver for one instruction: the fetch word,
the word returned to a load, and the value of the cycle counter. -/
structure Feed where
  word : Word
  load : Word
  mcycle : Word
  mcycleh : Word
deriving DecidableEq, Repr

structure SeqOut where
  retired : Retired
  operands : Operands
deriving DecidableEq, Repr

/-- The entry for `word` against the machine's registers and the CSR file `csr`. -/
def SeqState.entry (s : SeqState) (word : Word) (csr : Csr) : Entry where
  d := latch word s.pc (s.rf.read (rs1Idx word)) (s.rf.read (rs2Idx word))
    (misaligned s.pc) 0
  csr := csr

/-- Execute and retire one entry. -/
def SeqState.exec (s : SeqState) (e : Entry) (load : Word) : SeqState × SeqOut :=
  (⟨e.npc, retire s.rf (e.retired load), e.csrNext⟩, ⟨e.retired load, e.operands⟩)

/-- The machine on its own CSR file: its cycle counter counts instructions. -/
def seqStep (s : SeqState) (f : Feed) : SeqState × SeqOut :=
  s.exec (s.entry f.word s.csr) f.load

/-- The machine with the cycle counter delivered from outside, for programs
that read it. -/
def clockedStep (s : SeqState) (f : Feed) : SeqState × SeqOut :=
  s.exec (s.entry f.word { s.csr with mcycle := f.mcycle, mcycleh := f.mcycleh }) f.load

/-! ## Matching an entry of the pipeline -/

/-- The CSR file without the free-running counter. -/
def archCsr (c : Csr) : Csr := { c with mcycle := 0, mcycleh := 0 }

/-- The machine is about to execute `e`: same address, same CSRs, and the
operands the word uses are in its registers. -/
structure Matches (s : SeqState) (e : Entry) : Prop where
  pc : s.pc = e.d.pc
  csr : archCsr s.csr = archCsr e.csr
  src1 : usesRs1 e.d.inst = true → e.d.src1Data = s.rf.read (rs1Idx e.d.inst)
  src2 : usesRs2 e.d.inst = true → e.d.src2Data = s.rf.read (rs2Idx e.d.inst)

/-- The feed delivered for `e`. -/
def Entry.feed (e : Entry) (load : Word) : Feed where
  word := e.d.inst
  load := load
  mcycle := e.csr.mcycle
  mcycleh := e.csr.mcycleh

section Congruence

variable {inst pc a b a' b' : Word} {x y : Bool} {u v : Word} {csr : Csr}

/-- Entries of one word that agree on used operands retire alike. -/
theorem retired_congr (h : SameOperands inst a b a' b') (data : Word) :
    Entry.retired ⟨latch inst pc a b x u, csr⟩ data =
      Entry.retired ⟨latch inst pc a' b' y v, csr⟩ data := by
  have hNpc : (latch inst pc a b x u).npc csr = (latch inst pc a' b' y v).npc csr :=
    npc_congr h csr
  have hResult : (decodeTaken inst).rfWe = true →
      Entry.result ⟨latch inst pc a b x u, csr⟩ data =
        Entry.result ⟨latch inst pc a' b' y v, csr⟩ data := by
    intro hWe
    simp only [Entry.result]
    rw [wbData_congr (x := x) (y := y) (u := u) (v := v) h csr hWe]
    by_cases hLoad : (decodeTaken inst).isLoad = true
    · have hAddr : (latch inst pc a b x u).aluResult = (latch inst pc a' b' y v).aluResult :=
        memAddr_congr h (.inl hLoad)
      rw [hAddr]
      rfl
    · simp [hLoad]
  have hWrite : (if (decodeTaken inst).rfWe && rdIdx inst != 0 then
        some (rdIdx inst, Entry.result ⟨latch inst pc a b x u, csr⟩ data) else none) =
      if (decodeTaken inst).rfWe && rdIdx inst != 0 then
        some (rdIdx inst, Entry.result ⟨latch inst pc a' b' y v, csr⟩ data) else none := by
    by_cases hWe : (decodeTaken inst).rfWe = true
    · rw [hResult hWe]
    · simp [hWe]
  simp only [Entry.retired, Entry.npc, hNpc]
  exact congrArg (Retired.mk pc inst _) hWrite

theorem operands_congr (h : SameOperands inst a b a' b') :
    Entry.operands ⟨latch inst pc a b x u, csr⟩ =
      Entry.operands ⟨latch inst pc a' b' y v, csr⟩ := by
  have h1 : (if usesRs1 inst then some a else none) =
      if usesRs1 inst then some a' else none := by
    by_cases hUse : usesRs1 inst = true
    · rw [h.src1 hUse]
    · simp [hUse]
  have h2 : (if usesRs2 inst then some b else none) =
      if usesRs2 inst then some b' else none := by
    by_cases hUse : usesRs2 inst = true
    · rw [h.src2 hUse]
    · simp [hUse]
  exact congrArg₂ Operands.mk h1 h2

theorem exec_congr (s : SeqState) (h : SameOperands inst a b a' b') (load : Word) :
    s.exec ⟨latch inst pc a b x u, csr⟩ load =
      s.exec ⟨latch inst pc a' b' y v, csr⟩ load := by
  simp only [SeqState.exec, Entry.npc, Entry.csrNext]
  rw [retired_congr (y := y) (v := v) h, operands_congr (y := y) (v := v) h,
    npc_congr (y := y) (v := v) h, csrStep_congr (y := y) (v := v) h]

end Congruence

theorem csr_eq_of_arch {c c' : Csr} (h : archCsr c = archCsr c') :
    { c with mcycle := c'.mcycle, mcycleh := c'.mcycleh } = c' := by
  simp only [archCsr, Csr.mk.injEq] at h
  obtain ⟨-, -, h1, h2, h3, h4⟩ := h
  cases c'
  simp_all

/-- **One step of the sequential machine.**  When the machine matches an entry
it retires exactly that entry. -/
theorem clockedStep_of_matches {s : SeqState} {e : Entry} (hWf : e.WellFormed)
    (h : Matches s e) (load : Word) :
    clockedStep s (e.feed load) = s.exec e load := by
  obtain ⟨d, csr⟩ := e
  obtain ⟨hPc, hCsr, h1, h2⟩ := h
  simp only [Entry.WellFormed] at hWf hPc hCsr h1 h2
  have hSame : SameOperands d.inst (s.rf.read (rs1Idx d.inst)) (s.rf.read (rs2Idx d.inst))
      d.src1Data d.src2Data := ⟨fun hUse => (h1 hUse).symm, fun hUse => (h2 hUse).symm⟩
  calc clockedStep s (Entry.feed ⟨d, csr⟩ load)
      = s.exec ⟨latch d.inst d.pc (s.rf.read (rs1Idx d.inst))
          (s.rf.read (rs2Idx d.inst)) (misaligned d.pc) 0, csr⟩ load := by
        simp only [clockedStep, Entry.feed, SeqState.entry, csr_eq_of_arch hCsr, hPc]
    _ = s.exec ⟨latch d.inst d.pc d.src1Data d.src2Data d.exceptionValid
          d.exceptionCause, csr⟩ load := exec_congr s hSame load
    _ = s.exec ⟨d, csr⟩ load := congrArg (fun d => s.exec ⟨d, csr⟩ load) hWf.symm

/-! ## The free-running counter

Only a word that reads a counter half into a register shows it.
-/

/-- `csrrw` or `csrrs` from `mcycle` or `mcycleh` into a register. -/
def ReadsCounter (inst : Word) : Prop :=
  opcode inst = 0b1110011#7 ∧ (funct3 inst = 0b001#3 ∨ funct3 inst = 0b010#3) ∧
    rdIdx inst ≠ 0 ∧ (csrAddrOf inst = 0xB00#12 ∨ csrAddrOf inst = 0xB80#12)

instance (inst : Word) : Decidable (ReadsCounter inst) := by
  unfold ReadsCounter; infer_instance

section Counter

variable {c c' : Csr} {addr : BitVec 12}

private theorem rdata_archCsr (c : Csr) (h1 : addr ≠ 0xB00#12) (h2 : addr ≠ 0xB80#12) :
    (archCsr c).rdata addr = c.rdata addr := by
  unfold Csr.rdata
  split
  · exact absurd rfl h1
  · exact absurd rfl h2
  all_goals rfl

theorem archCsr_write (c : Csr) (v : Word) :
    archCsr (c.write addr v) = archCsr ((archCsr c).write addr v) := by
  unfold Csr.write
  split <;> rfl

private theorem archCsr_write_counter (h : addr = 0xB00#12 ∨ addr = 0xB80#12) (v w : Word) :
    archCsr (c.write addr v) = archCsr (c.write addr w) := by
  rcases h with rfl | rfl <;> rfl

/-- One edge of the CSR file, without the counter. -/
theorem archCsr_step (c : Csr) (i : Csr.In) :
    archCsr (c.step i) =
      if i.isEcall then { archCsr c with mepc := i.pc, mcause := 11 }
      else if i.csrWen then archCsr (c.write i.csrAddr i.csrWdata) else archCsr c := by
  unfold Csr.step
  cases i.isEcall <;> cases i.csrWen <;> rfl

/-- The counters never reach another CSR. -/
private theorem archCsr_step_congr (h : archCsr c = archCsr c') (d : IduOut) :
    archCsr (c.step (d.csrIn c true)) = archCsr (c'.step (d.csrIn c' true)) := by
  have hWrite : archCsr (c.write d.csrAddr (d.csrWdata c)) =
      archCsr (c'.write d.csrAddr (d.csrWdata c')) := by
    by_cases hCounter : d.csrAddr = 0xB00#12 ∨ d.csrAddr = 0xB80#12
    · rw [archCsr_write_counter hCounter (d.csrWdata c) 0,
        archCsr_write_counter hCounter (d.csrWdata c') 0, archCsr_write, h, ← archCsr_write]
    · obtain ⟨h1, h2⟩ := not_or.mp hCounter
      have hData : d.csrWdata c = d.csrWdata c' := by
        unfold IduOut.csrWdata
        rw [← rdata_archCsr c h1 h2, ← rdata_archCsr c' h1 h2, h]
      rw [hData, archCsr_write, h, ← archCsr_write]
  rw [archCsr_step, archCsr_step]
  simp only [IduOut.csrIn]
  rw [hWrite, h]
  rfl

private theorem npc_archCsr (h : archCsr c = archCsr c') (d : IduOut) :
    d.npc c = d.npc c' := by
  have hMepc : c.mepc = c'.mepc := congrArg (fun a => a.mepc) h
  have hMtvec : c.mtvec = c'.mtvec := congrArg (fun a => a.mtvec) h
  simp only [IduOut.npc, IduOut.redirectPc, IduOut.trapPc, hMepc, hMtvec]

/-- A written-back value shows a counter only when the word reads one. -/
private theorem wbData_archCsr (h : archCsr c = archCsr c') {inst pc a b u : Word} {x : Bool}
    (hNo : ¬ ReadsCounter inst)
    (hWe : ((decodeTaken inst).rfWe && rdIdx inst != 0) = true) :
    (latch inst pc a b x u).wbData c = (latch inst pc a b x u).wbData c' := by
  have hCase := decodeCase inst
  simp only [Bool.and_eq_true, bne_iff_ne] at hWe
  have hRead : ∀ (_ : opcode inst = 0b1110011#7)
      (_ : funct3 inst = 0b001#3 ∨ funct3 inst = 0b010#3),
      c.rdata (csrAddrOf inst) = c'.rdata (csrAddrOf inst) := by
    intro hOp hF3
    have h1 : csrAddrOf inst ≠ 0xB00#12 := fun hA => hNo ⟨hOp, hF3, hWe.2, .inl hA⟩
    have h2 : csrAddrOf inst ≠ 0xB80#12 := fun hA => hNo ⟨hOp, hF3, hWe.2, .inr hA⟩
    rw [← rdata_archCsr c h1 h2, ← rdata_archCsr c' h1 h2, h]
  unfold latch
  generalize decodeTaken inst = k at hCase
  cases hCase with
  | csrrw hOp hF3 => exact hRead hOp (.inl hF3)
  | csrrs hOp hF3 => exact hRead hOp (.inr hF3)
  | _ => rfl

end Counter

/-- Two machine states that differ at most in the counter. -/
structure SameButCounter (s s' : SeqState) : Prop where
  pc : s.pc = s'.pc
  rf : s.rf = s'.rf
  csr : archCsr s.csr = archCsr s'.csr

/-- One instruction that does not read the counter: same output, and the
states still differ at most in it. -/
theorem exec_sameButCounter {s s' : SeqState} {c c' : Csr} {word : Word}
    (h : SameButCounter s s') (hCsr : archCsr c = archCsr c') (load : Word)
    (hNo : ¬ ReadsCounter word) :
    SameButCounter (s.exec (s.entry word c) load).1 (s'.exec (s'.entry word c') load).1 ∧
      (s.exec (s.entry word c) load).2 = (s'.exec (s'.entry word c') load).2 := by
  obtain ⟨pc, rf, csr⟩ := s
  obtain ⟨pc', rf', csr'⟩ := s'
  obtain ⟨hPc, hRf, -⟩ := h
  dsimp only at hPc hRf
  subst hPc hRf
  generalize hd : latch word pc (rf.read (rs1Idx word)) (rf.read (rs2Idx word))
    (misaligned pc) 0 = d
  have hNpc := npc_archCsr hCsr d
  have hRetired : Entry.retired ⟨d, c⟩ load = Entry.retired ⟨d, c'⟩ load := by
    simp only [Entry.retired, Entry.npc, hNpc, Entry.result]
    by_cases hWe : (d.rfWe && d.rd != 0) = true
    · have hWb : d.wbData c = d.wbData c' := by
        subst hd
        exact wbData_archCsr hCsr hNo hWe
      rw [hWb]
    · simp only [hWe, Bool.false_eq_true, if_false]
  simp only [SeqState.exec, SeqState.entry, hd, Entry.npc, Entry.csrNext]
  exact ⟨⟨hNpc, by rw [hRetired], archCsr_step_congr hCsr d⟩, by rw [hRetired]; rfl⟩

/-- **The counter does not matter** to a program that never reads it: fed from
outside or counting instructions, the machine shows the same. -/
theorem feedOuts_counter {feeds : List Feed} {s s' : SeqState} (h : SameButCounter s s')
    (hNo : ∀ f ∈ feeds, ¬ ReadsCounter f.word) :
    feedOuts clockedStep s feeds = feedOuts seqStep s' feeds := by
  induction feeds generalizing s s' with
  | nil => rfl
  | cons f feeds ih =>
      have hArch : archCsr { s.csr with mcycle := f.mcycle, mcycleh := f.mcycleh } =
          archCsr s'.csr := h.csr
      obtain ⟨hState, hOut⟩ := exec_sameButCounter h hArch f.load
        (hNo f (by simp))
      exact congrArg₂ List.cons hOut (ih hState fun f' hf' => hNo f' (by simp [hf']))

end Riscv32.Pipeline
