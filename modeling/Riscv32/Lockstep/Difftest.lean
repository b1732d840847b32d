import Riscv32.Lockstep.Coherent

/-!
# Differential testing raises no false alarm

A committed instruction leaves the simulator's `cpu` and NEMU in the same
state: NEMU executes it with the same effect, or, where it accesses a device,
takes over the registers.

`Alike` is what is asked of an instruction: one of the common set, with an access
to plain memory inside an aligned word or to a device.  `agree_commit` is the
first case, by the lockstep theorem; `Agree.regcpy` with `device_keeps` the
second, where NEMU executes nothing and its registers are overwritten.

The remaining lemmas tie NEMU's own fetch to the word of the bus: it reads the
word from the memory the program was loaded into (`paddrRead_fetch`).
-/

namespace Riscv32.Lockstep

open Riscv32.Rtl
open Riscv32.Nemu
open Riscv32.Pipeline
open Riscv32.Clocked

/-! ## Instructions both sides implement alike -/

/-- The instruction is one of the common set, and accesses plain memory within
an aligned word or a device. -/
structure Alike (arch : Arch) (e : Entry) : Prop where
  fetch : readable .share e.d.pc = true
  matched : Matched e.d.inst
  noMulDiv : ¬ MulDiv e.d.inst
  csr : opcode e.d.inst = 0b1110011#7 →
    funct3 e.d.inst = 0b001#3 ∨ funct3 e.d.inst = 0b010#3 → CommonCsr (csrAddrOf e.d.inst)
  load : opcode e.d.inst = 0b0000011#7 → isMmioAddr arch e.loadAddr = false →
    readable .share e.loadAddr = true ∧ InWord e.loadAddr (accessLen (funct3 e.d.inst))
  store : opcode e.d.inst = 0b0100011#7 → isMmioAddr arch e.storeAddr = false →
    writable .share e.storeAddr = true ∧ InWord e.storeAddr (accessLen (funct3 e.d.inst))

instance (arch : Arch) (e : Entry) : Decidable (Alike arch e) :=
  have : Decidable (Matched e.d.inst) := by unfold Matched; infer_instance
  have : Decidable (MulDiv e.d.inst) := by unfold MulDiv; infer_instance
  have : Decidable (CommonCsr (csrAddrOf e.d.inst)) := by unfold CommonCsr; infer_instance
  have (a : Word) (n : Nat) : Decidable (InWord a n) := by unfold InWord; infer_instance
  decidable_of_iff
    (readable .share e.d.pc = true ∧ Matched e.d.inst ∧ ¬ MulDiv e.d.inst ∧
      (opcode e.d.inst = 0b1110011#7 →
        funct3 e.d.inst = 0b001#3 ∨ funct3 e.d.inst = 0b010#3 → CommonCsr (csrAddrOf e.d.inst)) ∧
      (opcode e.d.inst = 0b0000011#7 → isMmioAddr arch e.loadAddr = false →
        readable .share e.loadAddr = true ∧ InWord e.loadAddr (accessLen (funct3 e.d.inst))) ∧
      (opcode e.d.inst = 0b0100011#7 → isMmioAddr arch e.storeAddr = false →
        writable .share e.storeAddr = true ∧ InWord e.storeAddr (accessLen (funct3 e.d.inst))))
    ⟨fun ⟨h1, h2, h3, h4, h5, h6⟩ => ⟨h1, h2, h3, h4, h5, h6⟩,
      fun ⟨h1, h2, h3, h4, h5, h6⟩ => ⟨h1, h2, h3, h4, h5, h6⟩⟩

/-- A load or store of a device, which is what `skip_ref` marks. -/
def skips (arch : Arch) (e : Entry) : Bool :=
  (e.d.isLoad || e.d.isStore) && isMmioAddr arch e.d.aluResult

/-- The machine with the cycle counter of the entry. -/
def withCounter (q : SeqState) (e : Entry) : SeqState :=
  { q with csr := { q.csr with mcycle := e.csr.mcycle, mcycleh := e.csr.mcycleh } }

section OneInstruction

variable {arch : Arch} {q : SeqState} {mem : Pmem} {m : Machine} {pc : Word} {e : Entry}
  {data : Word}

theorem Agree.withCounter (h : Agree q mem m pc) (e : Entry) :
    Agree (withCounter q e) mem m pc := by
  obtain ⟨hPc, hGpr, ⟨h1, h2, h3, h4⟩, hMem⟩ := h
  exact ⟨hPc, hGpr, ⟨h1, h2, h3, h4⟩, hMem⟩

/-- The entry is the one the machine itself makes of the word. -/
theorem sameOperands_of_matches (hMatch : Matches q e) :
    SameOperands e.d.inst e.d.src1Data e.d.src2Data (q.rf.read (rs1Idx e.d.inst))
      (q.rf.read (rs2Idx e.d.inst)) :=
  ⟨hMatch.src1, hMatch.src2⟩

theorem aluResult_eq (hWf : e.WellFormed) (hMatch : Matches q e)
    (hMem : e.d.isLoad = true ∨ e.d.isStore = true) :
    (q.entry e.d.inst (withCounter q e).csr).d.aluResult = e.d.aluResult := by
  have hFlag : (decodeTaken e.d.inst).isLoad = true ∨ (decodeTaken e.d.inst).isStore = true := by
    rwa [← hWf.ctrl]
  calc (latch e.d.inst q.pc (q.rf.read (rs1Idx e.d.inst)) (q.rf.read (rs2Idx e.d.inst))
        (misaligned q.pc) 0).aluResult
      = (latch e.d.inst q.pc e.d.src1Data e.d.src2Data e.d.exceptionValid
          e.d.exceptionCause).aluResult :=
        (memAddr_congr (sameOperands_of_matches hMatch) hFlag).symm
    _ = (latch e.d.inst e.d.pc e.d.src1Data e.d.src2Data e.d.exceptionValid
          e.d.exceptionCause).aluResult := by rw [hMatch.pc]
    _ = e.d.aluResult := congrArg IduOut.aluResult hWf.symm

/-- The stores of the entry and of the machine's own entry are the same. -/
theorem storeOf_entry (hWf : e.WellFormed) (hMatch : Matches q e) :
    storeOf arch mem (q.entry e.d.inst (withCounter q e).csr) = storeOf arch mem e := by
  have hStore : (q.entry e.d.inst (withCounter q e).csr).d.isStore = e.d.isStore := by
    rw [hWf.ctrl]
    rfl
  unfold storeOf
  rw [hStore]
  cases hIs : e.d.isStore with
  | false => rfl
  | true =>
      have hFlag : isStoreWord e.d.inst = true := (wellFormed_fields hWf).2.2.2 ▸ hIs
      have hOp : opcode e.d.inst = 0b0100011#7 := by simpa [isStoreWord] using hFlag
      have hData : (q.entry e.d.inst (withCounter q e).csr).d.storeData = e.d.storeData := by
        have hUse := hMatch.src2 (by simp [usesRs2, hOp])
        simp only [IduOut.storeData, hStore, hIs]
        exact hUse.symm
      rw [aluResult_eq hWf hMatch (.inr hIs), hData, (wellFormed_fields hWf).2.1]
      rfl

/-- The machine, fed for the entry, does what `rtlStep` does, except that
nothing is stored to a device. -/
theorem clockedStep_eq (hWf : e.WellFormed) (hMatch : Matches q e)
    (hPlain : skips arch e = false)
    (hData : e.d.isLoad = true → Received arch mem e data) :
    (rtlStep (withCounter q e) mem e.d.inst).1 = (clockedStep q (e.feed data)).1 ∧
      (rtlStep (withCounter q e) mem e.d.inst).2 = storeOf arch mem e := by
  have hLoadEq : (q.entry e.d.inst (withCounter q e).csr).d.isLoad = e.d.isLoad := by
    rw [hWf.ctrl]
    rfl
  have hStoreEq : (q.entry e.d.inst (withCounter q e).csr).d.isStore = e.d.isStore := by
    rw [hWf.ctrl]
    rfl
  generalize hOwn : q.entry e.d.inst (withCounter q e).csr = e' at hLoadEq hStoreEq
  have hAddr : e.d.isLoad = true ∨ e.d.isStore = true → e'.d.aluResult = e.d.aluResult :=
    fun h => hOwn ▸ aluResult_eq hWf hMatch h
  have hNear : e.d.isLoad = true ∨ e.d.isStore = true →
      isMmioAddr arch e.d.aluResult = false := by
    intro h
    simpa [skips, h] using hPlain
  have hFeed : clockedStep q (e.feed data) = q.exec e' data := hOwn ▸ rfl
  have hRtl : rtlStep (withCounter q e) mem e.d.inst =
      (((withCounter q e).exec e' (busWord mem e'.d.aluResult)).1,
        if e'.d.isStore then
          writeLanes mem e'.d.aluResult
            (storeWdata e'.d.storeSize e'.d.aluResult e'.d.storeData)
            (storeWstrb e'.d.storeSize e'.d.aluResult)
        else mem) := hOwn ▸ rfl
  rw [hRtl, hFeed, ← storeOf_entry hWf hMatch, hOwn]
  refine ⟨?_, ?_⟩
  · have hRetired : e'.retired (busWord mem e'.d.aluResult) = e'.retired data := by
      cases hLoad : e.d.isLoad with
      | true =>
          rw [hAddr (.inl hLoad), ← hData hLoad (hNear (.inl hLoad))]
      | false =>
          simp only [Entry.retired, Entry.result, hLoadEq, hLoad, Bool.false_eq_true, if_false]
    simp only [SeqState.exec, hRetired]
    rfl
  · unfold storeOf applyStore
    cases hStore : e'.d.isStore with
    | false => rfl
    | true =>
        have hIs : e.d.isStore = true := hStoreEq ▸ hStore
        rw [if_pos rfl, if_pos rfl, if_neg]
        rw [hAddr (.inr hIs), hNear (.inr hIs)]
        exact Bool.false_ne_true

/-! ### NEMU -/

/-- Only `ebreak` and the last line of the table end the program. -/
theorem body_nemuState {b : Build} {o : Operand} {n : Name} {m' : Machine} {dnpc : Word}
    (hBody : body b m pc o n = some (m', dnpc)) (hEbreak : n ≠ .ebreak) (hInv : n ≠ .inv) :
    m'.nemuState = m.nemuState := by
  cases n <;> simp only [body, Option.map_eq_some_iff, Option.some.injEq, Prod.mk.injEq,
    isaRaiseIntr] at hBody
  all_goals first
    | contradiction
    | grind [Machine.setReg, Machine.setCsr]

/-- The word is in the common set in the state of the machine. -/
theorem common_of_alike (hWf : e.WellFormed) (hMatch : Matches q e)
    (hRegs : RegsBelow16 e.d.inst) (hAlike : Alike arch e) (hPlain : skips arch e = false) :
    Common .share (withCounter q e) e.d.inst where
  regs := hRegs
  noMulDiv := hAlike.noMulDiv
  csr := hAlike.csr
  load := by
    intro hOp
    have hWord : isLoadWord e.d.inst = true := by simp [isLoadWord, hOp]
    have hIs : e.d.isLoad = true := (wellFormed_fields hWf).2.2.1.trans hWord
    have hNear : isMmioAddr arch e.loadAddr = false := by
      rw [← loadAddr_eq hWf hWord]
      simpa [skips, hIs] using hPlain
    have hAddr : q.rf.read (rs1Idx e.d.inst) + immI e.d.inst = e.loadAddr := by
      rw [← hMatch.src1 (by simp [usesRs1, hOp])]
      rfl
    exact hAddr ▸ hAlike.load hOp hNear
  store := by
    intro hOp
    have hWord : isStoreWord e.d.inst = true := by simp [isStoreWord, hOp]
    have hIs : e.d.isStore = true := (wellFormed_fields hWf).2.2.2.trans hWord
    have hNear : isMmioAddr arch e.storeAddr = false := by
      rw [← storeAddr_eq hWf hWord]
      simpa [skips, hIs] using hPlain
    have hAddr : q.rf.read (rs1Idx e.d.inst) + immS e.d.inst = e.storeAddr := by
      rw [← hMatch.src1 (by simp [usesRs1, hOp])]
      rfl
    exact hAddr ▸ hAlike.store hOp hNear

/-- **An instruction of plain memory** on both sides. -/
theorem agree_commit (h : Agree q mem m pc) (hWf : e.WellFormed) (hMatch : Matches q e)
    (hRegs : RegsBelow16 e.d.inst) (hAlike : Alike arch e) (hPlain : skips arch e = false)
    (hData : e.d.isLoad = true → Received arch mem e data) :
    ∃ m' dnpc, decodeExec .share m pc e.d.inst = some (m', dnpc) ∧
      Agree (clockedStep q (e.feed data)).1 (storeOf arch mem e) m' dnpc ∧
      (e.d.inst ≠ ebreakWord → m'.nemuState = m.nemuState) := by
  obtain ⟨r, hFind, hInv⟩ := hAlike.matched.find
  obtain ⟨hType, hEnc⟩ := enc_of_find hFind
  have hCommon := common_of_alike hWf hMatch hRegs hAlike hPlain
  obtain ⟨m', dnpc, hBody, hAgree⟩ := locked_of_line (h.withCounter e) hCommon hEnc hInv
  obtain ⟨hState, hMem⟩ := clockedStep_eq hWf hMatch hPlain hData
  rw [hState, hMem] at hAgree
  refine ⟨m'.setReg 0 0, dnpc, ?_, hAgree, fun hNe => ?_⟩
  · simp only [decodeExec, hFind, hType, hBody, Option.map_some]
  · have hName : r.name ≠ .ebreak := fun hName =>
      hNe (hEnc (.word ebreakWord) (by rw [hName]; rfl))
    calc (m'.setReg 0 0).nemuState = m'.nemuState := rfl
      _ = m.nemuState := body_nemuState hBody hName hInv

/-! ### Devices -/

/-- `difftest_regcpy` brings NEMU to the state of the simulator, which has
written no CSR and no memory that NEMU has not. -/
theorem Agree.regcpy {q' : SeqState} {mem' : Pmem} {r : Ref} {cpu : CPUArchState}
    (hPc : cpu.pc = q'.pc) (hGpr : ∀ i : BitVec 5, i.toNat < 16 → cpu.gpr i = q'.rf.read i)
    (hCsr : CsrAgree q'.csr r.machine.csr) (hMem : mem' = r.machine.pmem) :
    Agree q' mem' (r.regcpy cpu).machine (r.regcpy cpu).pc where
  pc := hPc.symm
  gpr := fun i hi => by
    simp only [Ref.regcpy, hi, if_true]
    exact (hGpr i hi).symm
  csr := ⟨hCsr.mstatus, hCsr.mtvec, hCsr.mepc, hCsr.mcause⟩
  mem := hMem

/-- A load or store of a device changes neither CSRs nor memory. -/
theorem device_keeps (data : Word) (h : Agree q mem m pc) (hWf : e.WellFormed)
    (hSkip : skips arch e = true) :
    CsrAgree (clockedStep q (e.feed data)).1.csr m.csr ∧ storeOf arch mem e = mem := by
  simp only [skips, Bool.and_eq_true, Bool.or_eq_true] at hSkip
  obtain ⟨hMem, hMmio⟩ := hSkip
  have hQuiet : ((decodeTaken e.d.inst).csrWen || (decodeTaken e.d.inst).isEcall) = false := by
    rw [hWf.ctrl] at hMem
    have hCase := decodeCase e.d.inst
    generalize decodeTaken e.d.inst = c at hCase hMem
    cases hCase <;> simp_all
  refine ⟨?_, ?_⟩
  · have hKeep : archCsr ((withCounter q e).entry e.d.inst (withCounter q e).csr).csrNext =
        archCsr (withCounter q e).csr := csr_keep rfl hQuiet
    exact csrAgree_of_arch hKeep (h.withCounter e).csr
  · unfold storeOf
    split
    · exact if_pos hMmio
    · rfl

end OneInstruction

/-! ## Words from memory -/

section Fetched

variable {arch : Arch} {mem : Pmem} {s : Core} {inp : Nat → CoreIn} {t : Nat}

/-- NEMU fetches the word of the bus. -/
theorem paddrRead_fetch {pc : Word} (hPc : misaligned pc = false)
    (hRead : readable .share pc = true) :
    paddrRead .share mem pc 4 = some (busWord mem pc) := by
  have hLane : (lane pc).toNat = 0 := by
    have hLow : pc.extractLsb' 0 2 = 0 := by simpa [misaligned] using hPc
    exact congrArg BitVec.toNat hLow
  have hIn : InWord pc 4 := by
    unfold InWord
    omega
  rw [paddrRead, if_pos hRead, ← loadExtract_lw mem hIn]
  have hShift : (pc.extractLsb' 0 2).toNat = 0 := hLane
  simp [loadExtract, hShift]

end Fetched

end Riscv32.Lockstep
