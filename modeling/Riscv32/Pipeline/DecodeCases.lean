import Riscv32.Rtl.Exu

/-!
# The decode table, read off once

`decodeTaken` is a chain of overrides.  `DecodeCase` lists the sixteen results
that chain can have together with the guard of each, so that a fact about
control signals is a case analysis over the table and never an unfolding of
the chain.

`decodeCase` says that the table is complete; it is the only proof that opens
the chain.  The second half of the file is what the table is used for most: an
instruction's effects depend on the operands its word uses and on no others
(`SameOperands`), one lemma for each effect: `npc_congr`, `csrStep_congr`,
`wbData_congr`, `memAddr_congr`.
-/

namespace Riscv32.Pipeline

open Riscv32.Rtl

/-- The possible results of the decode block for a word it takes. -/
inductive DecodeCase (inst : Word) : Ctrl → Prop
  | op (hOp : opcode inst = 0b0110011#7) :
      DecodeCase inst { rfWe := true, aluOp := opAluOp (funct3 inst) (funct7 inst) }
  | opImm (hOp : opcode inst = 0b0010011#7) :
      DecodeCase inst
        { rfWe := true, aluSrc2Sel := if funct3 inst = 0b101#3 then .shamt else .imm,
          aluOp := opImmAluOp (funct3 inst) (funct7 inst) }
  | jal (hOp : opcode inst = 0b1101111#7) :
      DecodeCase inst
        { rfWe := true, wbSel := .pc4, aluSrc1Sel := .curPc, aluSrc2Sel := .imm,
          isJal := true }
  | jalr (hOp : opcode inst = 0b1100111#7) (hF3 : funct3 inst = 0b000#3) :
      DecodeCase inst { rfWe := true, wbSel := .pc4, aluSrc2Sel := .imm, isJalr := true }
  | branch (hOp : opcode inst = 0b1100011#7) :
      DecodeCase inst { aluSrc1Sel := .curPc, aluSrc2Sel := .imm, isBranch := true }
  | lui (hOp : opcode inst = 0b0110111#7) :
      DecodeCase inst { rfWe := true, aluSrc1Sel := .zero, aluSrc2Sel := .imm }
  | auipc (hOp : opcode inst = 0b0010111#7) :
      DecodeCase inst { rfWe := true, aluSrc1Sel := .curPc, aluSrc2Sel := .imm }
  | load (hOp : opcode inst = 0b0000011#7) :
      DecodeCase inst { rfWe := true, wbSel := .mem, isLoad := true, aluSrc2Sel := .imm }
  | store (hOp : opcode inst = 0b0100011#7) :
      DecodeCase inst { aluSrc2Sel := .imm, isStore := true }
  | ecall (hInst : inst = ecallWord) :
      DecodeCase inst { isEcall := true, trapValid := true }
  | ebreak (hInst : inst = ebreakWord) : DecodeCase inst { isEbreak := true }
  | mret (hInst : inst = mretWord) : DecodeCase inst { isMret := true, trapValid := true }
  | csrrw (hOp : opcode inst = 0b1110011#7) (hF3 : funct3 inst = 0b001#3) :
      DecodeCase inst
        { rfWe := decide (rdIdx inst ≠ 0), wbSel := .csr, csrWen := true }
  | csrrs (hOp : opcode inst = 0b1110011#7) (hF3 : funct3 inst = 0b010#3) :
      DecodeCase inst
        { rfWe := decide (rdIdx inst ≠ 0), wbSel := .csr,
          csrWen := decide (rs1Idx inst ≠ 0), csrOpSel := .set }
  | fencei (hOp : opcode inst = 0b0001111#7) (hF3 : funct3 inst = 0b001#3) :
      DecodeCase inst { isFencei := true }
  | other (hQuiet : usesRs1 inst = false) (hEcall : inst ≠ ecallWord) : DecodeCase inst {}

/-! ## The chain, opcode by opcode -/

section Chain

variable {inst : Word}

/-- The three words matched whole all have the `SYSTEM` opcode. -/
private theorem not_whole {op : BitVec 7} (hOp : opcode inst = op) (h : op ≠ 0b1110011#7) :
    inst ≠ ecallWord ∧ inst ≠ ebreakWord ∧ inst ≠ mretWord := by
  subst hOp
  refine ⟨?_, ?_, ?_⟩ <;> rintro rfl <;> exact h (by decide)

/-- The three words matched whole have `funct3` zero. -/
private theorem not_whole_funct3 {f3 : BitVec 3} (hF3 : funct3 inst = f3) (h : f3 ≠ 0b000#3) :
    inst ≠ ecallWord ∧ inst ≠ ebreakWord ∧ inst ≠ mretWord := by
  subst hF3
  refine ⟨?_, ?_, ?_⟩ <;> rintro rfl <;> exact h (by decide)

/-- Register-register instructions. -/
theorem decodeTaken_op (hOp : opcode inst = 0b0110011#7) :
    decodeTaken inst =
      { rfWe := true, aluOp := opAluOp (funct3 inst) (funct7 inst) } := by
  obtain ⟨h1, h2, h3⟩ := not_whole hOp (by decide)
  simp only [decodeTaken, hOp, h1, h2, h3, BitVec.reduceEq, if_true, if_false, false_and]

/-- Register-immediate instructions; the shifts take their amount from the register
field. -/
theorem decodeTaken_opImm (hOp : opcode inst = 0b0010011#7) :
    decodeTaken inst =
      { rfWe := true, aluSrc2Sel := if funct3 inst = 0b101#3 then .shamt else .imm,
        aluOp := opImmAluOp (funct3 inst) (funct7 inst) } := by
  obtain ⟨h1, h2, h3⟩ := not_whole hOp (by decide)
  simp only [decodeTaken, hOp, h1, h2, h3, BitVec.reduceEq, if_true, if_false, false_and]

/-- A jump writes `pc + 4` and leaves the target to the adder. -/
theorem decodeTaken_jal (hOp : opcode inst = 0b1101111#7) :
    decodeTaken inst =
      { rfWe := true, wbSel := .pc4, aluSrc1Sel := .curPc, aluSrc2Sel := .imm, isJal := true } := by
  obtain ⟨h1, h2, h3⟩ := not_whole hOp (by decide)
  simp only [decodeTaken, hOp, h1, h2, h3, BitVec.reduceEq, if_true, if_false, false_and]

theorem decodeTaken_branch (hOp : opcode inst = 0b1100011#7) :
    decodeTaken inst =
      { aluSrc1Sel := .curPc, aluSrc2Sel := .imm, isBranch := true } := by
  obtain ⟨h1, h2, h3⟩ := not_whole hOp (by decide)
  simp only [decodeTaken, hOp, h1, h2, h3, BitVec.reduceEq, if_true, if_false, false_and]

theorem decodeTaken_lui (hOp : opcode inst = 0b0110111#7) :
    decodeTaken inst =
      { rfWe := true, aluSrc1Sel := .zero, aluSrc2Sel := .imm } := by
  obtain ⟨h1, h2, h3⟩ := not_whole hOp (by decide)
  simp only [decodeTaken, hOp, h1, h2, h3, BitVec.reduceEq, if_true, if_false, false_and]

theorem decodeTaken_auipc (hOp : opcode inst = 0b0010111#7) :
    decodeTaken inst =
      { rfWe := true, aluSrc1Sel := .curPc, aluSrc2Sel := .imm } := by
  obtain ⟨h1, h2, h3⟩ := not_whole hOp (by decide)
  simp only [decodeTaken, hOp, h1, h2, h3, BitVec.reduceEq, if_true, if_false, false_and]

theorem decodeTaken_load (hOp : opcode inst = 0b0000011#7) :
    decodeTaken inst =
      { rfWe := true, wbSel := .mem, isLoad := true, aluSrc2Sel := .imm } := by
  obtain ⟨h1, h2, h3⟩ := not_whole hOp (by decide)
  simp only [decodeTaken, hOp, h1, h2, h3, BitVec.reduceEq, if_true, if_false, false_and]

theorem decodeTaken_store (hOp : opcode inst = 0b0100011#7) :
    decodeTaken inst =
      { aluSrc2Sel := .imm, isStore := true } := by
  obtain ⟨h1, h2, h3⟩ := not_whole hOp (by decide)
  simp only [decodeTaken, hOp, h1, h2, h3, BitVec.reduceEq, if_true, if_false, false_and]

theorem decodeTaken_jalr (hOp : opcode inst = 0b1100111#7) (hF3 : funct3 inst = 0b000#3) :
    decodeTaken inst =
      { rfWe := true, wbSel := .pc4, aluSrc2Sel := .imm, isJalr := true } := by
  obtain ⟨h1, h2, h3⟩ := not_whole hOp (by decide)
  simp only [decodeTaken, hOp, hF3, h1, h2, h3, BitVec.reduceEq, if_true, if_false, and_self]

/-- Of the fences only `fence.i` has a row. -/
theorem decodeTaken_fence (hOp : opcode inst = 0b0001111#7) (hF3 : funct3 inst = 0b001#3) :
    decodeTaken inst = { isFencei := true } := by
  obtain ⟨h1, h2, h3⟩ := not_whole hOp (by decide)
  simp only [decodeTaken, hOp, hF3, h1, h2, h3, BitVec.reduceEq, if_true, if_false, and_self,
    false_and]

/-- A CSR access writes the register file only if there is a register to write. -/
theorem decodeTaken_csrrw (hOp : opcode inst = 0b1110011#7) (hF3 : funct3 inst = 0b001#3) :
    decodeTaken inst =
      { rfWe := decide (rdIdx inst ≠ 0), wbSel := .csr, csrWen := true } := by
  obtain ⟨h1, h2, h3⟩ := not_whole_funct3 hF3 (by decide)
  by_cases hRd : rdIdx inst = 0 <;>
    simp only [decodeTaken, hOp, hF3, h1, h2, h3, hRd, ne_eq, not_true, not_false_eq_true,
      decide_true, decide_false, BitVec.reduceEq, if_true, if_false, and_self, and_false,
      false_and]

theorem decodeTaken_csrrs (hOp : opcode inst = 0b1110011#7) (hF3 : funct3 inst = 0b010#3) :
    decodeTaken inst =
      { rfWe := decide (rdIdx inst ≠ 0), wbSel := .csr,
        csrWen := decide (rs1Idx inst ≠ 0), csrOpSel := .set } := by
  obtain ⟨h1, h2, h3⟩ := not_whole_funct3 hF3 (by decide)
  by_cases hRd : rdIdx inst = 0 <;> by_cases hRs : rs1Idx inst = 0 <;>
    simp only [decodeTaken, hOp, hF3, h1, h2, h3, hRd, hRs, ne_eq, not_true, not_false_eq_true,
      decide_true, decide_false, BitVec.reduceEq, if_true, if_false, and_self, and_false]

theorem decodeTaken_ecall : decodeTaken ecallWord = { isEcall := true, trapValid := true } := by
  decide

theorem decodeTaken_ebreak : decodeTaken ebreakWord = { isEbreak := true } := by decide

theorem decodeTaken_mret : decodeTaken mretWord = { isMret := true, trapValid := true } := by
  decide

end Chain

/-! ## The table -/

/-- The system opcode: the CSR accesses, the three exact words, and the rest. -/
private theorem decodeCase_system {inst : Word} (hOp : opcode inst = 0b1110011#7) :
    DecodeCase inst (decodeTaken inst) := by
  by_cases hEcall : inst = ecallWord
  · rw [hEcall, decodeTaken_ecall]; exact .ecall rfl
  by_cases hEbreak : inst = ebreakWord
  · rw [hEbreak, decodeTaken_ebreak]; exact .ebreak rfl
  by_cases hMret : inst = mretWord
  · rw [hMret, decodeTaken_mret]; exact .mret rfl
  by_cases hW : funct3 inst = 0b001#3
  · rw [decodeTaken_csrrw hOp hW]; exact .csrrw hOp hW
  by_cases hS : funct3 inst = 0b010#3
  · rw [decodeTaken_csrrs hOp hS]; exact .csrrs hOp hS
  · have h : decodeTaken inst = {} := by
      simp only [decodeTaken, hOp, hEcall, hEbreak, hMret, hW, hS, BitVec.reduceEq, if_false,
        false_and, and_false]
    rw [h]
    exact .other (by simp [usesRs1, hOp, hW, hS]) hEcall

/-- **The decode table is complete.** -/
theorem decodeCase (inst : Word) : DecodeCase inst (decodeTaken inst) := by
  by_cases hSystem : opcode inst = 0b1110011#7
  · exact decodeCase_system hSystem
  by_cases hOp : opcode inst = 0b0110011#7
  · rw [decodeTaken_op hOp]; exact .op hOp
  by_cases hOpImm : opcode inst = 0b0010011#7
  · rw [decodeTaken_opImm hOpImm]; exact .opImm hOpImm
  by_cases hJal : opcode inst = 0b1101111#7
  · rw [decodeTaken_jal hJal]; exact .jal hJal
  by_cases hBranch : opcode inst = 0b1100011#7
  · rw [decodeTaken_branch hBranch]; exact .branch hBranch
  by_cases hLui : opcode inst = 0b0110111#7
  · rw [decodeTaken_lui hLui]; exact .lui hLui
  by_cases hAuipc : opcode inst = 0b0010111#7
  · rw [decodeTaken_auipc hAuipc]; exact .auipc hAuipc
  by_cases hLoad : opcode inst = 0b0000011#7
  · rw [decodeTaken_load hLoad]; exact .load hLoad
  by_cases hStore : opcode inst = 0b0100011#7
  · rw [decodeTaken_store hStore]; exact .store hStore
  by_cases hJalr : opcode inst = 0b1100111#7 ∧ funct3 inst = 0b000#3
  · rw [decodeTaken_jalr hJalr.1 hJalr.2]; exact .jalr hJalr.1 hJalr.2
  by_cases hFence : opcode inst = 0b0001111#7 ∧ funct3 inst = 0b001#3
  · rw [decodeTaken_fence hFence.1 hFence.2]; exact .fencei hFence.1 hFence.2
  · obtain ⟨hEcall, hEbreak, hMret⟩ := not_whole rfl hSystem
    have h : decodeTaken inst = {} := by
      simp only [decodeTaken, hSystem, hEcall, hEbreak, hMret, hJalr, hFence, hOp, hOpImm, hJal,
        hBranch, hLui, hAuipc, hLoad, hStore, if_false, false_and]
    have hQuiet : usesRs1 inst = false := by
      unfold usesRs1
      split <;> first | contradiction | rfl | (rename_i hOp; simpa [hOp] using hJalr)
    rw [h]; exact .other hQuiet hEcall

/-! ## Consequences of the table -/

/-- A load is no store. -/
theorem isStore_of_isLoad {inst : Word} (h : (decodeTaken inst).isLoad = true) :
    (decodeTaken inst).isStore = false := by
  have hCase := decodeCase inst
  generalize decodeTaken inst = c at hCase h
  cases hCase <;> first | rfl | cases h

/-- A store writes no register. -/
theorem rfWe_of_isStore {inst : Word} (h : (decodeTaken inst).isStore = true) :
    (decodeTaken inst).rfWe = false := by
  have hCase := decodeCase inst
  generalize decodeTaken inst = c at hCase h
  cases hCase <;> first | rfl | cases h

/-- `fence.i` only raises its own flag. -/
theorem decodeTaken_fencei {inst : Word} (h : (decodeTaken inst).isFencei = true) :
    decodeTaken inst = { isFencei := true } := by
  have hCase := decodeCase inst
  generalize decodeTaken inst = c at hCase h
  cases hCase <;> first | rfl | cases h

/-- The word an exception entry carries decodes to nothing. -/
theorem decodeTaken_zero : decodeTaken 0 = {} := by decide

/-! ## Operands

A stage reads both source registers of every word it decodes.  What it reads
for a register the word does not use never reaches an architectural effect.
-/

/-- Two operand pairs that agree on what the word uses. -/
structure SameOperands (inst a b a' b' : Word) : Prop where
  src1 : usesRs1 inst = true → a = a'
  src2 : usesRs2 inst = true → b = b'

section Congruence

variable {inst a b a' b' : Word}

/-- The table with the agreement of the operands each case uses. -/
private theorem sameOperands_cases (h : SameOperands inst a b a' b') :
    DecodeCase inst (decodeTaken inst) ∧
      (opcode inst = 0b0110011#7 ∨ opcode inst = 0b0100011#7 ∨
        opcode inst = 0b1100011#7 → a = a' ∧ b = b') ∧
      (opcode inst = 0b0010011#7 ∨ opcode inst = 0b0000011#7 → a = a') ∧
      (opcode inst = 0b1100111#7 → funct3 inst = 0b000#3 → a = a') ∧
      (opcode inst = 0b1110011#7 →
        funct3 inst = 0b001#3 ∨ funct3 inst = 0b010#3 → a = a') := by
  refine ⟨decodeCase inst, ?_, ?_, ?_, ?_⟩
  · rintro (hOp | hOp | hOp) <;>
      exact ⟨h.src1 (by simp [usesRs1, hOp]), h.src2 (by simp [usesRs2, hOp])⟩
  · rintro (hOp | hOp) <;> exact h.src1 (by simp [usesRs1, hOp])
  · intro hOp hF3
    exact h.src1 (by simp [usesRs1, hOp, hF3])
  · rintro hOp (hF3 | hF3) <;> exact h.src1 (by simp [usesRs1, hOp, hF3])

variable {pc : Word} {x y : Bool} {u v : Word}

/-- The successor address depends only on used operands. -/
theorem npc_congr (h : SameOperands inst a b a' b') (csr : Csr) :
    (latch inst pc a b x u).npc csr = (latch inst pc a' b' y v).npc csr := by
  obtain ⟨hCase, hBoth, -, hJalr, -⟩ := sameOperands_cases h
  unfold latch
  generalize decodeTaken inst = c at hCase
  cases hCase with
  | branch hOp =>
      obtain ⟨rfl, rfl⟩ := hBoth (by simp [hOp])
      rfl
  | jalr hOp hF3 =>
      obtain rfl := hJalr hOp hF3
      rfl
  | _ =>
      simp only [IduOut.npc, IduOut.redirectValid, IduOut.redirectPc, IduOut.trapPc,
        IduOut.jalTarget, Bool.false_and, Bool.false_or, Bool.or_false, Bool.false_eq_true,
        if_true, if_false]

/-- The CSR side effect depends only on used operands. -/
theorem csrStep_congr (h : SameOperands inst a b a' b') (csr : Csr) (fire : Bool) :
    csr.step ((latch inst pc a b x u).csrIn csr fire) =
      csr.step ((latch inst pc a' b' y v).csrIn csr fire) := by
  obtain ⟨hCase, -, -, -, hCsr⟩ := sameOperands_cases h
  unfold latch
  generalize decodeTaken inst = c at hCase
  cases hCase with
  | csrrw hOp hF3 =>
      obtain rfl := hCsr hOp (.inl hF3)
      rfl
  | csrrs hOp hF3 =>
      obtain rfl := hCsr hOp (.inr hF3)
      rfl
  | _ => rfl

/-- The written-back value depends only on used operands. -/
theorem wbData_congr (h : SameOperands inst a b a' b') (csr : Csr)
    (hWe : (decodeTaken inst).rfWe = true) :
    (latch inst pc a b x u).wbData csr = (latch inst pc a' b' y v).wbData csr := by
  obtain ⟨hCase, hBoth, hImm, hJalr, hCsr⟩ := sameOperands_cases h
  unfold latch
  generalize decodeTaken inst = c at hCase hWe
  cases hCase with
  | op hOp =>
      obtain ⟨rfl, rfl⟩ := hBoth (by simp [hOp])
      rfl
  | opImm hOp =>
      obtain rfl := hImm (by simp [hOp])
      simp only [IduOut.wbData, IduOut.aluResult, IduOut.aluSrc1, IduOut.aluSrc2]
      by_cases hF3 : funct3 inst = 0b101#3 <;> simp [hF3]
  | branch => cases hWe
  | store => cases hWe
  | ecall => cases hWe
  | ebreak => cases hWe
  | mret => cases hWe
  | fencei => cases hWe
  | other => cases hWe
  | _ => rfl

/-- The address of a memory access depends only on used operands. -/
theorem memAddr_congr (h : SameOperands inst a b a' b')
    (hMem : (decodeTaken inst).isLoad = true ∨ (decodeTaken inst).isStore = true) :
    (latch inst pc a b x u).aluResult = (latch inst pc a' b' y v).aluResult := by
  obtain ⟨hCase, hBoth, hImm, -, -⟩ := sameOperands_cases h
  unfold latch
  generalize decodeTaken inst = c at hCase hMem
  cases hCase with
  | load hOp =>
      obtain rfl := hImm (by simp [hOp])
      rfl
  | store hOp =>
      obtain ⟨rfl, rfl⟩ := hBoth (by simp [hOp])
      rfl
  | _ => simp at hMem

end Congruence

end Riscv32.Pipeline
