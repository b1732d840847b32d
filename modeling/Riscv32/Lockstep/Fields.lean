import Mathlib.Tactic.IntervalCases
import Riscv32.Nemu.Inst

/-!
# Instruction fields on both sides

NEMU cuts fields out of a word with 64-bit masks and shifts, the decode unit
with bit slices.  Both see the same register numbers and immediates; and a line
of NEMU's table accepts a word that has the opcode and function fields of that
instruction, and no other.

The 48 patterns are not looked at as strings here.  `Enc` says which fields an
instruction fixes, `Enc.pattern` is the decoded pattern of these fields, and
`instpats_pattern` is the one computation over the table; the rest is about `Enc`.

## Main results

* `Enc.accepts_iff` — the pattern accepts exactly the words that have the fields.
* `enc_of_find` — the first line that accepts a word is that of an instruction
  whose fields the word has.
-/

namespace Riscv32.Lockstep

open Riscv32.Rtl
open Riscv32.Nemu

/-! ## Masks and slices, bit by bit -/

private theorem lowMask {n : Nat} (h : n < 64) :
    (1#64 <<< n) - 1 = (BitVec.allOnes n).setWidth 64 := by
  apply BitVec.eq_of_toNat_eq
  have hp : 2 ^ n < 2 ^ 64 := Nat.pow_lt_pow_right (by decide) h
  have hPos : 0 < 2 ^ n := Nat.two_pow_pos n
  have hOne : (1#64 <<< n).toNat = 2 ^ n := by
    rw [BitVec.toNat_shiftLeft, Nat.shiftLeft_eq]
    simpa using hp
  simp only [BitVec.toNat_sub, hOne, BitVec.toNat_setWidth, BitVec.toNat_allOnes,
    BitVec.ofNat_eq_ofNat, BitVec.toNat_ofNat]
  omega

theorem getLsbD_bits (x : Word) {hi lo : Nat} (j : Nat) (h : hi < 32) :
    (bits x hi lo).getLsbD j = (decide (j < hi - lo + 1) && x.getLsbD (lo + j)) := by
  rw [bits, lowMask (by omega)]
  simp only [BitVec.getLsbD_and, BitVec.getLsbD_setWidth, BitVec.getLsbD_ushiftRight,
    BitVec.getLsbD_allOnes]
  by_cases hj : j < hi - lo + 1
  · have h64 : j < 64 := by omega
    simp [hj, h64]
  · simp [hj]

theorem getLsbD_sext (x : BitVec 64) {len : Nat} (j : Nat) (h : 0 < len) :
    (sext x len).getLsbD j =
      (decide (j < 64) && if j < len then x.getLsbD j else x.getLsbD (len - 1)) := by
  have hLast : len - 1 < len := by omega
  simp only [sext, BitVec.getLsbD_signExtend, BitVec.getLsbD_setWidth,
    BitVec.msb_eq_getLsbD_last, hLast, decide_true, Bool.true_and]
  by_cases hj : j < len <;> simp [hj]

theorem getLsbD_signs (n : Nat) (inst : Word) (j : Nat) :
    (signs n inst).getLsbD j = (decide (j < n) && inst.getLsbD 31) := by
  simp only [signs, BitVec.getLsbD_cast, BitVec.getLsbD_replicate, BitVec.getLsbD_extractLsb',
    Nat.one_mul, Nat.mod_one]
  simp

theorem bits_extract (x : Word) (hi lo : Nat) (h : hi < 32) :
    (bits x hi lo).setWidth (hi - lo + 1) = x.extractLsb' lo (hi - lo + 1) := by
  apply BitVec.eq_of_getLsbD_eq
  intro j hj
  simp [getLsbD_bits x j h, hj]

/-! ## Immediates -/

section Immediates

variable (i : Word)

theorem nemuImmI_eq : nemuImmI i = immI i := by
  apply BitVec.eq_of_getLsbD_eq
  intro j hj
  simp (disch := decide) only [nemuImmI, immI, getLsbD_sext, getLsbD_signs, getLsbD_bits,
    BitVec.getLsbD_setWidth, BitVec.getLsbD_append, BitVec.getLsbD_extractLsb']
  interval_cases j <;> simp

theorem nemuImmU_eq : nemuImmU i = immU i := by
  apply BitVec.eq_of_getLsbD_eq
  intro j hj
  simp (disch := decide) only [nemuImmU, immU, getLsbD_sext, getLsbD_bits,
    BitVec.getLsbD_setWidth, BitVec.getLsbD_append, BitVec.getLsbD_extractLsb',
    BitVec.getLsbD_shiftLeft]
  interval_cases j <;> simp

theorem nemuImmS_eq : nemuImmS i = immS i := by
  apply BitVec.eq_of_getLsbD_eq
  intro j hj
  simp (disch := decide) only [nemuImmS, immS, getLsbD_sext, getLsbD_signs, getLsbD_bits,
    BitVec.getLsbD_setWidth, BitVec.getLsbD_append, BitVec.getLsbD_extractLsb',
    BitVec.getLsbD_or, BitVec.getLsbD_shiftLeft]
  interval_cases j <;> simp

theorem nemuImmJ_eq : nemuImmJ i = immJ i := by
  apply BitVec.eq_of_getLsbD_eq
  intro j hj
  simp (disch := decide) only [nemuImmJ, immJ, getLsbD_sext, getLsbD_signs, getLsbD_bits,
    BitVec.getLsbD_setWidth, BitVec.getLsbD_append, BitVec.getLsbD_extractLsb',
    BitVec.getLsbD_or, BitVec.getLsbD_shiftLeft]
  interval_cases j <;> simp

theorem nemuImmB_eq : nemuImmB i = immB i := by
  apply BitVec.eq_of_getLsbD_eq
  intro j hj
  simp (disch := decide) only [nemuImmB, immB, getLsbD_sext, getLsbD_signs, getLsbD_bits,
    BitVec.getLsbD_setWidth, BitVec.getLsbD_append, BitVec.getLsbD_extractLsb',
    BitVec.getLsbD_or, BitVec.getLsbD_shiftLeft]
  interval_cases j <;> simp

theorem nemuImmSH_eq : nemuImmSH i = shamtOf i := by
  apply BitVec.eq_of_getLsbD_eq
  intro j hj
  simp (disch := decide) only [nemuImmSH, shamtOf, getLsbD_bits, BitVec.getLsbD_setWidth,
    BitVec.getLsbD_append, BitVec.getLsbD_extractLsb']
  interval_cases j <;> simp

theorem nemuImmCSRI_eq : (nemuImmCSRI i).setWidth 12 = csrAddrOf i := by
  apply BitVec.eq_of_getLsbD_eq
  intro j hj
  simp (disch := decide) only [nemuImmCSRI, csrAddrOf, getLsbD_bits, BitVec.getLsbD_setWidth,
    BitVec.getLsbD_extractLsb']
  interval_cases j <;> simp

end Immediates

/-! ## Register numbers -/

theorem nemuRs1_eq (i : Word) : (bits i 19 15).setWidth 5 = rs1Idx i :=
  bits_extract i 19 15 (by decide)

theorem nemuRs2_eq (i : Word) : (bits i 24 20).setWidth 5 = rs2Idx i :=
  bits_extract i 24 20 (by decide)

theorem nemuRd_eq (i : Word) : (bits i 11 7).setWidth 5 = rdIdx i :=
  bits_extract i 11 7 (by decide)

/-! ## Encodings -/

/-- Which fields of a word an instruction fixes. -/
inductive Enc
  | opcode (op : BitVec 7)
  | funct3 (op : BitVec 7) (f3 : BitVec 3)
  | funct7 (op : BitVec 7) (f3 : BitVec 3) (f7 : BitVec 7)
  | word (w : Word)
deriving DecidableEq, Repr

/-- The word has the fields. -/
def Enc.holds (e : Enc) (inst : Word) : Prop :=
  match e with
  | .opcode op => Rtl.opcode inst = op
  | .funct3 op f3 => Rtl.opcode inst = op ∧ Rtl.funct3 inst = f3
  | .funct7 op f3 f7 =>
      Rtl.opcode inst = op ∧ Rtl.funct3 inst = f3 ∧ Rtl.funct7 inst = f7
  | .word w => inst = w

/-- The pattern of these fields: the mask covers them and nothing else. -/
def Enc.pattern (e : Enc) : Pattern :=
  match e with
  | .opcode op => ⟨op.setWidth 64, 0x7f, 0⟩
  | .funct3 op f3 => ⟨f3.setWidth 64 <<< 12 ||| op.setWidth 64, 0x707f, 0⟩
  | .funct7 op f3 f7 =>
      ⟨f7.setWidth 64 <<< 25 ||| f3.setWidth 64 <<< 12 ||| op.setWidth 64, 0xfe00707f, 0⟩
  | .word w => ⟨w.setWidth 64, 0xffffffff, 0⟩

/-- The same fields, with the values that the word has there. -/
def Enc.read (e : Enc) (inst : Word) : Enc :=
  match e with
  | .opcode _ => .opcode (Rtl.opcode inst)
  | .funct3 _ _ => .funct3 (Rtl.opcode inst) (Rtl.funct3 inst)
  | .funct7 _ _ _ => .funct7 (Rtl.opcode inst) (Rtl.funct3 inst) (Rtl.funct7 inst)
  | .word _ => .word inst

theorem Enc.read_eq_iff {e : Enc} {inst : Word} : e.read inst = e ↔ e.holds inst := by
  cases e <;> simp [Enc.read, Enc.holds]

/-- The key of an encoding, field by field. -/
theorem Enc.key_eq (e : Enc) :
    e.pattern.key =
      match e with
      | .opcode op => placed op 0
      | .funct3 op f3 => placed f3 12 ||| placed op 0
      | .funct7 op f3 f7 => placed f7 25 ||| placed f3 12 ||| placed op 0
      | .word w => placed w 0 := by
  cases e <;> simp only [placed_zero] <;> rfl

/-- The mask of an encoding has ones in the same places. -/
theorem Enc.mask_eq (e : Enc) :
    e.pattern.mask =
      match e with
      | .opcode _ => placed (BitVec.allOnes 7) 0
      | .funct3 _ _ => placed (BitVec.allOnes 3) 12 ||| placed (BitVec.allOnes 7) 0
      | .funct7 _ _ _ =>
          placed (BitVec.allOnes 7) 25 ||| placed (BitVec.allOnes 3) 12 |||
            placed (BitVec.allOnes 7) 0
      | .word _ => placed (BitVec.allOnes 32) 0 := by
  cases e <;> rfl

/-- The masked word is the key of the fields it has. -/
theorem Enc.and_mask (e : Enc) (inst : Word) :
    inst.setWidth 64 &&& e.pattern.mask = (e.read inst).pattern.key := by
  rw [Enc.mask_eq, Enc.key_eq]
  cases e <;> simp (disch := decide) only [Enc.read, Rtl.opcode, Rtl.funct3, Rtl.funct7,
    BitVec.and_or_distrib_left, and_placed_allOnes, BitVec.extractLsb'_eq_self]

/-- The key determines the fields. -/
theorem Enc.read_eq_of_key {e : Enc} {inst : Word}
    (h : (e.read inst).pattern.key = e.pattern.key) : e.read inst = e := by
  rw [Enc.key_eq, Enc.key_eq] at h
  have hAt := fun lo len => congrArg (·.extractLsb' lo len) h
  cases e with
  | opcode op =>
      have hOp := hAt 0 7
      simp (disch := decide) only [Enc.read, extract_placed] at hOp
      rw [Enc.read, hOp]
  | funct3 op f3 =>
      have hOp := hAt 0 7
      have hF3 := hAt 12 3
      simp (disch := decide) only [Enc.read, BitVec.extractLsb'_or, extract_placed,
        extract_placed_apart, BitVec.zero_eq, BitVec.zero_or, BitVec.or_zero] at hOp hF3
      rw [Enc.read, hOp, hF3]
  | funct7 op f3 f7 =>
      have hOp := hAt 0 7
      have hF3 := hAt 12 3
      have hF7 := hAt 25 7
      simp (disch := decide) only [Enc.read, BitVec.extractLsb'_or, extract_placed,
        extract_placed_apart, BitVec.zero_eq, BitVec.zero_or, BitVec.or_zero] at hOp hF3 hF7
      rw [Enc.read, hOp, hF3, hF7]
  | word w =>
      have hWord := hAt 0 32
      simp (disch := decide) only [Enc.read, extract_placed] at hWord
      rw [Enc.read, hWord]

/-- The pattern accepts the words that have the fields. -/
theorem Enc.accepts_iff {e : Enc} {inst : Word} :
    e.pattern.accepts inst = true ↔ e.holds inst := by
  have hShift : e.pattern.shift = 0 := by cases e <;> rfl
  have hKey : e.pattern.accepts inst = true ↔ (e.read inst).pattern.key = e.pattern.key := by
    rw [← Enc.and_mask]
    simp [Pattern.accepts, hShift]
  rw [hKey, ← Enc.read_eq_iff]
  refine ⟨Enc.read_eq_of_key, fun h => ?_⟩
  rw [h]

/-- The fields of each instruction of NEMU's table. -/
def encOf (n : Name) : Option Enc :=
  match n with
  | .auipc => some (.opcode 0b0010111#7)
  | .lui => some (.opcode 0b0110111#7)
  | .lbu => some (.funct3 0b0000011#7 0b100#3)
  | .lb => some (.funct3 0b0000011#7 0b000#3)
  | .lh => some (.funct3 0b0000011#7 0b001#3)
  | .lw => some (.funct3 0b0000011#7 0b010#3)
  | .lhu => some (.funct3 0b0000011#7 0b101#3)
  | .sltiu => some (.funct3 0b0010011#7 0b011#3)
  | .srli => some (.funct7 0b0010011#7 0b101#3 0b0000000#7)
  | .slli => some (.funct7 0b0010011#7 0b001#3 0b0000000#7)
  | .srai => some (.funct7 0b0010011#7 0b101#3 0b0100000#7)
  | .sb => some (.funct3 0b0100011#7 0b000#3)
  | .sh => some (.funct3 0b0100011#7 0b001#3)
  | .sw => some (.funct3 0b0100011#7 0b010#3)
  | .add => some (.funct7 0b0110011#7 0b000#3 0b0000000#7)
  | .fence => some (.funct3 0b0001111#7 0b001#3)
  | .sll => some (.funct7 0b0110011#7 0b001#3 0b0000000#7)
  | .slt => some (.funct7 0b0110011#7 0b010#3 0b0000000#7)
  | .sltu => some (.funct7 0b0110011#7 0b011#3 0b0000000#7)
  | .xor => some (.funct7 0b0110011#7 0b100#3 0b0000000#7)
  | .srl => some (.funct7 0b0110011#7 0b101#3 0b0000000#7)
  | .sra => some (.funct7 0b0110011#7 0b101#3 0b0100000#7)
  | .or => some (.funct7 0b0110011#7 0b110#3 0b0000000#7)
  | .and => some (.funct7 0b0110011#7 0b111#3 0b0000000#7)
  | .sub => some (.funct7 0b0110011#7 0b000#3 0b0100000#7)
  | .mul => some (.funct7 0b0110011#7 0b000#3 0b0000001#7)
  | .mulh => some (.funct7 0b0110011#7 0b001#3 0b0000001#7)
  | .mulhsu => some (.funct7 0b0110011#7 0b010#3 0b0000001#7)
  | .mulhu => some (.funct7 0b0110011#7 0b011#3 0b0000001#7)
  | .div => some (.funct7 0b0110011#7 0b100#3 0b0000001#7)
  | .divu => some (.funct7 0b0110011#7 0b101#3 0b0000001#7)
  | .rem => some (.funct7 0b0110011#7 0b110#3 0b0000001#7)
  | .remu => some (.funct7 0b0110011#7 0b111#3 0b0000001#7)
  | .addi => some (.funct3 0b0010011#7 0b000#3)
  | .slti => some (.funct3 0b0010011#7 0b010#3)
  | .xori => some (.funct3 0b0010011#7 0b100#3)
  | .ori => some (.funct3 0b0010011#7 0b110#3)
  | .andi => some (.funct3 0b0010011#7 0b111#3)
  | .jalr => some (.funct3 0b1100111#7 0b000#3)
  | .jal => some (.opcode 0b1101111#7)
  | .bne => some (.funct3 0b1100011#7 0b001#3)
  | .beq => some (.funct3 0b1100011#7 0b000#3)
  | .blt => some (.funct3 0b1100011#7 0b100#3)
  | .bge => some (.funct3 0b1100011#7 0b101#3)
  | .bltu => some (.funct3 0b1100011#7 0b110#3)
  | .bgeu => some (.funct3 0b1100011#7 0b111#3)
  | .ebreak => some (.word ebreakWord)
  | .ecall => some (.word ecallWord)
  | .csrrw => some (.funct3 0b1110011#7 0b001#3)
  | .csrrs => some (.funct3 0b1110011#7 0b010#3)
  | .mret => some (.word mretWord)
  | .inv => none

/-- The operand type of each instruction of NEMU's table. -/
def typeOf (n : Name) : Ty :=
  match n with
  | .auipc => .U
  | .lui => .U
  | .lbu => .I
  | .lb => .I
  | .lh => .I
  | .lw => .I
  | .lhu => .I
  | .sltiu => .I
  | .srli => .SH
  | .slli => .SH
  | .srai => .SH
  | .sb => .S
  | .sh => .S
  | .sw => .S
  | .add => .R
  | .fence => .I
  | .sll => .R
  | .slt => .R
  | .sltu => .R
  | .xor => .R
  | .srl => .R
  | .sra => .R
  | .or => .R
  | .and => .R
  | .sub => .R
  | .mul => .R
  | .mulh => .R
  | .mulhsu => .R
  | .mulhu => .R
  | .div => .R
  | .divu => .R
  | .rem => .R
  | .remu => .R
  | .addi => .I
  | .slti => .I
  | .xori => .I
  | .ori => .I
  | .andi => .I
  | .jalr => .I
  | .jal => .J
  | .bne => .B
  | .beq => .B
  | .blt => .B
  | .bge => .B
  | .bltu => .B
  | .bgeu => .B
  | .ebreak => .N
  | .ecall => .N
  | .csrrw => .CSRI
  | .csrrs => .CSRI
  | .mret => .N
  | .inv => .N

/-- Every line before the last shows exactly the fields of its instruction. -/
theorem instpats_pattern :
    instpats.all (fun r => r.type == typeOf r.name &&
      (r.name == .inv ||
        patternDecode (cBytes r.pattern) == (encOf r.name).map Enc.pattern)) = true := by
  decide +kernel

/-- **The table read by fields.**  The first line that accepts a word is that
of an instruction whose fields the word has. -/
theorem enc_of_find {inst : Word} {r : Row}
    (h : instpats.find? (·.accepts inst) = some r) :
    r.type = typeOf r.name ∧ ∀ e, encOf r.name = some e → e.holds inst := by
  have hMem := List.mem_of_find?_eq_some h
  have hAccept : r.accepts inst = true := by simpa using List.find?_some h
  have hRow := List.all_eq_true.mp instpats_pattern r hMem
  simp only [Bool.and_eq_true, Bool.or_eq_true, beq_iff_eq] at hRow
  refine ⟨hRow.1, fun e he => ?_⟩
  have hPat : patternDecode (cBytes r.pattern) = some e.pattern := by
    rcases hRow.2 with hInv | hPat
    · rw [hInv] at he
      cases he
    · rw [hPat, he]
      rfl
  unfold Row.accepts at hAccept
  rw [hPat] at hAccept
  exact Enc.accepts_iff.mp hAccept

end Riscv32.Lockstep
