import Riscv32.Isa.Arith
import Riscv32.Nemu.Windows
import Riscv32.Lockstep.Fields

/-!
# NEMU against the specification

`decode_exec` on the words of its table that are unprivileged RV32IM
instructions, compared with the specification.  NEMU has no
instruction-address-misaligned exception: a jump to a target that is not a
multiple of four is made.

The specification runs in the environment `nemuEnv`, where a load or a store
completes if all its bytes lie in one window of memory.  NEMU tests the first
address only; an access that starts inside a window and runs over its end
(`RunsOver`) leaves the backing array, and nothing is said about it here.  All
other accesses either complete on both sides or leave memory on both.

Each line of the table is compared once (`line_spec`), by its shape: a register
computed, a load, a store, a jump, a branch.

## Main results

* `decodeExec_spec` — the line that runs executes the instruction of the word.
* `nemu_executes_rv32im` — the comparison for every word and state.
-/

namespace Riscv32.Nemu

open Riscv32.Rtl
open Riscv32.Lockstep

/-! ## Both machines -/

/-- The hart of the specification that NEMU simulates. -/
def hart (m : Machine) (pc : Word) : Isa.Hart := ⟨m.gpr, m.pmem, pc⟩

/-- A step of the hart in NEMU: nothing else changes. -/
def Machine.withHart (m : Machine) (h : Isa.Hart) : Machine × Word :=
  ({ m with gpr := h.x, pmem := h.mem }, h.pc)

/-- NEMU's memory map: an access completes if all its bytes lie in one window.
Every jump target is accepted. -/
def nemuEnv (b : Build) : Isa.Env where
  canLoad := insideWindow b false
  canStore := insideWindow b true
  aligned _ := true

/-- The memory access of an instruction: whether it writes, where, and how many bytes. -/
def accessOf (i : Isa.Inst) (h : Isa.Hart) : Option (Bool × Word × Nat) :=
  match i with
  | .load op _ rs1 imm => some (false, h.get rs1 + imm.signExtend 32, op.bytes)
  | .store op rs1 _ imm => some (true, h.get rs1 + imm.signExtend 32, op.bytes)
  | _ => none

/-- The instruction accesses memory from inside a window on over its end, where NEMU
leaves the backing array. -/
def RunsOver (b : Build) (i : Isa.Inst) (h : Isa.Hart) : Prop :=
  ∃ isWrite addr len, accessOf i h = some (isWrite, addr, len) ∧
    ∃ r ∈ branches b isWrite, r.Covers addr ∧ r.contains addr len = false

/-- The instruction that NEMU's line `name` stands for, with the operands of
the word; the privileged lines and `fence` have none. -/
def instOf (name : Name) (w : Word) : Option Isa.Inst :=
  let load (op : Isa.LoadOp) := some (.load op (Isa.rd w) (Isa.rs1 w) (Isa.immI w))
  let store (op : Isa.StoreOp) := some (.store op (Isa.rs1 w) (Isa.rs2 w) (Isa.immS w))
  let opImm (op : Isa.ImmOp) := some (.opImm op (Isa.rd w) (Isa.rs1 w) (Isa.immI w))
  let shiftImm (op : Isa.ShiftOp) := some (.shiftImm op (Isa.rd w) (Isa.rs1 w) (Isa.rs2 w))
  let op (op : Isa.RegOp) := some (.op op (Isa.rd w) (Isa.rs1 w) (Isa.rs2 w))
  let branch (op : Isa.BranchOp) := some (.branch op (Isa.rs1 w) (Isa.rs2 w) (Isa.offsetB w))
  match name with
  | .auipc => some (.auipc (Isa.rd w) (Isa.immU w))
  | .lui => some (.lui (Isa.rd w) (Isa.immU w))
  | .lbu => load .lbu
  | .lb => load .lb
  | .lh => load .lh
  | .lw => load .lw
  | .lhu => load .lhu
  | .sltiu => opImm .sltiu
  | .srli => shiftImm .srli
  | .slli => shiftImm .slli
  | .srai => shiftImm .srai
  | .sb => store .sb
  | .sh => store .sh
  | .sw => store .sw
  | .add => op .add
  | .sll => op .sll
  | .slt => op .slt
  | .sltu => op .sltu
  | .xor => op .xor
  | .srl => op .srl
  | .sra => op .sra
  | .or => op .or
  | .and => op .and
  | .sub => op .sub
  | .mul => op .mul
  | .mulh => op .mulh
  | .mulhsu => op .mulhsu
  | .mulhu => op .mulhu
  | .div => op .div
  | .divu => op .divu
  | .rem => op .rem
  | .remu => op .remu
  | .addi => opImm .addi
  | .slti => opImm .slti
  | .xori => opImm .xori
  | .ori => opImm .ori
  | .andi => opImm .andi
  | .jalr => some (.jalr (Isa.rd w) (Isa.rs1 w) (Isa.immI w))
  | .jal => some (.jal (Isa.rd w) (Isa.offsetJ w))
  | .bne => branch .bne
  | .beq => branch .beq
  | .blt => branch .blt
  | .bge => branch .bge
  | .bltu => branch .bltu
  | .bgeu => branch .bgeu
  | .fence | .ebreak | .ecall | .csrrw | .csrrs | .mret | .inv => none

/-- A word with the fields of the line encodes that instruction. -/
theorem decode_of_enc {n : Name} {e : Enc} {w : Word} {i : Isa.Inst} (he : encOf n = some e)
    (hw : e.holds w) (hi : instOf n w = some i) : Isa.decode w = some i := by
  cases n <;> cases he <;> cases hi <;>
    simp only [Enc.holds, Rtl.opcode, Rtl.funct3, Rtl.funct7] at hw <;>
    simp [Isa.decode, Isa.opcode, Isa.funct3, Isa.funct7, Isa.shiftOp, Isa.regOp, Isa.immOp,
      Isa.branchOp, Isa.loadOp, Isa.storeOp, hw]

/-! ## Operands -/

section Immediates

variable (w : Word)

theorem immI_spec : nemuImmI w = (Isa.immI w).signExtend 32 := by
  rw [nemuImmI_eq]
  apply BitVec.eq_of_getLsbD_eq
  intro j hj
  simp only [Rtl.immI, Isa.immI, getLsbD_signs, BitVec.getLsbD_append, BitVec.getLsbD_extractLsb',
    BitVec.getLsbD_signExtend, BitVec.msb_eq_getLsbD_last]
  interval_cases j <;> simp

theorem immS_spec : nemuImmS w = (Isa.immS w).signExtend 32 := by
  rw [nemuImmS_eq]
  apply BitVec.eq_of_getLsbD_eq
  intro j hj
  simp only [Rtl.immS, Isa.immS, getLsbD_signs, BitVec.getLsbD_append, BitVec.getLsbD_extractLsb',
    BitVec.getLsbD_signExtend, BitVec.msb_eq_getLsbD_last]
  interval_cases j <;> simp

theorem immU_spec : nemuImmU w = (Isa.immU w ++ 0#12 : BitVec 32) := nemuImmU_eq w

theorem immB_spec : nemuImmB w = (Isa.offsetB w).signExtend 32 := by
  rw [nemuImmB_eq]
  apply BitVec.eq_of_getLsbD_eq
  intro j hj
  simp only [Rtl.immB, Isa.offsetB, getLsbD_signs, BitVec.getLsbD_append,
    BitVec.getLsbD_extractLsb', BitVec.getLsbD_signExtend, BitVec.msb_eq_getLsbD_last]
  interval_cases j <;> simp

theorem immJ_spec : nemuImmJ w = (Isa.offsetJ w).signExtend 32 := by
  rw [nemuImmJ_eq]
  apply BitVec.eq_of_getLsbD_eq
  intro j hj
  simp only [Rtl.immJ, Isa.offsetJ, getLsbD_signs, BitVec.getLsbD_append,
    BitVec.getLsbD_extractLsb', BitVec.getLsbD_signExtend, BitVec.msb_eq_getLsbD_last]
  interval_cases j <;> simp

theorem immSH_spec : (nemuImmSH w).toNat = (Isa.rs2 w).toNat := by
  rw [nemuImmSH_eq, shamtOf, BitVec.toNat_append]
  simp [Isa.rs2]

end Immediates

/-! ## Memory -/

section Memory

variable (mem : Pmem) (a : Word)

theorem hostRead_byte : (hostRead mem a 1).toNat = Isa.loadBytes mem a 1 := by
  have hByte := (mem a).isLt
  simp only [hostRead, Isa.loadBytes, BitVec.toNat_setWidth]
  omega

theorem hostRead_half : (hostRead mem a 2).toNat = Isa.loadBytes mem a 2 := by
  have h0 := (mem a).isLt
  have h1 := (mem (a + 1)).isLt
  simp only [hostRead, Isa.loadBytes, BitVec.toNat_setWidth, BitVec.toNat_append]
  rw [← Nat.shiftLeft_add_eq_or_of_lt h0, Nat.shiftLeft_eq]
  omega

theorem hostRead_word : (hostRead mem a 4).toNat = Isa.loadBytes mem a 4 := Isa.toNat_word a mem

/-- A loaded value that is taken as it is. -/
theorem zext_spec (v : Word) {k : Nat} (hk : v.toNat = k) : v = BitVec.ofNat 32 k := by
  rw [← hk, BitVec.ofNat_toNat, BitVec.setWidth_eq]

/-- `SEXT` of a loaded value. -/
theorem sext_spec (v : Word) {n k : Nat} (hk : v.toNat = k) :
    (sext (v.setWidth 64) n).setWidth 32 = (BitVec.ofNat n k).signExtend 32 := by
  have hLow : (v.setWidth 64).setWidth n = BitVec.ofNat n k := by
    rw [← hk]
    apply BitVec.eq_of_toNat_eq
    rw [BitVec.toNat_setWidth, BitVec.toNat_setWidth, BitVec.toNat_ofNat,
      Nat.mod_eq_of_lt (Nat.lt_of_lt_of_le v.isLt (by decide))]
  rw [sext, hLow]
  apply BitVec.eq_of_getLsbD_eq
  intro j hj
  simp only [BitVec.getLsbD_setWidth, BitVec.getLsbD_signExtend, hj, show j < 64 by omega,
    decide_true, Bool.true_and]

theorem hostWrite_spec (len : Nat) (hLen : len = 1 ∨ len = 2 ∨ len = 4) (v : Word) :
    hostWrite mem a len v = Isa.storeBytes mem a len v := by
  funext x
  simp only [hostWrite, Isa.storeBytes, hLen, and_true, Isa.extractLsb'_byte]

end Memory

/-! ## The ends of the windows -/

section Ends

variable {b : Build} {i : Isa.Inst} {h : Isa.Hart} {isWrite : Bool} {addr : Word} {len : Nat}

/-- Apart from the ends, a memory branch is taken for the accesses that complete. -/
theorem taken_eq (hAccess : accessOf i h = some (isWrite, addr, len)) (hLen : 0 < len)
    (hEnd : ¬ RunsOver b i h) :
    (selected b isWrite addr).isSome = insideWindow b isWrite addr len := by
  rw [Bool.eq_iff_iff]
  constructor
  · intro hTaken
    obtain ⟨⟨r, offset⟩, hSelected⟩ := Option.isSome_iff_exists.1 hTaken
    obtain ⟨hr, hCovers, -⟩ := selected_iff.1 hSelected
    refine List.any_eq_true.2 ⟨r, hr, ?_⟩
    by_contra hOut
    exact hEnd ⟨isWrite, addr, len, hAccess, r, hr, hCovers, Bool.not_eq_true _ ▸ hOut⟩
  · intro hIn
    obtain ⟨r, -, -, hSelected⟩ := insideWindow_selected hLen hIn
    rw [hSelected]
    rfl

theorem insideWindow_over {r : Region} (hLen : 0 < len) (hr : r ∈ branches b isWrite)
    (hCovers : r.Covers addr) (hOver : r.contains addr len = false) :
    insideWindow b isWrite addr len = false := by
  refine Bool.eq_false_iff.2 fun hIn => ?_
  obtain ⟨r', hr', hContains, -⟩ := insideWindow_selected hLen hIn
  obtain rfl := branches_unique hr hr' hCovers (covers_of_contains hLen hContains)
  rw [hContains] at hOver
  cases hOver

/-- The specification has an access fault there. -/
theorem accessFault_of_runsOver (hEnd : RunsOver b i h) :
    Isa.exec (nemuEnv b).ialign32 i h = .error .accessFault := by
  obtain ⟨isWrite, addr, len, hAccess, r, hr, hCovers, hOver⟩ := hEnd
  cases i with
  | load op rd rs1 imm =>
      cases hAccess
      have hOut := insideWindow_over (by cases op <;> decide) hr hCovers hOver
      simp [Isa.exec, Isa.Env.ialign32, nemuEnv, hOut]
  | store op rs1 rs2 imm =>
      cases hAccess
      have hOut := insideWindow_over (by cases op <;> decide) hr hCovers hOver
      simp [Isa.exec, Isa.Env.ialign32, nemuEnv, hOut]
  | _ => cases hAccess

end Ends

/-! ## One line of the table -/

section Lines

variable {b : Build} {m : Machine} {pc w : Word}

theorem get_hart (hZero : m.gpr 0 = 0) (r : BitVec 5) : (hart m pc).get r = m.gpr r := by
  unfold Isa.Hart.get hart
  split
  case isTrue h => rw [h, hZero]
  case isFalse => rfl

theorem setReg_zero (hZero : m.gpr 0 = 0) : m.setReg 0 0 = m := by
  have hGpr : (fun r => if r = 0 then 0 else m.gpr r) = m.gpr := by
    funext r
    split
    case isTrue h => rw [h, hZero]
    case isFalse => rfl
  rw [Machine.setReg, hGpr]

/-- A result in NEMU, where `x0` is reset afterwards, and in the specification. -/
theorem setReg_spec (hZero : m.gpr 0 = 0) (rd : BitVec 5) (v dnpc : Word) :
    ((m.setReg rd v).setReg 0 0, dnpc) = m.withHart ((hart m dnpc).set rd v) := by
  unfold Isa.Hart.set
  split
  case isTrue h =>
    have hTwice : (m.setReg rd v).setReg 0 0 = m.setReg 0 0 := by
      rw [h]
      simp only [Machine.setReg]
      congr 1
      funext r
      split <;> rfl
    rw [hTwice, setReg_zero hZero]
    rfl
  case isFalse h =>
    have hGpr : (fun r => if r = 0 then 0 else if r = rd then v else m.gpr r) =
        fun r => if r = rd then v else m.gpr r := by
      funext r
      split
      case isTrue hr => rw [hr, if_neg (Ne.symm h), hZero]
      case isFalse => rfl
    simp only [Machine.setReg, Machine.withHart, hart, hGpr]

theorem storeMem_spec (hZero : m.gpr 0 = 0) (mem : Pmem) :
    ({ m with pmem := mem }.setReg 0 0 : Machine) = { m with pmem := mem } :=
  setReg_zero (m := { m with pmem := mem }) hZero

/-- What a line leaves, with `x0` reset. -/
def lineResult (b : Build) (m : Machine) (pc w : Word) (n : Name) : Option (Machine × Word) :=
  (body b m pc (decodeOperand m w (typeOf n)) n).map fun p => (p.1.setReg 0 0, p.2)

/-- What the specification leaves. -/
def specResult (b : Build) (m : Machine) (pc : Word) (i : Isa.Inst) : Option (Machine × Word) :=
  (Isa.exec (nemuEnv b) i (hart m pc)).toOption.map m.withHart

/-- A line that computes a register. -/
theorem line_reg (hZero : m.gpr 0 = 0) {n : Name} {i : Isa.Inst} {v v' : Word}
    (hBody : body b m pc (decodeOperand m w (typeOf n)) n = some (m.setReg (Isa.rd w) v, pc + 4))
    (hExec : Isa.exec (nemuEnv b) i (hart m pc) = .ok ((hart m (pc + 4)).set (Isa.rd w) v'))
    (hValue : v = v') : lineResult b m pc w n = specResult b m pc i := by
  rw [lineResult, hBody, specResult, hExec, ← hValue]
  exact congrArg some (setReg_spec hZero _ _ _)

/-- A load that does not run over the end of a window. -/
theorem line_load (hZero : m.gpr 0 = 0) (n : Name) (op : Isa.LoadOp) (f : Word → Word)
    (hBody : body b m pc (decodeOperand m w (typeOf n)) n =
      (paddrRead b m.pmem (m.gpr (Isa.rs1 w) + nemuImmI w) op.bytes).map fun v =>
        (m.setReg (Isa.rd w) (f v), pc + 4))
    (hValue : ∀ a, f (hostRead m.pmem a op.bytes) = op.value m.pmem a)
    (hEnd : ¬ RunsOver b (.load op (Isa.rd w) (Isa.rs1 w) (Isa.immI w)) (hart m pc)) :
    lineResult b m pc w n =
      specResult b m pc (.load op (Isa.rd w) (Isa.rs1 w) (Isa.immI w)) := by
  have hLen : 0 < op.bytes := by cases op <;> decide
  have hTaken : readable b (m.gpr (Isa.rs1 w) + (Isa.immI w).signExtend 32) =
      insideWindow b false (m.gpr (Isa.rs1 w) + (Isa.immI w).signExtend 32) op.bytes := by
    rw [readable_selected]
    refine taken_eq ?_ hLen hEnd
    rw [accessOf, get_hart hZero]
  rw [lineResult, hBody, specResult, Isa.exec, get_hart hZero, paddrRead, immI_spec, hTaken]
  by_cases hMem :
      insideWindow b false (m.gpr (Isa.rs1 w) + (Isa.immI w).signExtend 32) op.bytes = true
  · rw [if_pos hMem, if_pos (show (nemuEnv b).canLoad _ _ = true from hMem)]
    simp only [Option.map_some, hValue, Except.toOption]
    exact congrArg some (setReg_spec hZero _ _ _)
  · rw [if_neg hMem, if_neg (show ¬ (nemuEnv b).canLoad _ _ = true from hMem)]
    rfl

/-- A store that does not run over the end of a window. -/
theorem line_store (hZero : m.gpr 0 = 0) {n : Name} {op : Isa.StoreOp}
    (hBody : body b m pc (decodeOperand m w (typeOf n)) n =
      (paddrWrite b m.pmem (m.gpr (Isa.rs1 w) + nemuImmS w) op.bytes (m.gpr (Isa.rs2 w))).map
        fun mem => ({ m with pmem := mem }, pc + 4))
    (hEnd : ¬ RunsOver b (.store op (Isa.rs1 w) (Isa.rs2 w) (Isa.immS w)) (hart m pc)) :
    lineResult b m pc w n =
      specResult b m pc (.store op (Isa.rs1 w) (Isa.rs2 w) (Isa.immS w)) := by
  have hLen : op.bytes = 1 ∨ op.bytes = 2 ∨ op.bytes = 4 := by cases op <;> decide
  have hTaken : writable b (m.gpr (Isa.rs1 w) + (Isa.immS w).signExtend 32) =
      insideWindow b true (m.gpr (Isa.rs1 w) + (Isa.immS w).signExtend 32) op.bytes := by
    rw [writable_selected]
    refine taken_eq ?_ (by omega) hEnd
    rw [accessOf, get_hart hZero]
  rw [lineResult, hBody, specResult, Isa.exec, get_hart hZero, get_hart hZero, paddrWrite,
    immS_spec, hTaken]
  by_cases hMem :
      insideWindow b true (m.gpr (Isa.rs1 w) + (Isa.immS w).signExtend 32) op.bytes = true
  · rw [if_pos hMem, if_pos (show (nemuEnv b).canStore _ _ = true from hMem),
      hostWrite_spec _ _ _ hLen]
    simp only [Option.map_some, storeMem_spec hZero, Except.toOption]
    rfl
  · rw [if_neg hMem, if_neg (show ¬ (nemuEnv b).canStore _ _ = true from hMem)]
    rfl

/-- A jump with its link. -/
theorem line_jump (hZero : m.gpr 0 = 0) {n : Name} {i : Isa.Inst} {target : Word}
    (hBody : body b m pc (decodeOperand m w (typeOf n)) n =
      some (m.setReg (Isa.rd w) (pc + 4), target))
    (hExec : Isa.exec (nemuEnv b) i (hart m pc) =
      .ok { (hart m pc).set (Isa.rd w) (pc + 4) with pc := target }) :
    lineResult b m pc w n = specResult b m pc i := by
  have hTarget : { (hart m pc).set (Isa.rd w) (pc + 4) with pc := target } =
      (hart m target).set (Isa.rd w) (pc + 4) := by
    unfold Isa.Hart.set
    split <;> rfl
  rw [lineResult, hBody, specResult, hExec, hTarget]
  exact congrArg some (setReg_spec hZero _ _ _)

/-- A conditional branch. -/
theorem line_branch (hZero : m.gpr 0 = 0) {n : Name} {op : Isa.BranchOp} {c : Bool}
    (hBody : body b m pc (decodeOperand m w (typeOf n)) n =
      some (m, if c then pc + nemuImmB w else pc + 4))
    (hTaken : c = op.taken (m.gpr (Isa.rs1 w)) (m.gpr (Isa.rs2 w))) :
    lineResult b m pc w n =
      specResult b m pc (.branch op (Isa.rs1 w) (Isa.rs2 w) (Isa.offsetB w)) := by
  rw [lineResult, hBody, specResult, Isa.exec, get_hart hZero, get_hart hZero, immB_spec,
    ← hTaken]
  simp only [Option.map_some, setReg_zero hZero]
  cases c <;> rfl

section Registers

variable {n : Name} {v : Word}

/-- A line of the shape `R(rd) = v`. -/
theorem line_op (hZero : m.gpr 0 = 0) {op : Isa.RegOp}
    (hBody : body b m pc (decodeOperand m w (typeOf n)) n = some (m.setReg (Isa.rd w) v, pc + 4))
    (hValue : v = op.value (m.gpr (Isa.rs1 w)) (m.gpr (Isa.rs2 w))) :
    lineResult b m pc w n = specResult b m pc (.op op (Isa.rd w) (Isa.rs1 w) (Isa.rs2 w)) := by
  refine line_reg hZero hBody rfl ?_
  rw [get_hart hZero, get_hart hZero, hValue]

theorem line_opImm (hZero : m.gpr 0 = 0) {op : Isa.ImmOp}
    (hBody : body b m pc (decodeOperand m w (typeOf n)) n = some (m.setReg (Isa.rd w) v, pc + 4))
    (hValue : v = op.value (m.gpr (Isa.rs1 w)) (nemuImmI w)) :
    lineResult b m pc w n = specResult b m pc (.opImm op (Isa.rd w) (Isa.rs1 w) (Isa.immI w)) := by
  refine line_reg hZero hBody rfl ?_
  rw [get_hart hZero, hValue, immI_spec]

theorem line_shiftImm (hZero : m.gpr 0 = 0) {op : Isa.ShiftOp}
    (hBody : body b m pc (decodeOperand m w (typeOf n)) n = some (m.setReg (Isa.rd w) v, pc + 4))
    (hValue : v = op.value (m.gpr (Isa.rs1 w)) (nemuImmSH w).toNat) :
    lineResult b m pc w n =
      specResult b m pc (.shiftImm op (Isa.rd w) (Isa.rs1 w) (Isa.rs2 w)) := by
  refine line_reg hZero hBody rfl ?_
  rw [get_hart hZero, hValue, immSH_spec]

end Registers

/-- The operands of a line. -/
theorem operand_eq (m : Machine) (w : Word) :
    decodeOperand m w .I =
        { rd := Isa.rd w, src1 := m.gpr (Isa.rs1 w), imm := nemuImmI w } ∧
      decodeOperand m w .R =
        { rd := Isa.rd w, src1 := m.gpr (Isa.rs1 w), src2 := m.gpr (Isa.rs2 w) } ∧
      decodeOperand m w .U = { rd := Isa.rd w, imm := nemuImmU w } ∧
      decodeOperand m w .S =
        { rd := Isa.rd w, src1 := m.gpr (Isa.rs1 w), src2 := m.gpr (Isa.rs2 w),
          imm := nemuImmS w } ∧
      decodeOperand m w .J = { rd := Isa.rd w, imm := nemuImmJ w } ∧
      decodeOperand m w .B =
        { rd := Isa.rd w, src1 := m.gpr (Isa.rs1 w), src2 := m.gpr (Isa.rs2 w),
          imm := nemuImmB w } ∧
      decodeOperand m w .SH =
        { rd := Isa.rd w, src1 := m.gpr (Isa.rs1 w), imm := nemuImmSH w } := by
  simp only [decodeOperand, nemuRd_eq, nemuRs1_eq, nemuRs2_eq]
  exact ⟨rfl, rfl, rfl, rfl, rfl, rfl, rfl⟩

/-- **Each line does what the specification says**, short of the ends of the windows. -/
theorem line_spec (hZero : m.gpr 0 = 0) {n : Name} {i : Isa.Inst} (hi : instOf n w = some i)
    (hEnd : ¬ RunsOver b i (hart m pc)) : lineResult b m pc w n = specResult b m pc i := by
  obtain ⟨hI, hR, hU, hS, hJ, hB, hSH⟩ := operand_eq m w
  cases n with
  | auipc =>
      cases hi
      exact line_reg hZero (congrArg (body b m pc · .auipc) hU) rfl
        (congrArg (pc + ·) (immU_spec w))
  | lui =>
      cases hi
      exact line_reg hZero (congrArg (body b m pc · .lui) hU) rfl (immU_spec w)
  | lbu =>
      cases hi
      exact line_load hZero .lbu .lbu id (by simp only [typeOf, hI, body, Isa.LoadOp.bytes])
        (fun a => zext_spec _ (hostRead_byte m.pmem a)) hEnd
  | lb =>
      cases hi
      exact line_load hZero .lb .lb (fun v => (sext (v.setWidth 64) 8).setWidth 32)
        (by simp only [typeOf, hI, body, Isa.LoadOp.bytes])
        (fun a => sext_spec _ (hostRead_byte m.pmem a)) hEnd
  | lh =>
      cases hi
      exact line_load hZero .lh .lh (fun v => (sext (v.setWidth 64) 16).setWidth 32)
        (by simp only [typeOf, hI, body, Isa.LoadOp.bytes])
        (fun a => sext_spec _ (hostRead_half m.pmem a)) hEnd
  | lw =>
      cases hi
      exact line_load hZero .lw .lw id (by simp only [typeOf, hI, body, Isa.LoadOp.bytes])
        (fun a => zext_spec _ (hostRead_word m.pmem a)) hEnd
  | lhu =>
      cases hi
      exact line_load hZero .lhu .lhu id (by simp only [typeOf, hI, body, Isa.LoadOp.bytes])
        (fun a => zext_spec _ (hostRead_half m.pmem a)) hEnd
  | sb =>
      cases hi
      exact line_store hZero (by simp only [typeOf, hS, body, Isa.StoreOp.bytes]) hEnd
  | sh =>
      cases hi
      exact line_store hZero (by simp only [typeOf, hS, body, Isa.StoreOp.bytes]) hEnd
  | sw =>
      cases hi
      exact line_store hZero (by simp only [typeOf, hS, body, Isa.StoreOp.bytes]) hEnd
  | addi => cases hi; exact line_opImm hZero (congrArg (body b m pc · .addi) hI) rfl
  | slti => cases hi; exact line_opImm hZero (congrArg (body b m pc · .slti) hI) rfl
  | sltiu => cases hi; exact line_opImm hZero (congrArg (body b m pc · .sltiu) hI) rfl
  | xori => cases hi; exact line_opImm hZero (congrArg (body b m pc · .xori) hI) rfl
  | ori => cases hi; exact line_opImm hZero (congrArg (body b m pc · .ori) hI) rfl
  | andi => cases hi; exact line_opImm hZero (congrArg (body b m pc · .andi) hI) rfl
  | slli =>
      cases hi
      exact line_shiftImm hZero (congrArg (body b m pc · .slli) hSH) (Isa.shiftLeft_eq _ _)
  | srli =>
      cases hi
      exact line_shiftImm hZero (congrArg (body b m pc · .srli) hSH) (Isa.shiftRightLogical_eq _ _)
  | srai =>
      cases hi
      exact line_shiftImm hZero (congrArg (body b m pc · .srai) hSH) (Isa.shiftRightArith_eq _ _)
  | add => cases hi; exact line_op hZero (congrArg (body b m pc · .add) hR) rfl
  | sub => cases hi; exact line_op hZero (congrArg (body b m pc · .sub) hR) rfl
  | xor => cases hi; exact line_op hZero (congrArg (body b m pc · .xor) hR) rfl
  | or => cases hi; exact line_op hZero (congrArg (body b m pc · .or) hR) rfl
  | and => cases hi; exact line_op hZero (congrArg (body b m pc · .and) hR) rfl
  | slt => cases hi; exact line_op hZero (congrArg (body b m pc · .slt) hR) rfl
  | sltu => cases hi; exact line_op hZero (congrArg (body b m pc · .sltu) hR) rfl
  | sll => cases hi; exact line_op hZero (congrArg (body b m pc · .sll) hR) (Isa.sll_eq _ _)
  | srl => cases hi; exact line_op hZero (congrArg (body b m pc · .srl) hR) (Isa.srl_eq _ _)
  | sra => cases hi; exact line_op hZero (congrArg (body b m pc · .sra) hR) (Isa.sra_eq _ _)
  | mul => cases hi; exact line_op hZero (congrArg (body b m pc · .mul) hR) (Isa.mul_eq _ _)
  | mulh => cases hi; exact line_op hZero (congrArg (body b m pc · .mulh) hR) (Isa.mulh_eq _ _)
  | mulhsu =>
      cases hi
      exact line_op hZero (congrArg (body b m pc · .mulhsu) hR) (Isa.mulhsu_eq _ _)
  | mulhu =>
      cases hi
      exact line_op hZero (congrArg (body b m pc · .mulhu) hR) (Isa.mulhu_eq _ _)
  | divu => cases hi; exact line_op hZero (congrArg (body b m pc · .divu) hR) (Isa.divu_eq _ _)
  | remu => cases hi; exact line_op hZero (congrArg (body b m pc · .remu) hR) (Isa.remu_eq _ _)
  | div =>
      cases hi
      refine line_op hZero ?_ (Isa.div_eq _ _)
      rw [typeOf, hR, body]
      dsimp only
      split
      · rfl
      · split <;> rfl
  | rem =>
      cases hi
      refine line_op hZero ?_ (Isa.rem_eq _ _)
      rw [typeOf, hR, body]
      dsimp only
      split
      · rfl
      · split <;> rfl
  | jalr =>
      cases hi
      refine line_jump hZero (congrArg (body b m pc · .jalr) hI) ?_
      rw [Isa.exec, get_hart hZero, ← immI_spec]
      rfl
  | jal =>
      cases hi
      refine line_jump hZero (congrArg (body b m pc · .jal) hJ) ?_
      rw [Isa.exec, ← immJ_spec]
      rfl
  | beq => cases hi; exact line_branch hZero (congrArg (body b m pc · .beq) hB) rfl
  | bne =>
      cases hi
      refine line_branch hZero (congrArg (body b m pc · .bne) hB) ?_
      simp [Isa.BranchOp.taken, bne, beq_eq_decide]
  | blt => cases hi; exact line_branch hZero (congrArg (body b m pc · .blt) hB) rfl
  | bge =>
      cases hi
      refine line_branch hZero (congrArg (body b m pc · .bge) hB) ?_
      simp [Isa.BranchOp.taken, BitVec.slt_eq_decide, ← decide_not]
  | bltu => cases hi; exact line_branch hZero (congrArg (body b m pc · .bltu) hB) rfl
  | bgeu =>
      cases hi
      refine line_branch hZero (congrArg (body b m pc · .bgeu) hB) ?_
      simp [Isa.BranchOp.taken, BitVec.ult_eq_decide, ← decide_not]
  | fence | ebreak | ecall | csrrw | csrrs | mret | inv => cases hi

end Lines

/-! ## Every word -/

/-- The lines of the table that are not the instructions compared here. -/
def otherLines : List Name := [.fence, .ebreak, .ecall, .csrrw, .csrrs, .mret, .inv]

/-- NEMU does what the specification says for the word, with instructions
aligned to four bytes; an exception leaves the machine.  Accesses over the end of
a window are left out. -/
def Conforms (b : Build) (m : Machine) (pc w : Word) : Prop :=
  ∃ i, Isa.decode w = some i ∧ (¬ RunsOver b i (hart m pc) →
    decodeExec b m pc w =
      (Isa.exec (nemuEnv b).ialign32 i (hart m pc)).toOption.map m.withHart)

section Words

variable {b : Build} {m : Machine} {pc w : Word} {r : Row}

theorem instOf_some {n : Name} (h : n ∉ otherLines) (w : Word) :
    ∃ e i, encOf n = some e ∧ instOf n w = some i := by
  cases n <;> first | exact absurd (by decide) h | exact ⟨_, _, rfl, rfl⟩

/-- The line found for a word executes the instruction that the word encodes. -/
theorem decodeExec_spec (hZero : m.gpr 0 = 0) (hFind : instpats.find? (·.accepts w) = some r)
    (hLine : r.name ∉ otherLines) :
    ∃ i, instOf r.name w = some i ∧ Isa.decode w = some i ∧
      (¬ RunsOver b i (hart m pc) → decodeExec b m pc w = specResult b m pc i) := by
  obtain ⟨e, i, he, hi⟩ := instOf_some hLine w
  obtain ⟨hType, hEnc⟩ := enc_of_find hFind
  refine ⟨i, hi, decode_of_enc he (hEnc e he) hi, fun hEnd => ?_⟩
  have hLineResult : decodeExec b m pc w = lineResult b m pc w r.name := by
    rw [decodeExec, hFind, lineResult, ← hType]
  rw [hLineResult, line_spec hZero hi hEnd]

/-- `x0` is zero after every instruction. -/
theorem decodeExec_zero {m' : Machine} {dnpc : Word} (h : decodeExec b m pc w = some (m', dnpc)) :
    m'.gpr 0 = 0 := by
  unfold decodeExec at h
  split at h
  · obtain ⟨p, -, hp⟩ := Option.map_eq_some_iff.1 h
    cases hp
    rfl
  · cases h
    rfl

/-- **NEMU executes RV32IM**, except that it takes jumps to any target.  Where an
access would run over the end of a window nothing is said. -/
theorem nemu_executes_rv32im (hZero : m.gpr 0 = 0)
    (hFind : instpats.find? (·.accepts w) = some r) (hLine : r.name ∉ otherLines) :
    ∃ i, instOf r.name w = some i ∧ Isa.decode w = some i ∧
      (∀ h, Isa.exec (nemuEnv b).ialign32 i (hart m pc) = .ok h →
        decodeExec b m pc w = some (m.withHart h)) ∧
      (Isa.exec (nemuEnv b).ialign32 i (hart m pc) = .error .accessFault →
        ¬ RunsOver b i (hart m pc) → decodeExec b m pc w = none) ∧
      (Isa.exec (nemuEnv b).ialign32 i (hart m pc) = .error .instructionAddressMisaligned →
        ∃ h, Isa.exec (nemuEnv b) i (hart m pc) = .ok h ∧
          decodeExec b m pc w = some (m.withHart h)) ∧
      ∀ m' dnpc, decodeExec b m pc w = some (m', dnpc) → m'.gpr 0 = 0 := by
  obtain ⟨i, hi, hDecode, hExec⟩ := decodeExec_spec hZero hFind hLine
  obtain ⟨hOk, hFault, hJump⟩ := @Isa.relaxes_exec (nemuEnv b) (fun _ => rfl) i (hart m pc)
  -- whatever is no access fault stays away from the ends
  have hInside {res : Except Isa.Exception Isa.Hart}
      (hSpec : Isa.exec (nemuEnv b).ialign32 i (hart m pc) = res)
      (hRes : res ≠ .error .accessFault) : ¬ RunsOver b i (hart m pc) :=
    fun hEnd => hRes (hSpec.symm.trans (accessFault_of_runsOver hEnd))
  refine ⟨i, hi, hDecode, ?_, ?_, ?_, fun m' dnpc => decodeExec_zero⟩
  · intro h hSpec
    rw [hExec (hInside hSpec (by simp)), specResult, hOk h hSpec]
    rfl
  · intro hSpec hEnd
    rw [hExec hEnd, specResult, hFault hSpec]
    rfl
  · intro hSpec
    obtain ⟨h, hRelaxed⟩ := hJump hSpec
    refine ⟨h, hRelaxed, ?_⟩
    rw [hExec (hInside hSpec (by simp)), specResult, hRelaxed]
    rfl

end Words

/-- All registers, CSRs and bytes zero. -/
def zeroMachine : Machine := ⟨fun _ => 0, fun _ => 0, fun _ => 0, .running⟩

/-- `mulhsu x3, x1, x2` with `x1 = -1`, `x2 = 0xffffffff`. -/
theorem nemu_executes_mulhsu :
    decodeExec .plain ((zeroMachine.setReg 1 0xffffffff#32).setReg 2 0xffffffff#32) 0x80000000#32
        0x0220a1b3#32 =
      some (((zeroMachine.setReg 1 0xffffffff#32).setReg 2 0xffffffff#32).withHart
        ((hart ((zeroMachine.setReg 1 0xffffffff#32).setReg 2 0xffffffff#32) 0x80000004#32).set 3
          0xffffffff#32)) := by
  have hFind : instpats.find? (·.accepts 0x0220a1b3#32) =
      some ⟨"0000001 ????? ????? 010 ????? 01100 11", .mulhsu, .R⟩ := by decide +kernel
  obtain ⟨i, hi, -, hOk, -⟩ := @nemu_executes_rv32im .plain
    ((zeroMachine.setReg 1 0xffffffff#32).setReg 2 0xffffffff#32) 0x80000000#32 0x0220a1b3#32 _
    rfl hFind (by decide)
  cases hi
  exact hOk _ rfl

/-- `jal x1, 2`: the specification raises an exception, NEMU writes the link
register and jumps. -/
theorem misaligned_jump_taken :
    ¬ ∀ (b : Build) (m : Machine) (pc w : Word) (r : Row), m.gpr 0 = 0 →
      instpats.find? (·.accepts w) = some r → r.name ∉ otherLines → Conforms b m pc w := by
  intro h
  have hFind : instpats.find? (·.accepts 0x002000ef#32) =
      some ⟨"??????? ????? ????? ??? ????? 11011 11", .jal, .J⟩ := by decide +kernel
  obtain ⟨i, hDecode, hExec⟩ := h .plain zeroMachine 0x80000000#32 0x002000ef#32 _ rfl hFind
    (by decide)
  have hJal : Isa.decode 0x002000ef#32 = some (.jal 1 2) := by decide
  rw [hJal] at hDecode
  cases hDecode
  have hNone : ¬ RunsOver .plain (.jal 1 2) (hart zeroMachine 0x80000000#32) := by
    rintro ⟨_, _, _, hAccess, -⟩
    cases hAccess
  have hTaken : (decodeExec .plain zeroMachine 0x80000000#32 0x002000ef#32).isSome = true := by
    decide +kernel
  have hTrap : Isa.exec (nemuEnv .plain).ialign32 (.jal 1 2) (hart zeroMachine 0x80000000#32) =
      .error .instructionAddressMisaligned := rfl
  rw [hExec hNone, hTrap] at hTaken
  cases hTaken

end Riscv32.Nemu
