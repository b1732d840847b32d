import Mathlib.Tactic.Ring

/-!
# RV32IM

The unprivileged specification: the encodings of the forty RV32I instructions
and the eight of the M extension, and what each does to the registers, the
memory and the pc.  Values are read as numbers, signed or unsigned, where the
specification does so.

An execution environment (`Env`) says which loads and stores complete, by their
address and their number of bytes, and which jump targets are aligned; all else
is an exception, and an exception changes nothing.  `decode` reads a word and
`exec` gives the effect of an instruction.

`Relaxes` compares an execution with the same one without the alignment of jump
targets: by `relaxes_exec` what completes does so with the same effect, an access
fault stays one, and only the misaligned jump is made instead.
-/

namespace Riscv32.Isa

/-- A register by its number. -/
abbrev Reg := BitVec 5

/-- The conditional branches, by comparison. -/
inductive BranchOp
  | beq | bne | blt | bge | bltu | bgeu
deriving DecidableEq, Repr

/-- The loads, by width and extension. -/
inductive LoadOp
  | lb | lh | lw | lbu | lhu
deriving DecidableEq, Repr

/-- The stores, by width. -/
inductive StoreOp
  | sb | sh | sw
deriving DecidableEq, Repr

/-- The register-immediate instructions other than the shifts. -/
inductive ImmOp
  | addi | slti | sltiu | xori | ori | andi
deriving DecidableEq, Repr

/-- The shifts by an immediate. -/
inductive ShiftOp
  | slli | srli | srai
deriving DecidableEq, Repr

/-- The register-register instructions: the base ones, then the M extension. -/
inductive RegOp
  | add | sub | sll | slt | sltu | xor | srl | sra | or | and
  | mul | mulh | mulhsu | mulhu | div | divu | rem | remu
deriving DecidableEq, Repr

/-- An instruction with its operands; offsets are in bytes. -/
inductive Inst
  | lui (rd : Reg) (imm : BitVec 20)
  | auipc (rd : Reg) (imm : BitVec 20)
  | jal (rd : Reg) (offset : BitVec 21)
  | jalr (rd rs1 : Reg) (imm : BitVec 12)
  | branch (op : BranchOp) (rs1 rs2 : Reg) (offset : BitVec 13)
  | load (op : LoadOp) (rd rs1 : Reg) (imm : BitVec 12)
  | store (op : StoreOp) (rs1 rs2 : Reg) (imm : BitVec 12)
  | opImm (op : ImmOp) (rd rs1 : Reg) (imm : BitVec 12)
  | shiftImm (op : ShiftOp) (rd rs1 : Reg) (shamt : BitVec 5)
  | op (op : RegOp) (rd rs1 rs2 : Reg)
  | fence (rd rs1 : Reg) (operands : BitVec 12)
  | ecall
  | ebreak
deriving DecidableEq, Repr

/-! ## Encodings -/

section Encoding

variable (w : BitVec 32)

def opcode : BitVec 7 := w.extractLsb' 0 7
def rd : Reg := w.extractLsb' 7 5
def funct3 : BitVec 3 := w.extractLsb' 12 3
def rs1 : Reg := w.extractLsb' 15 5
def rs2 : Reg := w.extractLsb' 20 5
def funct7 : BitVec 7 := w.extractLsb' 25 7

def immI : BitVec 12 := w.extractLsb' 20 12
def immS : BitVec 12 := (w.extractLsb' 25 7 ++ w.extractLsb' 7 5 : BitVec 12)
def immU : BitVec 20 := w.extractLsb' 12 20

def offsetB : BitVec 13 :=
  (w.extractLsb' 31 1 ++ w.extractLsb' 7 1 ++ w.extractLsb' 25 6 ++ w.extractLsb' 8 4 ++ 0#1 :
    BitVec 13)

def offsetJ : BitVec 21 :=
  (w.extractLsb' 31 1 ++ w.extractLsb' 12 8 ++ w.extractLsb' 20 1 ++ w.extractLsb' 21 10 ++ 0#1 :
    BitVec 21)

end Encoding

/-- Which `funct3` names which branch; two of the eight name none. -/
def branchOp (funct3 : BitVec 3) : Option BranchOp :=
  match funct3 with
  | 0b000#3 => some .beq
  | 0b001#3 => some .bne
  | 0b100#3 => some .blt
  | 0b101#3 => some .bge
  | 0b110#3 => some .bltu
  | 0b111#3 => some .bgeu
  | _ => none

/-- Which `funct3` names which load. -/
def loadOp (funct3 : BitVec 3) : Option LoadOp :=
  match funct3 with
  | 0b000#3 => some .lb
  | 0b001#3 => some .lh
  | 0b010#3 => some .lw
  | 0b100#3 => some .lbu
  | 0b101#3 => some .lhu
  | _ => none

/-- Which `funct3` names which store. -/
def storeOp (funct3 : BitVec 3) : Option StoreOp :=
  match funct3 with
  | 0b000#3 => some .sb
  | 0b001#3 => some .sh
  | 0b010#3 => some .sw
  | _ => none

/-- Which `funct3` names which register-immediate instruction. -/
def immOp (funct3 : BitVec 3) : Option ImmOp :=
  match funct3 with
  | 0b000#3 => some .addi
  | 0b010#3 => some .slti
  | 0b011#3 => some .sltiu
  | 0b100#3 => some .xori
  | 0b110#3 => some .ori
  | 0b111#3 => some .andi
  | _ => none

/-- The shifts take `funct7` as well: it tells `srli` from `srai`. -/
def shiftOp (funct7 : BitVec 7) (funct3 : BitVec 3) : Option ShiftOp :=
  match funct7, funct3 with
  | 0b0000000#7, 0b001#3 => some .slli
  | 0b0000000#7, 0b101#3 => some .srli
  | 0b0100000#7, 0b101#3 => some .srai
  | _, _ => none

/-- The register-register instructions, by both fields. -/
def regOp (funct7 : BitVec 7) (funct3 : BitVec 3) : Option RegOp :=
  match funct7, funct3 with
  | 0b0000000#7, 0b000#3 => some .add
  | 0b0100000#7, 0b000#3 => some .sub
  | 0b0000000#7, 0b001#3 => some .sll
  | 0b0000000#7, 0b010#3 => some .slt
  | 0b0000000#7, 0b011#3 => some .sltu
  | 0b0000000#7, 0b100#3 => some .xor
  | 0b0000000#7, 0b101#3 => some .srl
  | 0b0100000#7, 0b101#3 => some .sra
  | 0b0000000#7, 0b110#3 => some .or
  | 0b0000000#7, 0b111#3 => some .and
  | 0b0000001#7, 0b000#3 => some .mul
  | 0b0000001#7, 0b001#3 => some .mulh
  | 0b0000001#7, 0b010#3 => some .mulhsu
  | 0b0000001#7, 0b011#3 => some .mulhu
  | 0b0000001#7, 0b100#3 => some .div
  | 0b0000001#7, 0b101#3 => some .divu
  | 0b0000001#7, 0b110#3 => some .rem
  | 0b0000001#7, 0b111#3 => some .remu
  | _, _ => none

/-- The instruction a word encodes; `none` for words that are not legal
RV32I or RV32M encodings. -/
def decode (w : BitVec 32) : Option Inst :=
  match opcode w with
  | 0b0110111#7 => some (.lui (rd w) (immU w))
  | 0b0010111#7 => some (.auipc (rd w) (immU w))
  | 0b1101111#7 => some (.jal (rd w) (offsetJ w))
  | 0b1100111#7 => if funct3 w = 0b000#3 then some (.jalr (rd w) (rs1 w) (immI w)) else none
  | 0b1100011#7 => (branchOp (funct3 w)).map fun op => .branch op (rs1 w) (rs2 w) (offsetB w)
  | 0b0000011#7 => (loadOp (funct3 w)).map fun op => .load op (rd w) (rs1 w) (immI w)
  | 0b0100011#7 => (storeOp (funct3 w)).map fun op => .store op (rs1 w) (rs2 w) (immS w)
  | 0b0010011#7 =>
      match shiftOp (funct7 w) (funct3 w) with
      | some op => some (.shiftImm op (rd w) (rs1 w) (rs2 w))
      | none => (immOp (funct3 w)).map fun op => .opImm op (rd w) (rs1 w) (immI w)
  | 0b0110011#7 => (regOp (funct7 w) (funct3 w)).map fun op => .op op (rd w) (rs1 w) (rs2 w)
  | 0b0001111#7 => if funct3 w = 0b000#3 then some (.fence (rd w) (rs1 w) (immI w)) else none
  | 0b1110011#7 =>
      if w = 0x00000073#32 then some .ecall
      else if w = 0x00100073#32 then some .ebreak
      else none
  | _ => none

/-! ## Effects -/

/-- The state of a hart. -/
structure Hart where
  x : Reg → BitVec 32
  mem : BitVec 32 → BitVec 8
  pc : BitVec 32

/-- Why an instruction does not complete. -/
inductive Exception
  | instructionAddressMisaligned
  | accessFault
  | environmentCall
  | breakpoint
deriving DecidableEq, Repr

/-- What the execution environment fixes: the accesses to main memory, by address
and number of bytes, that complete, and the alignment of instructions. -/
structure Env where
  canLoad : BitVec 32 → Nat → Bool
  canStore : BitVec 32 → Nat → Bool
  aligned : BitVec 32 → Bool

/-- Instructions are 32 bits wide and aligned to their width. -/
def Env.ialign32 (env : Env) : Env := { env with aligned := fun a => a.toNat % 4 == 0 }

namespace Hart

/-- A source register; `x0` is zero. -/
def get (h : Hart) (r : Reg) : BitVec 32 := if r = 0 then 0 else h.x r

/-- A destination register; a result for `x0` is dropped. -/
def set (h : Hart) (r : Reg) (v : BitVec 32) : Hart :=
  if r = 0 then h else { h with x := fun s => if s = r then v else h.x s }

/-- Goes on with the next instruction. -/
def next (h : Hart) : Hart := { h with pc := h.pc + 4 }

end Hart

/-- The `n` bytes from `a` on as a little-endian number. -/
def loadBytes (mem : BitVec 32 → BitVec 8) (a : BitVec 32) : Nat → Nat
  | 0 => 0
  | n + 1 => (mem a).toNat + 256 * loadBytes mem (a + 1) n

/-- The low `n` bytes of `v` to `a`, little-endian. -/
def storeBytes (mem : BitVec 32 → BitVec 8) (a : BitVec 32) (n : Nat) (v : BitVec 32) :
    BitVec 32 → BitVec 8 := fun x =>
  if (x - a).toNat < n then BitVec.ofNat 8 (v.toNat / 256 ^ (x - a).toNat) else mem x

/-- What a load puts into its register, from the bytes at the address. -/
def LoadOp.value (op : LoadOp) (mem : BitVec 32 → BitVec 8) (a : BitVec 32) : BitVec 32 :=
  match op with
  | .lb => (BitVec.ofNat 8 (loadBytes mem a 1)).signExtend 32
  | .lh => (BitVec.ofNat 16 (loadBytes mem a 2)).signExtend 32
  | .lw => BitVec.ofNat 32 (loadBytes mem a 4)
  | .lbu => BitVec.ofNat 32 (loadBytes mem a 1)
  | .lhu => BitVec.ofNat 32 (loadBytes mem a 2)

/-- How many bytes a load reads. -/
def LoadOp.bytes : LoadOp → Nat
  | .lb | .lbu => 1
  | .lh | .lhu => 2
  | .lw => 4

/-- How many bytes a store writes. -/
def StoreOp.bytes : StoreOp → Nat
  | .sb => 1
  | .sh => 2
  | .sw => 4

/-- When a branch is taken. -/
def BranchOp.taken (op : BranchOp) (a b : BitVec 32) : Bool :=
  match op with
  | .beq => a = b
  | .bne => a ≠ b
  | .blt => a.toInt < b.toInt
  | .bge => a.toInt ≥ b.toInt
  | .bltu => a.toNat < b.toNat
  | .bgeu => a.toNat ≥ b.toNat

/-- The result of the set-less-than instructions. -/
def setIf (c : Bool) : BitVec 32 := if c then 1 else 0

/-- What a register-immediate instruction computes. -/
def ImmOp.value (op : ImmOp) (a imm : BitVec 32) : BitVec 32 :=
  match op with
  | .addi => a + imm
  | .slti => setIf (a.toInt < imm.toInt)
  | .sltiu => setIf (a.toNat < imm.toNat)
  | .xori => a ^^^ imm
  | .ori => a ||| imm
  | .andi => a &&& imm

def shiftLeft (a : BitVec 32) (n : Nat) : BitVec 32 := BitVec.ofNat 32 (a.toNat * 2 ^ n)
def shiftRightLogical (a : BitVec 32) (n : Nat) : BitVec 32 := BitVec.ofNat 32 (a.toNat / 2 ^ n)
def shiftRightArith (a : BitVec 32) (n : Nat) : BitVec 32 := BitVec.ofInt 32 (a.toInt / 2 ^ n)

/-- What a shift by an immediate computes. -/
def ShiftOp.value (op : ShiftOp) (a : BitVec 32) (n : Nat) : BitVec 32 :=
  match op with
  | .slli => shiftLeft a n
  | .srli => shiftRightLogical a n
  | .srai => shiftRightArith a n

/-- The register operations; shifts use the low five bits of the second source,
and division rounds towards zero. -/
def RegOp.value (op : RegOp) (a b : BitVec 32) : BitVec 32 :=
  match op with
  | .add => a + b
  | .sub => a - b
  | .sll => shiftLeft a (b.toNat % 32)
  | .slt => setIf (a.toInt < b.toInt)
  | .sltu => setIf (a.toNat < b.toNat)
  | .xor => a ^^^ b
  | .srl => shiftRightLogical a (b.toNat % 32)
  | .sra => shiftRightArith a (b.toNat % 32)
  | .or => a ||| b
  | .and => a &&& b
  | .mul => BitVec.ofInt 32 (a.toInt * b.toInt)
  | .mulh => BitVec.ofInt 32 (a.toInt * b.toInt / 4294967296)
  | .mulhsu => BitVec.ofInt 32 (a.toInt * b.toNat / 4294967296)
  | .mulhu => BitVec.ofNat 32 (a.toNat * b.toNat / 4294967296)
  | .div =>
      if b.toInt = 0 then -1
      else if a.toInt = -2147483648 ∧ b.toInt = -1 then a
      else BitVec.ofInt 32 (a.toInt.tdiv b.toInt)
  | .divu => if b.toNat = 0 then 0xffffffff#32 else BitVec.ofNat 32 (a.toNat / b.toNat)
  | .rem =>
      if b.toInt = 0 then a
      else if a.toInt = -2147483648 ∧ b.toInt = -1 then 0
      else BitVec.ofInt 32 (a.toInt.tmod b.toInt)
  | .remu => if b.toNat = 0 then a else BitVec.ofNat 32 (a.toNat % b.toNat)

/-- A control transfer, after the link register has been written. -/
def Hart.jump (env : Env) (h : Hart) (target : BitVec 32) : Except Exception Hart :=
  if env.aligned target then .ok { h with pc := target }
  else .error .instructionAddressMisaligned

/-- The effect of an instruction. -/
def exec (env : Env) (i : Inst) (h : Hart) : Except Exception Hart :=
  match i with
  | .lui rd imm => .ok (h.next.set rd (imm ++ 0#12 : BitVec 32))
  | .auipc rd imm => .ok (h.next.set rd (h.pc + (imm ++ 0#12 : BitVec 32)))
  | .jal rd offset => (h.set rd (h.pc + 4)).jump env (h.pc + offset.signExtend 32)
  | .jalr rd rs1 imm =>
      (h.set rd (h.pc + 4)).jump env ((h.get rs1 + imm.signExtend 32) &&& ~~~1#32)
  | .branch op rs1 rs2 offset =>
      if op.taken (h.get rs1) (h.get rs2) then h.jump env (h.pc + offset.signExtend 32)
      else .ok h.next
  | .load op rd rs1 imm =>
      if env.canLoad (h.get rs1 + imm.signExtend 32) op.bytes then
        .ok (h.next.set rd (op.value h.mem (h.get rs1 + imm.signExtend 32)))
      else .error .accessFault
  | .store op rs1 rs2 imm =>
      if env.canStore (h.get rs1 + imm.signExtend 32) op.bytes then
        .ok { h.next with
          mem := storeBytes h.mem (h.get rs1 + imm.signExtend 32) op.bytes (h.get rs2) }
      else .error .accessFault
  | .opImm op rd rs1 imm => .ok (h.next.set rd (op.value (h.get rs1) (imm.signExtend 32)))
  | .shiftImm op rd rs1 shamt => .ok (h.next.set rd (op.value (h.get rs1) shamt.toNat))
  | .op op rd rs1 rs2 => .ok (h.next.set rd (op.value (h.get rs1) (h.get rs2)))
  | .fence _ _ _ => .ok h.next
  | .ecall => .error .environmentCall
  | .ebreak => .error .breakpoint

/-! ## Alignment -/

/-- The result without the alignment of instructions: only the exception goes away. -/
structure Relaxes (r r' : Except Exception Hart) : Prop where
  ok : ∀ h, r = .ok h → r' = .ok h
  fault : r = .error .accessFault → r' = .error .accessFault
  misaligned : r = .error .instructionAddressMisaligned → ∃ h, r' = .ok h

theorem Relaxes.refl {r : Except Exception Hart} (h : r ≠ .error .instructionAddressMisaligned) :
    Relaxes r r :=
  ⟨fun _ => id, id, fun hEq => absurd hEq h⟩

section Relaxed

variable {env : Env} (hAll : ∀ a, env.aligned a = true)
include hAll

/-- A jump: only a target that is refused makes a difference. -/
theorem relaxes_jump (h : Hart) (target : BitVec 32) :
    Relaxes (h.jump env.ialign32 target) (h.jump env target) := by
  have hJump : h.jump env target = .ok { h with pc := target } := if_pos (hAll target)
  rw [hJump]
  by_cases hAligned : env.ialign32.aligned target = true
  · have hOk : h.jump env.ialign32 target = .ok { h with pc := target } := if_pos hAligned
    rw [hOk]
    exact Relaxes.refl (by simp)
  · have hBad : h.jump env.ialign32 target = .error .instructionAddressMisaligned := if_neg hAligned
    rw [hBad]
    exact ⟨fun _ hEq => (by cases hEq), fun hEq => (by cases hEq), fun _ => ⟨_, rfl⟩⟩

/-- Every instruction, as only jumps and taken branches look at a target. -/
theorem relaxes_exec (i : Inst) (h : Hart) : Relaxes (exec env.ialign32 i h) (exec env i h) := by
  cases i with
  | jal rd offset => exact relaxes_jump hAll _ _
  | jalr rd rs1 imm => exact relaxes_jump hAll _ _
  | branch op rs1 rs2 offset =>
      simp only [exec]
      split
      · exact relaxes_jump hAll _ _
      · exact Relaxes.refl (by simp)
  | load op rd rs1 imm =>
      refine Relaxes.refl ?_
      simp only [exec]
      split <;> simp
  | store op rs1 rs2 imm =>
      refine Relaxes.refl ?_
      simp only [exec]
      split <;> simp
  | lui | auipc | opImm | shiftImm | op | fence | ecall | ebreak =>
      exact Relaxes.refl (by simp [exec])

end Relaxed

end Riscv32.Isa
