import Riscv32.Nemu.Memory
import Riscv32.Nemu.Pattern

/-!
# NEMU instruction execution

`isa/riscv32/inst.c`: the pattern table, `decode_operand` and `decode_exec`,
with `isa_raise_intr` of `system/intr.c`.  The macro arithmetic is done in the
widths the C expressions have.

The table is data (`instpats`, in source order, with the pattern strings of the
source), the bodies are one function of the name (`body`), and `decodeExec` runs
the body of the first line whose pattern accepts the word.  So the order of the
lines matters here as it does in C, where each `INSTPAT` jumps to the end.
-/

namespace Riscv32.Nemu

open Riscv32.Rtl

/-! ## The machine -/

/-- `nemu_state` as far as instructions set it. -/
inductive NemuState
  | running
  | ended (haltPc haltRet : Word)
  | aborted (haltPc : Word)
deriving DecidableEq, Repr

/-- The globals an instruction touches: `cpu`, guest memory, `nemu_state`. -/
structure Machine where
  gpr : BitVec 5 → Word
  csr : BitVec 12 → Word
  pmem : Pmem
  nemuState : NemuState

namespace Machine

/-- `R(rd) = v`. -/
def setReg (m : Machine) (rd : BitVec 5) (v : Word) : Machine :=
  { m with gpr := fun r => if r = rd then v else m.gpr r }

/-- `cpu.csr[a] = v`. -/
def setCsr (m : Machine) (a : BitVec 12) (v : Word) : Machine :=
  { m with csr := fun c => if c = a then v else m.csr c }

end Machine

/-- `isa_raise_intr`: the new machine and the vector address. -/
def isaRaiseIntr (m : Machine) (no epc : Word) : Machine × Word :=
  let m := m.setCsr 0x341#12 epc
  let m := m.setCsr 0x342#12 no
  (m, m.csr 0x305#12)

/-! ## Operands -/

/-- `BITS(x, hi, lo)` of a 32-bit `x`. -/
def bits (x : Word) (hi lo : Nat) : BitVec 64 :=
  (x >>> lo).setWidth 64 &&& ((1#64 <<< (hi - lo + 1)) - 1)

/-- `SEXT(x, len)`. -/
def sext (x : BitVec 64) (len : Nat) : BitVec 64 := (x.setWidth len).signExtend 64

/-- `TYPE_*`. -/
inductive Ty
  | I | U | S | N | R | J | B | SH | CSRI
deriving DecidableEq, Repr

/-- What `decode_operand` leaves in its output arguments. -/
structure Operand where
  rd : BitVec 5
  src1 : Word := 0
  src2 : Word := 0
  imm : Word := 0

def nemuImmI (i : Word) : Word := (sext (bits i 31 20) 12).setWidth 32

def nemuImmU (i : Word) : Word := (sext (bits i 31 12) 20 <<< 12).setWidth 32

def nemuImmS (i : Word) : Word := ((sext (bits i 31 25) 7 <<< 5) ||| bits i 11 7).setWidth 32

def nemuImmJ (i : Word) : Word :=
  (sext (bits i 31 31) 1 <<< 20 ||| bits i 19 12 <<< 12 ||| bits i 20 20 <<< 11 |||
    bits i 30 21 <<< 1).setWidth 32

def nemuImmB (i : Word) : Word :=
  (sext (bits i 31 31) 1 <<< 12 ||| bits i 30 25 <<< 5 ||| bits i 11 8 <<< 1 |||
    bits i 7 7 <<< 11).setWidth 32

def nemuImmSH (i : Word) : Word := (bits i 24 20).setWidth 32

def nemuImmCSRI (i : Word) : Word := (bits i 31 20).setWidth 32

/-- `decode_operand`. -/
def decodeOperand (m : Machine) (i : Word) (type : Ty) : Operand :=
  let rs1 : BitVec 5 := (bits i 19 15).setWidth 5
  let rs2 : BitVec 5 := (bits i 24 20).setWidth 5
  let rd : BitVec 5 := (bits i 11 7).setWidth 5
  match type with
  | .I => { rd := rd, src1 := m.gpr rs1, imm := nemuImmI i }
  | .R => { rd := rd, src1 := m.gpr rs1, src2 := m.gpr rs2 }
  | .U => { rd := rd, imm := nemuImmU i }
  | .S => { rd := rd, src1 := m.gpr rs1, src2 := m.gpr rs2, imm := nemuImmS i }
  | .N => { rd := rd }
  | .J => { rd := rd, imm := nemuImmJ i }
  | .B => { rd := rd, src1 := m.gpr rs1, src2 := m.gpr rs2, imm := nemuImmB i }
  | .SH => { rd := rd, src1 := m.gpr rs1, imm := nemuImmSH i }
  | .CSRI => { rd := rd, src1 := m.gpr rs1, imm := nemuImmCSRI i }

/-! ## The pattern table -/

/-- The instruction names of the table. -/
inductive Name
  | auipc | lui | lbu | lb | lh | lw | lhu | sltiu | srli | slli | srai | sb | sh | sw | add |
  fence | sll | slt | sltu | xor | srl | sra | or | and | sub | mul | mulh | mulhsu | mulhu |
  div | divu | rem | remu | addi | slti | xori | ori | andi | jalr | jal | bne | beq | blt | bge
  | bltu | bgeu | ebreak | ecall | csrrw | csrrs | mret | inv
deriving DecidableEq, Repr

/-- One `INSTPAT` line, without its body. -/
structure Row where
  pattern : String
  name : Name
  type : Ty
deriving DecidableEq, Repr

/-- The table in source order. -/
def instpats : List Row := [
  ⟨"??????? ????? ????? ??? ????? 00101 11", .auipc, .U⟩,
  ⟨"??????? ????? ????? ??? ????? 01101 11", .lui, .U⟩,
  ⟨"??????? ????? ????? 100 ????? 00000 11", .lbu, .I⟩,
  ⟨"??????? ????? ????? 000 ????? 00000 11", .lb, .I⟩,
  ⟨"??????? ????? ????? 001 ????? 00000 11", .lh, .I⟩,
  ⟨"??????? ????? ????? 010 ????? 00000 11", .lw, .I⟩,
  ⟨"??????? ????? ????? 101 ????? 00000 11", .lhu, .I⟩,
  ⟨"??????? ????? ????? 011 ????? 00100 11", .sltiu, .I⟩,
  ⟨"0000000 ????? ????? 101 ????? 00100 11", .srli, .SH⟩,
  ⟨"0000000 ????? ????? 001 ????? 00100 11", .slli, .SH⟩,
  ⟨"0100000 ????? ????? 101 ????? 00100 11", .srai, .SH⟩,
  ⟨"??????? ????? ????? 000 ????? 01000 11", .sb, .S⟩,
  ⟨"??????? ????? ????? 001 ????? 01000 11", .sh, .S⟩,
  ⟨"??????? ????? ????? 010 ????? 01000 11", .sw, .S⟩,
  ⟨"0000000 ????? ????? 000 ????? 01100 11", .add, .R⟩,
  ⟨"??????? ????? ????? 001 ????? 00011 11", .fence, .I⟩,
  ⟨"0000000 ????? ????? 001 ????? 01100 11", .sll, .R⟩,
  ⟨"0000000 ????? ????? 010 ????? 01100 11", .slt, .R⟩,
  ⟨"0000000 ????? ????? 011 ????? 01100 11", .sltu, .R⟩,
  ⟨"0000000 ????? ????? 100 ????? 01100 11", .xor, .R⟩,
  ⟨"0000000 ????? ????? 101 ????? 01100 11", .srl, .R⟩,
  ⟨"0100000 ????? ????? 101 ????? 01100 11", .sra, .R⟩,
  ⟨"0000000 ????? ????? 110 ????? 01100 11", .or, .R⟩,
  ⟨"0000000 ????? ????? 111 ????? 01100 11", .and, .R⟩,
  ⟨"0100000 ????? ????? 000 ????? 01100 11", .sub, .R⟩,
  ⟨"0000001 ????? ????? 000 ????? 01100 11", .mul, .R⟩,
  ⟨"0000001 ????? ????? 001 ????? 01100 11", .mulh, .R⟩,
  ⟨"0000001 ????? ????? 010 ????? 01100 11", .mulhsu, .R⟩,
  ⟨"0000001 ????? ????? 011 ????? 01100 11", .mulhu, .R⟩,
  ⟨"0000001 ????? ????? 100 ????? 01100 11", .div, .R⟩,
  ⟨"0000001 ????? ????? 101 ????? 01100 11", .divu, .R⟩,
  ⟨"0000001 ????? ????? 110 ????? 01100 11", .rem, .R⟩,
  ⟨"0000001 ????? ????? 111 ????? 01100 11", .remu, .R⟩,
  ⟨"??????? ????? ????? 000 ????? 00100 11", .addi, .I⟩,
  ⟨"??????? ????? ????? 010 ????? 00100 11", .slti, .I⟩,
  ⟨"??????? ????? ????? 100 ????? 00100 11", .xori, .I⟩,
  ⟨"??????? ????? ????? 110 ????? 00100 11", .ori, .I⟩,
  ⟨"??????? ????? ????? 111 ????? 00100 11", .andi, .I⟩,
  ⟨"??????? ????? ????? 000 ????? 11001 11", .jalr, .I⟩,
  ⟨"??????? ????? ????? ??? ????? 11011 11", .jal, .J⟩,
  ⟨"??????? ????? ????? 001 ????? 11000 11", .bne, .B⟩,
  ⟨"??????? ????? ????? 000 ????? 11000 11", .beq, .B⟩,
  ⟨"??????? ????? ????? 100 ????? 11000 11", .blt, .B⟩,
  ⟨"??????? ????? ????? 101 ????? 11000 11", .bge, .B⟩,
  ⟨"??????? ????? ????? 110 ????? 11000 11", .bltu, .B⟩,
  ⟨"??????? ????? ????? 111 ????? 11000 11", .bgeu, .B⟩,
  ⟨"0000000 00001 00000 000 00000 11100 11", .ebreak, .N⟩,
  ⟨"0000000 00000 00000 000 00000 11100 11", .ecall, .N⟩,
  ⟨"??????? ????? ????? 001 ????? 11100 11", .csrrw, .CSRI⟩,
  ⟨"??????? ????? ????? 010 ????? 11100 11", .csrrs, .CSRI⟩,
  ⟨"0011000 00010 00000 000 00000 11100 11", .mret, .N⟩,
  ⟨"??????? ????? ????? ??? ????? ????? ??", .inv, .N⟩]

/-- The `INSTPAT` test of a line. -/
def Row.accepts (r : Row) (inst : Word) : Bool :=
  match patternDecode (cBytes r.pattern) with
  | some p => p.accepts inst
  | none => false

/-! ## Execution -/

/-- A C comparison stored in a register. -/
def ofCmp (b : Bool) : Word := if b then 1 else 0

/-- The body of the line `name` at `pc`: the machine and `dnpc` it leaves, or
`none` when it accesses memory outside the plain windows. -/
def body (b : Build) (m : Machine) (pc : Word) (o : Operand) (name : Name) :
    Option (Machine × Word) :=
  let snpc := pc + 4
  let reg (v : Word) : Option (Machine × Word) := some (m.setReg o.rd v, snpc)
  let load (len : Nat) (f : Word → Word) : Option (Machine × Word) :=
    (paddrRead b m.pmem (o.src1 + o.imm) len).map fun v => (m.setReg o.rd (f v), snpc)
  let store (len : Nat) : Option (Machine × Word) :=
    (paddrWrite b m.pmem (o.src1 + o.imm) len o.src2).map fun mem =>
      ({ m with pmem := mem }, snpc)
  let branch (c : Bool) : Option (Machine × Word) :=
    some (m, if c then pc + o.imm else snpc)
  match name with
  | .auipc => reg (pc + o.imm)
  | .lui => reg o.imm
  | .lbu => load 1 id
  | .lb => load 1 fun v => (sext (v.setWidth 64) 8).setWidth 32
  | .lh => load 2 fun v => (sext (v.setWidth 64) 16).setWidth 32
  | .lw => load 4 id
  | .lhu => load 2 id
  | .sltiu => reg (ofCmp (o.src1.ult o.imm))
  | .srli => reg (o.src1 >>> o.imm)
  | .slli => reg (o.src1 <<< o.imm)
  | .srai => reg (o.src1.sshiftRight' o.imm)
  | .sb => store 1
  | .sh => store 2
  | .sw => store 4
  | .add => reg (o.src1 + o.src2)
  | .fence => some (m, snpc)
  | .sll => reg (o.src1 <<< (o.src2 &&& 0x1f))
  | .slt => reg (ofCmp (o.src1.slt o.src2))
  | .sltu => reg (ofCmp (o.src1.ult o.src2))
  | .xor => reg (o.src1 ^^^ o.src2)
  | .srl => reg (o.src1 >>> (o.src2 &&& 0x1f))
  | .sra => reg (o.src1.sshiftRight' (o.src2 &&& 0x1f))
  | .or => reg (o.src1 ||| o.src2)
  | .and => reg (o.src1 &&& o.src2)
  | .sub => reg (o.src1 - o.src2)
  | .mul => reg (o.src1 * o.src2)
  | .mulh => reg (((o.src1.signExtend 64 * o.src2.signExtend 64).sshiftRight 32).setWidth 32)
  | .mulhsu => reg (((o.src1.signExtend 64 * o.src2.setWidth 64) >>> 32).setWidth 32)
  | .mulhu => reg (((o.src1.setWidth 64 * o.src2.setWidth 64) >>> 32).setWidth 32)
  | .div =>
      if o.src2 = 0 then reg (-1)
      else if o.src1 = 0x80000000#32 ∧ o.src2 = -1 then reg 0x80000000#32
      else reg (o.src1.sdiv o.src2)
  | .divu => reg (if o.src2 = 0 then -1 else o.src1 / o.src2)
  | .rem =>
      if o.src2 = 0 then reg o.src1
      else if o.src1 = 0x80000000#32 ∧ o.src2 = -1 then reg 0
      else reg (o.src1.srem o.src2)
  | .remu => reg (if o.src2 = 0 then o.src1 else o.src1 % o.src2)
  | .addi => reg (o.src1 + o.imm)
  | .slti => reg (ofCmp (o.src1.slt o.imm))
  | .xori => reg (o.src1 ^^^ o.imm)
  | .ori => reg (o.src1 ||| o.imm)
  | .andi => reg (o.src1 &&& o.imm)
  | .jalr => some (m.setReg o.rd (pc + 4), (o.src1 + o.imm) &&& ~~~1)
  | .jal => some (m.setReg o.rd (pc + 4), pc + o.imm)
  | .bne => branch (o.src1 != o.src2)
  | .beq => branch (o.src1 == o.src2)
  | .blt => branch (o.src1.slt o.src2)
  | .bge => branch (!o.src1.slt o.src2)
  | .bltu => branch (o.src1.ult o.src2)
  | .bgeu => branch (!o.src1.ult o.src2)
  | .ebreak => some ({ m with nemuState := .ended pc (m.gpr 10) }, snpc)
  | .ecall => some (isaRaiseIntr m 11 pc)
  | .csrrw =>
      let a : BitVec 12 := o.imm.setWidth 12
      let m' := if o.rd ≠ 0 then m.setReg o.rd (m.csr a) else m
      some (m'.setCsr a o.src1, snpc)
  | .csrrs =>
      let a : BitVec 12 := o.imm.setWidth 12
      let m' := m.setReg o.rd (m.csr a)
      some (if o.src1 ≠ 0 then m'.setCsr a (m'.csr a ||| o.src1) else m', snpc)
  | .mret => some (m, m.csr 0x341#12)
  | .inv => some ({ m with nemuState := .aborted pc }, snpc)

/-- `decode_exec` for the word `inst` at `pc`: the first line whose pattern
accepts the word runs, and `x0` is reset. -/
def decodeExec (b : Build) (m : Machine) (pc inst : Word) : Option (Machine × Word) :=
  match instpats.find? (·.accepts inst) with
  | some r =>
      (body b m pc (decodeOperand m inst r.type) r.name).map fun p => (p.1.setReg 0 0, p.2)
  | none => some (m.setReg 0 0, pc + 4)

/-- `isa_exec_once`: fetch, then `decode_exec`. -/
def isaExecOnce (b : Build) (m : Machine) (pc : Word) : Option (Machine × Word) :=
  (paddrRead b m.pmem pc 4).bind fun inst => decodeExec b m pc inst

end Riscv32.Nemu
