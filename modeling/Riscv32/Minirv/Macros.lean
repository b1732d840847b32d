import Riscv32.Minirv.Scratch

/-!
# The macros of minirv

A minirv core has `add`, `addi`, `lui`, `lw`, `lbu`, `sw`, `sb` and `jalr`.
Every other line of a program is replaced by lines of these by a macro of the
assembler.  The macros use `tp` and `gp` and the variables below the stack
pointer; `s0` and `s1` they save and restore.

A macro is a function from its operands to a list of lines, under the name it has
in `inst-replace.h`; where the source tests an operand while assembling, so does
the function, and `none` stands for the error it reports.  `expand` is the macro
that is chosen for a line.
-/

namespace Riscv32.Minirv

open Isa Program

abbrev varA : Nat := 4
abbrev varB : Nat := 5
abbrev varC : Nat := 6
abbrev varD : Nat := 7

attribute [simp] varA varB varC varD

namespace Macro

abbrev add (rd rs1 rs2 : Reg) : Line := .op .add rd rs1 rs2
abbrev addi (rd rs1 : Reg) (imm : BitVec 12) : Line := .opImm .addi rd rs1 imm
abbrev la (rd : Reg) (addr : Word) : Line := .la rd addr
abbrev lbuAt (rd rs1 : Reg) : Line := .load .lbu rd rs1 0
abbrev sbAt (rs rs1 : Reg) : Line := .store .sb rs1 rs 0
abbrev lwAt (rd rs1 : Reg) : Line := .load .lw rd rs1 0

variable (t : Symbols)

/-! ## Bytes of a register -/

def getbyte (rd rs1 : Reg) (byte : Nat) : List Line := [sw rs1 varC, lbu rd varC byte]

/-- `slli` by less than sixteen. -/
def slliShort (rd rs1 : Reg) (imm : Nat) : List Line :=
  if imm = 0 then if rd ≠ rs1 then [mv rd rs1] else []
  else add rd rs1 rs1 :: List.replicate (imm - 1) (add rd rd rd)

def sh (rs rs1 : Reg) (imm : BitVec 12) : List Line :=
  .store .sb rs1 rs imm :: (getbyte tp rs 1 ++ [.store .sb rs1 tp (imm + 1)])

-- The `slli` that is left after a byte move is by less than eight.
def slli (rd rs1 : Reg) (imm : Nat) : List Line :=
  if 24 ≤ imm then
    [sw zero varA, sb rs1 varA 3, lw rd varA] ++ slliShort rd rd (imm - 24)
  else if 16 ≤ imm then
    sw zero varA :: (sh rs1 sp (spVarByte varA 2) ++ (lw rd varA :: slliShort rd rd (imm - 16)))
  else slliShort rd rs1 imm

def msb (rd rs1 : Reg) : List Line :=
  getbyte rd rs1 3 ++ (slliShort rd rd 1 ++ getbyte rd rd 1)

/-! ## Subtraction and comparison -/

def notByte (boffset : Nat) : List Line :=
  [lbu gp varC boffset, add gp gp tp, lbuAt gp gp, sb gp varD boffset]

def not (rd rs1 : Reg) : List Line :=
  [sw gp 3, sw rs1 varC, la tp (t.xor8Table + 0xff <<< 8)] ++
    (notByte 3 ++ (notByte 2 ++ (notByte 1 ++ (notByte 0 ++ [lw gp 3, lw rd varD]))))

def sub (rd rs1 rs2 : Reg) : List Line :=
  not t tp rs2 ++ [add rd rs1 tp, addi rd rd 1]

def sltTemplate (lut : Word) (rd rs1 rs2 : Reg) : List Line :=
  [sw s0 1, sw s1 2, sw rs2 varA, mv s0 rs1, lw s1 varA] ++
    (msb gp s0 ++ (slliShort gp gp 1 ++ (msb tp s1 ++ (add gp gp tp :: (slliShort gp gp 1 ++
      (sub t tp s0 s1 ++ (msb tp tp ++
        [add gp gp tp, la tp lut, add tp tp gp, lw s1 2, lw s0 1, lbuAt rd tp])))))))

def slt (rd rs1 rs2 : Reg) : List Line := sltTemplate t t.slt1Table rd rs1 rs2

def sltu (rd rs1 rs2 : Reg) : List Line := sltTemplate t t.sltu1Table rd rs1 rs2

/-! ## Logic -/

def logic8ByteInternal (lutReg : Reg) (boffset : Nat) : List Line :=
  [lbu tp varA boffset, sb tp varD 1, lbu tp varB boffset, sb tp varD 0, lw tp varD,
    add tp lutReg tp, lbuAt tp tp, sb tp varC boffset]

/-- `none` where the assembler gives up. -/
def logic (lut : Word) (rd rs1 rs2 : Reg) : Option (List Line) :=
  if rd = zero then some []
  else if rd = sp ∨ rs1 = sp ∨ rs2 = sp then none
  else if rd = gp ∨ rs1 = gp ∨ rs2 = gp then none
  else if rd = tp ∨ rs1 = tp then none
  else some ([sw rs1 varA, sw rs2 varB, la rd lut, sw zero varD] ++
    (logic8ByteInternal rd 3 ++ (logic8ByteInternal rd 2 ++ (logic8ByteInternal rd 1 ++
      (logic8ByteInternal rd 0 ++ [lw rd varC])))))

/-! ## Equality -/

/-- `rd` becomes zero if the bytes are the same. -/
def check8bitSame (table rd : Reg) (boffset : Nat) : List Line :=
  [lbu rd varA boffset, add tp table rd, addi rd zero 1, sbAt rd tp,
    lbu rd varB boffset, add rd table rd, sbAt zero rd, lbuAt rd tp]

/-- Set if equal. -/
def seq (rd rs1 rs2 : Reg) : List Line :=
  [sw rs1 varA, sw rs2 varB, sw s0 1, sw s1 2, la s0 t.checkSameArray] ++
    (check8bitSame s0 gp 0 ++ (check8bitSame s0 s1 1 ++ (add gp gp s1 ::
      (check8bitSame s0 s1 2 ++ (add gp gp s1 :: (check8bitSame s0 s1 3 ++
        [add gp gp s1, la tp t.sameResultTable, add tp tp gp, lbuAt rd tp, lw s1 2, lw s0 1]))))))

/-- `rd` becomes zero if the byte is. -/
def check8bit0 (table rd : Reg) (boffset : Nat) : List Line :=
  [lbu rd varA boffset, add rd table rd, lbuAt rd rd]

/-- Set if zero. -/
def seqz (rd rs1 : Reg) : List Line :=
  [sw rs1 varA, sw s0 1, la s0 t.check8bit0Table] ++
    (check8bit0 s0 gp 0 ++ (check8bit0 s0 tp 1 ++ (add gp gp tp :: (check8bit0 s0 tp 2 ++
      (add gp gp tp :: (check8bit0 s0 tp 3 ++
        [add gp gp tp, la tp t.sameResultTable, add tp tp gp, lbuAt rd tp, lw s0 1]))))))

/-! ## Branches -/

/-- Jumps to one of two addresses: where `tp` is one to the upper word. -/
def branchResolve (target : Word) (isTpHighSelTarget : Bool) (label : Word) : List Line :=
  slliShort tp tp 2 ++ (add tp sp tp ::
    ((if isTpHighSelTarget then [la gp target, sw gp varA, la gp label, sw gp varB]
      else [la gp label, sw gp varA, la gp target, sw gp varB]) ++
      [.load .lw tp tp (spVar varB), jr tp]))

section Branches

variable (rs1 rs2 : Reg) (target label : Word)

/-- `tp` becomes one if the registers are equal. -/
def sameTp : List Line :=
  if rs2 = zero then seqz t tp rs1 else if rs1 = zero then seqz t tp rs2 else seq t tp rs1 rs2

def beq : List Line := sameTp t rs1 rs2 ++ branchResolve target true label

def bne : List Line := sameTp t rs1 rs2 ++ branchResolve target false label

/-- `tp` becomes one if `rs2` is not positive: it or its predecessor is negative. -/
def notPositiveTp : List Line :=
  msb gp rs2 ++ (addi tp rs2 (-1) :: (msb tp tp ++
    [add gp gp tp, la tp t.or1Table, add tp gp tp, lbuAt tp tp]))

def blt : List Line :=
  if rs2 = zero then msb tp rs1 ++ branchResolve target true label
  else if rs1 = zero then notPositiveTp t rs2 ++ branchResolve target false label
  else slt t tp rs1 rs2 ++ branchResolve target true label

def bltu : List Line := sltu t tp rs1 rs2 ++ branchResolve target true label

def bge : List Line :=
  if rs1 = zero then notPositiveTp t rs2 ++ branchResolve target true label
  else slt t tp rs1 rs2 ++ branchResolve target false label

def bgeu : List Line := sltu t tp rs1 rs2 ++ branchResolve target false label

end Branches

/-! ## Shifts -/

def getshamt (rd rs1 : Reg) : List Line :=
  [sb rs1 varB 0, lbu rd varB 0, la tp (t.and8Table + 0x1f <<< 8), add rd rd tp, lbuAt rd rd]

def getShiftByteInTp (base : Reg) (boffset : Nat) : List Line :=
  lbu tp varA boffset :: (slliShort tp tp 2 ++ [add tp base tp, lwAt tp tp])

/-- `s0` points to the row of the table that the register selects. -/
def shiftRow (rs2 : Reg) (table : Word) : List Line :=
  getshamt t s0 rs2 ++ ([sw zero varB, sb s0 varB 1, lw s0 varB] ++
    (slliShort s0 s0 2 ++ [la tp table, add s0 s0 tp]))

def sll (rd rs1 rs2 : Reg) : List Line :=
  [sw s0 1, sw rs1 varA] ++ (shiftRow t rs2 t.sll8Table ++ (sw zero varB ::
    (getShiftByteInTp s0 3 ++ ([sb tp varB 3, lw gp varB] ++
      (getShiftByteInTp s0 2 ++ (sh tp sp (spVarByte varB 2) ++ ([lw tp varB, add gp gp tp] ++
        (getShiftByteInTp s0 1 ++ (slliShort tp tp 8 ++ (add gp gp tp ::
          (getShiftByteInTp s0 0 ++ [lw s0 1, add rd gp tp])))))))))))

/-- The second operand of a shift to the right. -/
inductive Amount
  | reg (rs2 : Reg)
  | imm (shamt : Nat)
deriving DecidableEq, Repr

def amountRow : Amount → List Line
  | .reg rs2 => shiftRow t rs2 t.srl8Table
  | .imm shamt => [la s0 (t.srl8Table + BitVec.ofNat 32 shamt <<< 10)]

/-- The lower three bytes of the result from the words of the lower three bytes;
none of the additions carries. -/
def combineLow : List Line :=
  [lbu gp varB 1, lbu tp varC 2, add gp gp tp, lbu tp varD 3, add gp gp tp, sw gp varD,
    lbu gp varB 2, lbu tp varC 3, add gp gp tp, sb gp varD 1,
    lbu gp varB 3, sb gp varD 2, lw gp varD]

def shiftRightTemplate (rd rs1 : Reg) (amount : Amount) (isArith : Bool) : List Line :=
  if amount = .imm 24 then
    if isArith then
      [sw rs1 varA, la tp (t.sra8Table + 24 <<< 10), lbu rd varA 3] ++
        (slliShort rd rd 2 ++ [add tp tp rd, lwAt rd tp])
    else getbyte rd rs1 3
  else
    [sw s0 1, sw rs1 varA] ++ (amountRow t amount ++
      (getShiftByteInTp s0 2 ++ (sw tp varB :: (getShiftByteInTp s0 1 ++ (sw tp varC ::
        (getShiftByteInTp s0 0 ++ (sw tp varD :: (combineLow ++
          ((if isArith then [la tp (t.sra8Table - t.srl8Table), add s0 s0 tp] else []) ++
            (getShiftByteInTp s0 3 ++ [lw s0 1, add rd gp tp]))))))))))

def srl (rd rs1 rs2 : Reg) : List Line := shiftRightTemplate t rd rs1 (.reg rs2) false

def sra (rd rs1 rs2 : Reg) : List Line := shiftRightTemplate t rd rs1 (.reg rs2) true

def srli (rd rs1 : Reg) (imm : Nat) : List Line := shiftRightTemplate t rd rs1 (.imm imm) false

def srai (rd rs1 : Reg) (imm : Nat) : List Line := shiftRightTemplate t rd rs1 (.imm imm) true

/-! ## Loads -/

def lb (rd rs1 : Reg) (imm : BitVec 12) : List Line :=
  [sw zero varA, .load .lbu rd rs1 imm, sb rd varA 3, lw rd varA] ++ srai t rd rd 24

def lhu (rd rs1 : Reg) (imm : BitVec 12) : List Line :=
  [sw zero varA, .load .lbu tp rs1 (imm + 1), sb tp varA 1, lw tp varA, .load .lbu rd rs1 imm,
    add rd rd tp]

def lh (rd rs1 : Reg) (imm : BitVec 12) : List Line :=
  [sw zero varA, .load .lbu gp rs1 (imm + 1), sb gp varA 3, lw gp varA] ++
    (srai t gp gp 16 ++ [.load .lbu rd rs1 imm, add rd rd gp])

/-! ## Jumps -/

def jal (rd : Reg) (target : Word) : List Line :=
  if rd = zero then [la tp target, .jalr zero tp 0] else [la rd target, .jalr rd rd 0]

end Macro

open Macro in
/-- What the assembler makes of a line that is followed by `next`; `none` where
it reports an error. -/
def expand (t : Symbols) (next : Word) : Line → Option (List Line)
  | .load .lw rd rs1 imm => some [.load .lw rd rs1 imm]
  | .load .lbu rd rs1 imm => some [.load .lbu rd rs1 imm]
  | .load .lb rd rs1 imm => some (lb t rd rs1 imm)
  | .load .lh rd rs1 imm => if imm = 0x7ff then none else some (lh t rd rs1 imm)
  | .load .lhu rd rs1 imm => if imm = 0x7ff then none else some (lhu rd rs1 imm)
  | .store .sw rs1 rs2 imm => some [.store .sw rs1 rs2 imm]
  | .store .sb rs1 rs2 imm => some [.store .sb rs1 rs2 imm]
  | .store .sh rs1 rs2 imm => if imm = 0x7ff then none else some (sh rs2 rs1 imm)
  | .opImm .addi rd rs1 imm => some [addi rd rs1 imm]
  | .opImm .slti rd rs1 imm => some (li tp imm :: slt t rd rs1 tp)
  | .opImm .sltiu rd rs1 imm => some (li tp imm :: sltu t rd rs1 tp)
  | .opImm .andi rd rs1 imm => (logic t.and8Table rd rs1 tp).map (li tp imm :: ·)
  | .opImm .ori rd rs1 imm => (logic t.or8Table rd rs1 tp).map (li tp imm :: ·)
  | .opImm .xori rd rs1 imm => (logic t.xor8Table rd rs1 tp).map (li tp imm :: ·)
  | .shiftImm .slli rd rs1 shamt => some (slli rd rs1 shamt.toNat)
  | .shiftImm .srli rd rs1 shamt => some (srli t rd rs1 shamt.toNat)
  | .shiftImm .srai rd rs1 shamt => some (srai t rd rs1 shamt.toNat)
  | .op .add rd rs1 rs2 => some [add rd rs1 rs2]
  | .op .sub rd rs1 rs2 => some (sub t rd rs1 rs2)
  | .op .slt rd rs1 rs2 => some (slt t rd rs1 rs2)
  | .op .sltu rd rs1 rs2 => some (sltu t rd rs1 rs2)
  | .op .and rd rs1 rs2 => logic t.and8Table rd rs1 rs2
  | .op .or rd rs1 rs2 => logic t.or8Table rd rs1 rs2
  | .op .xor rd rs1 rs2 => logic t.xor8Table rd rs1 rs2
  | .op .sll rd rs1 rs2 => some (sll t rd rs1 rs2)
  | .op .srl rd rs1 rs2 => some (srl t rd rs1 rs2)
  | .op .sra rd rs1 rs2 => some (sra t rd rs1 rs2)
  | .op _ _ _ _ => none
  | .not rd rs => some (not t rd rs)
  | .seqz rd rs => some (seqz t rd rs)
  | .sltz rd rs => some (msb rd rs)
  | .lui rd imm => some [.lui rd imm]
  | .la rd symbol => some [.la rd symbol]
  | .branch .beq rs1 rs2 target => some (beq t rs1 rs2 target next)
  | .branch .bne rs1 rs2 target => some (bne t rs1 rs2 target next)
  | .branch .blt rs1 rs2 target => some (blt t rs1 rs2 target next)
  | .branch .bge rs1 rs2 target => some (bge t rs1 rs2 target next)
  | .branch .bltu rs1 rs2 target => some (bltu t rs1 rs2 target next)
  | .branch .bgeu rs1 rs2 target => some (bgeu t rs1 rs2 target next)
  | .jal rd target => some (jal rd target)
  | .jalr rd rs1 imm => some [.jalr rd rs1 imm]

end Riscv32.Minirv
