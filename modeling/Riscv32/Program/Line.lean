import Riscv32.Data.Bytes
import Riscv32.Isa.Rv32im
import Riscv32.Program.Inevitable

/-!
# Assembly programs

A program as its assembly source has it: lines whose symbols are resolved to
addresses, laid out in memory one after the other.  How many instructions a
line takes is left open, since an assembler or a set of macros decides it;
`code a` is the line that begins at `a` together with the address of the next.
So one proof about a routine holds for every way of assembling it.

The machine has flat memory: every load and every store completes.

The lines are the instructions of the specification and the usual abbreviations
(`mv`, `li`, `ret`, `beqz` and the like), which are definitions and not lines of
their own.  `Installed code loc lines` places a routine in a program, and
`Installed.step` executes one line of it inside `Inevitable`.  `Keeps regs` is
the frame condition of a routine: the memory and all registers but `regs`.
-/

namespace Riscv32.Program

open Isa Data

abbrev Word := BitVec 32

/-! ## Registers -/

/-- The registers by their ABI names. -/
abbrev zero : Reg := 0#5
abbrev ra : Reg := 1#5
abbrev sp : Reg := 2#5
abbrev gp : Reg := 3#5
abbrev tp : Reg := 4#5
abbrev t0 : Reg := 5#5
abbrev s0 : Reg := 8#5
abbrev s1 : Reg := 9#5
abbrev a0 : Reg := 10#5
abbrev a1 : Reg := 11#5
abbrev a2 : Reg := 12#5
abbrev a3 : Reg := 13#5

attribute [simp] zero ra sp gp tp t0 s0 s1 a0 a1 a2 a3

section Registers

variable (h : Hart) (r s : Reg) (v : Word)

/-- The same hart somewhere else. -/
def goto (pc : Word) : Hart := { h with pc := pc }

@[simp] theorem get_zero : h.get 0#5 = 0#32 := rfl

@[simp] theorem get_goto (pc : Word) : (goto h pc).get r = h.get r := rfl

@[simp] theorem mem_goto (pc : Word) : (goto h pc).mem = h.mem := rfl

@[simp] theorem pc_goto (pc : Word) : (goto h pc).pc = pc := rfl

@[simp] theorem goto_goto (pc pc' : Word) : goto (goto h pc) pc' = goto h pc' := rfl

@[simp] theorem get_next : h.next.get s = h.get s := rfl

@[simp] theorem mem_next : h.next.mem = h.mem := rfl

/-- A register after a write; `x0` takes none. -/
theorem get_set : (h.set r v).get s = if s = r ∧ r ≠ 0 then v else h.get s := by
  by_cases hr : r = 0
  · rw [Hart.set, if_pos hr, if_neg fun hBoth => hBoth.2 hr]
  · by_cases hs : s = r
    · subst hs
      rw [if_pos ⟨rfl, hr⟩, Hart.get, if_neg hr, Hart.set, if_neg hr]
      exact if_pos rfl
    · simp only [Hart.get, Hart.set, if_neg hr, hs, false_and, if_false]

theorem get_set_self (hr : r ≠ 0) : (h.set r v).get r = v := by
  rw [get_set, if_pos ⟨rfl, hr⟩]

@[simp] theorem mem_set : (h.set r v).mem = h.mem := by
  unfold Hart.set
  split <;> rfl

@[simp] theorem pc_set : (h.set r v).pc = h.pc := by
  unfold Hart.set
  split <;> rfl

@[simp] theorem set_zero : h.set 0#5 v = h := rfl

theorem set_goto (pc : Word) : (goto h pc).set r v = goto (h.set r v) pc := by
  unfold Hart.set goto
  split <;> rfl

end Registers

/-! ## Lines -/

/-- A line of assembly.  `la` is `li` as well, and `jal` covers `j` and `call`. -/
inductive Line
  | load (op : LoadOp) (rd rs1 : Reg) (imm : BitVec 12)
  | store (op : StoreOp) (rs1 rs2 : Reg) (imm : BitVec 12)
  | opImm (op : ImmOp) (rd rs1 : Reg) (imm : BitVec 12)
  | shiftImm (op : ShiftOp) (rd rs1 : Reg) (shamt : BitVec 5)
  | op (op : RegOp) (rd rs1 rs2 : Reg)
  | not (rd rs : Reg)
  | seqz (rd rs : Reg)
  | sltz (rd rs : Reg)
  | lui (rd : Reg) (imm : BitVec 20)
  | la (rd : Reg) (symbol : Word)
  | branch (op : BranchOp) (rs1 rs2 : Reg) (target : Word)
  | jal (rd : Reg) (target : Word)
  | jalr (rd rs1 : Reg) (imm : BitVec 12)
deriving DecidableEq, Repr

/-- The effect of a line; `next` is the address of the one after it. -/
def Line.exec (next : Word) (h : Hart) : Line → Hart
  | .load f rd rs1 imm => goto (h.set rd (f.value h.mem (h.get rs1 + imm.signExtend 32))) next
  | .store f rs1 rs2 imm =>
      goto { h with
        mem := storeBytes h.mem (h.get rs1 + imm.signExtend 32) f.bytes (h.get rs2) } next
  | .opImm f rd rs1 imm => goto (h.set rd (f.value (h.get rs1) (imm.signExtend 32))) next
  | .shiftImm f rd rs1 shamt => goto (h.set rd (f.value (h.get rs1) shamt.toNat)) next
  | .op f rd rs1 rs2 => goto (h.set rd (f.value (h.get rs1) (h.get rs2))) next
  | .not rd rs => goto (h.set rd (~~~h.get rs)) next
  | .seqz rd rs => goto (h.set rd (setIf (h.get rs = 0))) next
  | .sltz rd rs => goto (h.set rd (setIf ((h.get rs).toInt < 0))) next
  | .lui rd imm => goto (h.set rd (imm ++ 0#12 : BitVec 32)) next
  | .la rd symbol => goto (h.set rd symbol) next
  | .branch f rs1 rs2 target =>
      goto h (if f.taken (h.get rs1) (h.get rs2) then target else next)
  | .jal rd target => goto (h.set rd next) target
  | .jalr rd rs1 imm => goto (h.set rd next) ((h.get rs1 + imm.signExtend 32) &&& ~~~1#32)

/-! ## Pseudo-instructions -/

section Pseudo

variable (rd rs rt : Reg) (target : Word)

abbrev mv : Line := .opImm .addi rd rs 0
abbrev li (imm : BitVec 12) : Line := .opImm .addi rd zero imm
abbrev neg : Line := .op .sub rd zero rs
abbrev beqz : Line := .branch .beq rs zero target
abbrev bnez : Line := .branch .bne rs zero target
abbrev blez : Line := .branch .bge zero rs target
abbrev bgez : Line := .branch .bge rs zero target
abbrev bltz : Line := .branch .blt rs zero target
abbrev bgtz : Line := .branch .blt zero rs target
abbrev bgtu : Line := .branch .bltu rt rs target
abbrev j : Line := .jal zero target
abbrev call : Line := .jal ra target
abbrev jr : Line := .jalr zero rs 0
abbrev ret : Line := jr ra

section Effects

variable {next : Word} {h : Hart} {rd rs rt : Reg} {target : Word}

@[simp] theorem exec_mv : (mv rd rs).exec next h = goto (h.set rd (h.get rs)) next := by
  simp [Line.exec, ImmOp.value]

@[simp] theorem exec_neg : (neg rd rs).exec next h = goto (h.set rd (-h.get rs)) next := by
  simp [Line.exec, RegOp.value]

/-- A branch, by what decides it. -/
theorem exec_branch (f : BranchOp) {taken : Prop} [Decidable taken]
    (hTaken : f.taken (h.get rs) (h.get rt) = decide taken) :
    (Line.branch f rs rt target).exec next h = goto h (if taken then target else next) := by
  rw [Line.exec, hTaken]
  by_cases hc : taken <;> simp [hc]

/-- `beqz` and the comparisons with zero, in the terms of the invariants. -/
theorem exec_beqz :
    (beqz rs target).exec next h = goto h (if h.get rs = 0 then target else next) :=
  exec_branch .beq rfl

theorem exec_bnez :
    (bnez rs target).exec next h = goto h (if h.get rs ≠ 0 then target else next) :=
  exec_branch .bne rfl

theorem exec_bltu : (Line.branch .bltu rs rt target).exec next h =
    goto h (if (h.get rs).toNat < (h.get rt).toNat then target else next) :=
  exec_branch .bltu rfl

theorem exec_bgeu : (Line.branch .bgeu rs rt target).exec next h =
    goto h (if (h.get rt).toNat ≤ (h.get rs).toNat then target else next) :=
  exec_branch .bgeu rfl

theorem exec_bltz :
    (bltz rs target).exec next h = goto h (if (h.get rs).toInt < 0 then target else next) :=
  exec_branch .blt rfl

theorem exec_bgez :
    (bgez rs target).exec next h = goto h (if 0 ≤ (h.get rs).toInt then target else next) :=
  exec_branch .bge rfl

theorem exec_blez :
    (blez rs target).exec next h = goto h (if (h.get rs).toInt ≤ 0 then target else next) :=
  exec_branch .bge rfl

theorem exec_bgtz :
    (bgtz rs target).exec next h = goto h (if 0 < (h.get rs).toInt then target else next) :=
  exec_branch .blt rfl

@[simp] theorem exec_j : (j target).exec next h = goto h target := rfl

@[simp] theorem exec_jr : (jr rs).exec next h = goto h (h.get rs &&& ~~~1#32) := by
  simp [Line.exec]

end Effects

end Pseudo

/-! ## Programs -/

/-- A program by address. -/
abbrev Code := Word → Option (Line × Word)

/-- The program takes a step. -/
def lineStep (code : Code) (h : Hart) : Option Hart :=
  (code h.pc).map fun p => p.1.exec p.2 h

/-- The lines stand in the program, line `i` at `loc i`. -/
def Installed (code : Code) (loc : Nat → Word) (lines : List Line) : Prop :=
  ∀ i (h : i < lines.length), code (loc i) = some (lines[i], loc (i + 1))

section Running

variable {code : Code} {loc : Nat → Word} {lines : List Line} {Q : Hart → Prop} {h : Hart}

/-- One line of an installed program. -/
theorem Installed.step (hIn : Installed code loc lines) (i : Nat) {l : Line}
    (hLine : lines[i]? = some l) (hPc : h.pc = loc i)
    (hRest : Inevitable (Steps (lineStep code)) Q (l.exec (loc (i + 1)) h)) :
    Inevitable (Steps (lineStep code)) Q h := by
  obtain ⟨hLt, hGet⟩ := List.getElem?_eq_some_iff.mp hLine
  refine .eval ?_ hRest
  rw [lineStep, hPc, hIn i hLt, hGet]
  rfl

end Running

/-! ## What is kept -/

/-- The memory and all registers but the `changed` ones are as they were. -/
structure Keeps (changed : List Reg) (h h' : Hart) : Prop where
  mem : h'.mem = h.mem
  get : ∀ r, r ∉ changed → h'.get r = h.get r

namespace Keeps

variable {changed more : List Reg} {h h' h'' : Hart}

/-- Nothing changed. -/
theorem refl : Keeps changed h h := ⟨rfl, fun _ _ => rfl⟩

/-- One routine after another. -/
theorem trans (hFirst : Keeps changed h h') (hThen : Keeps changed h' h'') :
    Keeps changed h h'' :=
  ⟨hThen.mem.trans hFirst.mem, fun r hr => (hThen.get r hr).trans (hFirst.get r hr)⟩

/-- More may change. -/
theorem mono (hKeep : Keeps changed h h') (hMore : changed ⊆ more) : Keeps more h h' :=
  ⟨hKeep.mem, fun r hr => hKeep.get r fun hIn => hr (hMore hIn)⟩

theorem goto (hKeep : Keeps changed h h') (pc : Word) : Keeps changed h (goto h' pc) :=
  ⟨hKeep.mem, hKeep.get⟩

/-- A register that may change. -/
theorem set (hKeep : Keeps changed h h') {r : Reg} (hr : r ∈ changed) (v : Word) :
    Keeps changed h (h'.set r v) := by
  refine ⟨(mem_set ..).trans hKeep.mem, fun s hs => ?_⟩
  rw [get_set, if_neg]
  · exact hKeep.get s hs
  · rintro ⟨rfl, -⟩
    exact hs hr

end Keeps

end Riscv32.Program
