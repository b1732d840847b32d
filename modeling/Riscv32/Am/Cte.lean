import Riscv32.Data.Frames
import Riscv32.Isa.Rv32im
import Riscv32.Rtl.Params

/-!
# Contexts and traps

`trap.S` and `cte.c` of the npc and ysyxsoc ports, which have the same text and
are built for RV32E.  The instructions of `trap.S` mean what the specification
says; `csrr`, `csrw`, `ecall` and `mret` are added here, as the core has them.
Words of a context are counted from its base.

The assembly is data (`asmSave`, `asmRestore`) and is executed, instruction by
instruction, by `runAsm`; an instruction that faults makes the run `none`.  The C
in between is `irqHandle`, with `user_handler` and whatever is compiled around it
as a parameter that may use all registers and change any memory.

The offsets that `trap.S` counts with are tied to the members of `struct Context`
by `offsets_members`.
-/

namespace Riscv32.Am.Cte

open Riscv32.Data
open Riscv32.Rtl (Word)
open Riscv32.Isa (Reg Hart Env Inst)

/-! ## `struct Context` -/

/-- `NR_REGS` of `riscv.h`. -/
abbrev nrRegs : Nat := 16

/-- The members of `struct Context`. -/
inductive Member
  | gpr (n : Nat)
  | mcause | mstatus | mepc | pdir
deriving DecidableEq, Repr

/-- The word a member stands at. -/
def Member.index : Member → Nat
  | gpr n => n
  | mcause => nrRegs
  | mstatus => nrRegs + 1
  | mepc => nrRegs + 2
  | pdir => nrRegs + 3

/-- `&c->m`. -/
def member (c : Word) (m : Member) : Word := slot c m.index

/-- `sizeof(Context)`. -/
def sizeofContext : Nat := 4 * (Member.pdir.index + 1)

/-- `kstack`: a piece of main memory, so not at `NULL`. -/
structure Area (env : Env) where
  start : Word
  stop : Word
  start_pos : 0 < start.toNat
  start_le : start.toNat ≤ stop.toNat
  mapped : ∀ a n, start.toNat ≤ a.toNat → a.toNat + n ≤ stop.toNat →
    env.canLoad a n = true ∧ env.canStore a n = true

/-! ## The hart with its CSRs -/

inductive Csr
  | mcause | mstatus | mepc
deriving DecidableEq, Repr

/-- A hart with the CSRs of traps. -/
structure Cpu where
  hart : Hart
  mcause : Word
  mstatus : Word
  mepc : Word
  mtvec : Word

namespace Cpu

/-- Its memory. -/
abbrev mem (c : Cpu) : Bytes := c.hart.mem

def csr (c : Cpu) : Csr → Word
  | .mcause => c.mcause
  | .mstatus => c.mstatus
  | .mepc => c.mepc

def setCsr (c : Cpu) (v : Word) : Csr → Cpu
  | .mcause => { c with mcause := v }
  | .mstatus => { c with mstatus := v }
  | .mepc => { c with mepc := v }

/-- `ecall`. -/
def ecall (c : Cpu) : Cpu :=
  { c with mepc := c.hart.pc, mcause := 11, hart := { c.hart with pc := c.mtvec } }

end Cpu

/-- The instructions of `trap.S`. -/
inductive Asm
  | inst (i : Inst)
  | csrr (rd : Reg) (csr : Csr)
  | csrw (csr : Csr) (rs : Reg)
  | mret

/-- `none` for an exception. -/
def Asm.exec (env : Env) (c : Cpu) : Asm → Option Cpu
  | inst i =>
      match Isa.exec env i c.hart with
      | .ok h => some { c with hart := h }
      | .error _ => none
  | csrr rd csr => some { c with hart := c.hart.next.set rd (c.csr csr) }
  | csrw csr rs => some ({ c with hart := c.hart.next }.setCsr (c.hart.get rs) csr)
  | mret => some { c with hart := { c.hart with pc := c.mepc } }

/-- Instructions one after the other. -/
def runAsm (env : Env) (code : List Asm) (c : Cpu) : Option Cpu :=
  code.foldlM (fun c a => a.exec env c) c

/-! ## `trap.S` -/

def sp : Reg := 2
def t0 : Reg := 5
def t1 : Reg := 6
def t2 : Reg := 7
def a0 : Reg := 10

/-- `XLEN`. -/
abbrev xlen : Nat := 4

/-- `CONTEXT_SIZE`. -/
abbrev contextSize : Nat := (nrRegs + 3 + 1) * xlen

/-- `OFFSET_CAUSE`. -/
abbrev offsetCause : Nat := (nrRegs + 0) * xlen

/-- `OFFSET_STATUS`. -/
abbrev offsetStatus : Nat := (nrRegs + 1) * xlen

/-- `OFFSET_EPC`. -/
abbrev offsetEpc : Nat := (nrRegs + 2) * xlen

/-- `REGS`: all registers but `zero` and `sp`. -/
def regs : List Nat := [1, 3, 4, 5, 6, 7, 8, 9, 10, 11, 12, 13, 14, 15]

/-- `STORE rs, off(sp)`. -/
def store (rs : Reg) (off : Nat) : Asm := .inst (.store .sw sp rs (BitVec.ofNat 12 off))

/-- `LOAD rd, off(sp)`. -/
def load (rd : Reg) (off : Nat) : Asm := .inst (.load .lw rd sp (BitVec.ofNat 12 off))

def push (n : Nat) : Asm := store (BitVec.ofNat 5 n) (n * xlen)

def pop (n : Nat) : Asm := load (BitVec.ofNat 5 n) (n * xlen)

/-- `addi sp, sp, imm`. -/
def addiSp (imm : Int) : Asm := .inst (.opImm .addi sp sp (BitVec.ofInt 12 imm))

/-- `mv rd, rs`. -/
def mv (rd rs : Reg) : Asm := .inst (.opImm .addi rd rs 0)

/-- `__am_asm_trap` up to the call. -/
def asmSave : List Asm :=
  addiSp (-contextSize) :: (regs.map push ++
    [.csrr t0 .mcause, .csrr t1 .mstatus, .csrr t2 .mepc,
      store t0 offsetCause, store t1 offsetStatus, store t2 offsetEpc,
      mv a0 sp])

/-- `__am_asm_trap` behind the call. -/
def asmRestore : List Asm :=
  [mv sp a0,
    load t1 offsetStatus, load t2 offsetEpc, .csrw .mstatus t1, .csrw .mepc t2] ++
  (regs.map pop ++ [addiSp contextSize, .mret])

/-! ## `cte.c` -/

inductive Event
  | yield | error
deriving DecidableEq, Repr

/-- What a call of `user_handler` comes to: the context returned, and the hart
when the compiled `__am_irq_handle` returns. -/
structure Handled where
  context : Word
  hart : Hart

/-- `user_handler`, with the code compiled around it: it may use all registers. -/
abbrev Handler := Event → Word → Hart → Handled

/-- The `switch` of `__am_irq_handle`: the event, and the memory with the
`mepc` of a yield moved on. -/
def irqEvent (c : Word) (mem : Bytes) : Event × Bytes :=
  if mem.loadWord (member c .mcause) = 11 then
    (.yield, mem.storeWord (member c .mepc) (mem.loadWord (member c .mepc) + 4))
  else (.error, mem)

/-- `__am_irq_handle`; `none` if the assertion fails. -/
def irqHandle (handler : Option Handler) (h : Hart) : Option Hart :=
  match handler with
  | none => some h
  | some userHandler =>
      let ev := irqEvent (h.get a0) h.mem
      let r := userHandler ev.1 (h.get a0) { h with mem := ev.2 }
      if r.context = 0 then none else some (r.hart.set a0 r.context)

/-- `__am_asm_trap`. -/
def trap (env : Env) (handler : Option Handler) (c : Cpu) : Option Cpu := do
  let c ← runAsm env asmSave c
  let h ← irqHandle handler c.hart
  runAsm env asmRestore { c with hart := h }

/-- `cte_init`; `asmTrap` is the address of `__am_asm_trap`. -/
def cteInit (asmTrap : Word) (c : Cpu) : Cpu := { c with mtvec := asmTrap }

/-- The `ecall` of `yield`, up to the `mret`; `none` if `mtvec` points elsewhere. -/
def takeTrap (env : Env) (asmTrap : Word) (handler : Option Handler) (c : Cpu) : Option Cpu :=
  if c.ecall.hart.pc = asmTrap then trap env handler c.ecall else none

/-- `kcontext`: the context and the memory. -/
def kcontext (mem : Bytes) (kstackEnd entry arg : Word) : Word × Bytes :=
  let cp := kstackEnd - BitVec.ofNat 32 sizeofContext
  (cp, storeFrame mem cp
    [(Member.mepc.index, entry), (Member.mstatus.index, 0x1800), ((Member.gpr 10).index, arg),
      ((Member.gpr 2).index, cp)])

/-- The offsets of `trap.S` are those of the members of the C structure. -/
theorem offsets_members :
    offsetCause = Member.mcause.index * xlen ∧ offsetStatus = Member.mstatus.index * xlen ∧
      offsetEpc = Member.mepc.index * xlen := ⟨rfl, rfl, rfl⟩

end Riscv32.Am.Cte
