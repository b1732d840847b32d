import Riscv32.Data.Bytes
import Riscv32.Isa.Arith
import Riscv32.Minirv.Tables

/-!
# The words below the stack pointer

The macros of minirv keep their variables in the seven words below the stack
pointer, which the compiled code does not use, and read them back as bytes as
well as words.  Here is what a line that works on them does, and what a run of
such lines leaves alone.

The variables are read as functions of the machine (`var`, `cell`), with a lemma
for each kind of line; the addresses are worked out once, in these.  `Touches` is
the frame condition of a macro: all registers but a few and all memory but some
variables are as they were.  `run_touches` derives it for a run of lines from
what each of them may write (`Works`), which is decided by looking at the lines.
-/

namespace Riscv32.Minirv

open Isa Program

/-! ## Words and bytes -/

section Bytes

variable (w : Word)

/-- Byte `k` of a word. -/
def byteOf (k : Nat) : BitVec 8 := w.extractLsb' (8 * k) 8

/-- Logic operations work on each byte by itself. -/
theorem byteOf_and (w v : Word) (k : Nat) : byteOf (w &&& v) k = byteOf w k &&& byteOf v k :=
  BitVec.extractLsb'_and

theorem byteOf_or (w v : Word) (k : Nat) : byteOf (w ||| v) k = byteOf w k ||| byteOf v k :=
  BitVec.extractLsb'_or

theorem byteOf_xor (w v : Word) (k : Nat) : byteOf (w ^^^ v) k = byteOf w k ^^^ byteOf v k :=
  BitVec.extractLsb'_xor

@[simp] theorem byteOf_zero (k : Nat) : byteOf 0#32 k = 0#8 := by simp [byteOf]

theorem byteOf_not (w : Word) {k : Nat} (hk : k < 4) : byteOf (~~~w) k = ~~~byteOf w k := by
  have hIn : 8 * k + 8 ≤ 32 := by omega
  apply BitVec.eq_of_getLsbD_eq
  intro i hi
  simp [byteOf, hi, show 8 * k + i < 32 by omega]

@[simp] theorem byteOf_setWidth (b : Byte) : byteOf (b.setWidth 32) 0 = b := by
  apply BitVec.eq_of_toNat_eq
  rw [byteOf, extractLsb'_byte]
  simp [b.isLt]

theorem byteOf_ofNat (b : Byte) : byteOf (BitVec.ofNat 32 b.toNat) 0 = b := by
  rw [BitVec.ofNat_toNat, byteOf_setWidth]

/-- The number that four bytes make up. -/
theorem toNat_bytes (d c b a : Byte) : (d ++ c ++ b ++ a : Word).toNat =
    d.toNat * 16777216 + c.toNat * 65536 + b.toNat * 256 + a.toNat := by
  simp only [BitVec.toNat_append]
  rw [← Nat.shiftLeft_add_eq_or_of_lt a.isLt, ← Nat.shiftLeft_add_eq_or_of_lt b.isLt,
    ← Nat.shiftLeft_add_eq_or_of_lt c.isLt]
  simp only [Nat.shiftLeft_eq]
  ring

theorem toNat_byteOf (k : Nat) : (byteOf w k).toNat = w.toNat / 256 ^ k % 256 := by
  rw [byteOf, extractLsb'_byte, BitVec.toNat_ofNat]

@[simp] theorem word_of_bytes :
    (byteOf w 3 ++ byteOf w 2 ++ byteOf w 1 ++ byteOf w 0 : Word) = w := by
  apply BitVec.eq_of_toNat_eq
  have hw := w.isLt
  simp only [toNat_bytes, toNat_byteOf]
  omega

/-- A loaded word by its bytes. -/
theorem lw_word (mem : Word → Byte) (a : Word) : LoadOp.lw.value mem a =
    (mem (a + 3) ++ mem (a + 2) ++ mem (a + 1) ++ mem a : Word) := by
  rw [LoadOp.value, ← toNat_word, BitVec.ofNat_toNat, BitVec.setWidth_eq]

theorem lbu_byte (mem : Word → Byte) (a : Word) :
    LoadOp.lbu.value mem a = (mem a).setWidth 32 := by
  apply BitVec.eq_of_toNat_eq
  simp [LoadOp.value, loadBytes]

/-- A store, byte by byte. -/
theorem storeBytes_apply (mem : Word → Byte) (a : Word) (n : Nat) (x : Word) :
    storeBytes mem a n w x = if (x - a).toNat < n then
      BitVec.ofNat 8 (w.toNat / 256 ^ (x - a).toNat) else mem x := rfl

end Bytes

/-! ## Variables -/

section Variables

/-- `SP_VAR_BYTE(n, boffset)`. -/
def spVarByte (n boffset : Nat) : BitVec 12 := BitVec.ofInt 12 (-(n : Int) * 4 + boffset)

/-- `SP_VAR(n)`. -/
abbrev spVar (n : Nat) : BitVec 12 := spVarByte n 0

variable (h : Hart) (r : Reg) (v : Word) (n k : Nat)

/-- The address is one of the seven words below the stack pointer. -/
def InScratch (a : Word) : Prop := (a - (h.get sp - 28)).toNat < 28

/-- The address of byte `k` of variable `n`. -/
def cellAddr : Word := h.get sp - 28 + BitVec.ofNat 32 (28 - 4 * n + k)

/-- A byte of a variable. -/
def cell : Byte := h.mem (cellAddr h n k)

/-- A variable. -/
def var : Word := cell h n 3 ++ cell h n 2 ++ cell h n 1 ++ cell h n 0

/-- Stores to a variable, by byte and by word. -/
def putByte : Hart := { h with mem := storeBytes h.mem (cellAddr h n k) 1 v }

def putWord : Hart := { h with mem := storeBytes h.mem (cellAddr h n 0) 4 v }

@[simp] theorem get_putByte : (putByte h v n k).get r = h.get r := by
  simp only [Hart.get, putByte]

@[simp] theorem get_putWord : (putWord h v n).get r = h.get r := by
  simp only [Hart.get, putWord]

@[simp] theorem pc_putByte : (putByte h v n k).pc = h.pc := by
  simp only [putByte]

@[simp] theorem pc_putWord : (putWord h v n).pc = h.pc := by
  simp only [putWord]

theorem mem_putByte : (putByte h v n k).mem = storeBytes h.mem (cellAddr h n k) 1 v := rfl

theorem mem_putWord : (putWord h v n).mem = storeBytes h.mem (cellAddr h n 0) 4 v := rfl

variable {h r v n k}

/-- The operand `SP_VAR_BYTE` addresses the byte. -/
theorem spVar_offset (hLow : 1 ≤ n) (hHigh : n ≤ 7) (hk : k < 4) :
    h.get sp + (spVarByte n k).signExtend 32 = cellAddr h n k := by
  have hOffset : ∀ n < 8, 1 ≤ n → ∀ k < 4, (spVarByte n k).signExtend 32 =
      BitVec.ofNat 32 (28 - 4 * n + k) - 28 := by decide
  rw [hOffset n (by omega) hLow k hk, cellAddr, BitVec.sub_eq_add_neg, BitVec.sub_eq_add_neg]
  ac_rfl

theorem cellAddr_sub {m j : Nat} : cellAddr h m j - cellAddr h n k =
    BitVec.ofNat 32 (28 - 4 * m + j) - BitVec.ofNat 32 (28 - 4 * n + k) := by
  rw [cellAddr, cellAddr]
  bv_omega

/-- Where a variable lies among the seven words. -/
theorem cellAddr_offset :
    cellAddr h n k - (h.get sp - 28) = BitVec.ofNat 32 (28 - 4 * n + k) := by
  rw [cellAddr]
  bv_omega

/-- The bytes of the variables stand apart. -/
@[simp] theorem cell_putByte (hLow : 1 ≤ n) (hHigh : n ≤ 7) (hk : k < 4) {m j : Nat} (hLow' : 1 ≤ m)
    (hHigh' : m ≤ 7) (hj : j < 4) :
    cell (putByte h v n k) m j = if m = n ∧ j = k then byteOf v 0 else cell h m j := by
  have hAddr : cellAddr (putByte h v n k) m j = cellAddr h m j := rfl
  rw [cell, hAddr, mem_putByte, storeBytes_apply, cellAddr_sub]
  by_cases hSame : m = n ∧ j = k
  · obtain ⟨rfl, rfl⟩ := hSame
    rw [BitVec.sub_self, if_pos (by decide), if_pos ⟨rfl, rfl⟩, byteOf, extractLsb'_byte]
    rfl
  · rw [if_neg hSame, if_neg]
    · rfl
    · rw [BitVec.toNat_sub, BitVec.toNat_ofNat, BitVec.toNat_ofNat]
      omega

@[simp] theorem cell_putWord (hLow : 1 ≤ n) (hHigh : n ≤ 7) {m j : Nat} (hLow' : 1 ≤ m)
    (hHigh' : m ≤ 7) (hj : j < 4) :
    cell (putWord h v n) m j = if m = n then byteOf v j else cell h m j := by
  have hAddr : cellAddr (putWord h v n) m j = cellAddr h m j := rfl
  have hDistance : (BitVec.ofNat 32 (28 - 4 * m + j) - BitVec.ofNat 32 (28 - 4 * n + 0)).toNat =
      (4294967296 + (28 - 4 * m + j) - (28 - 4 * n)) % 4294967296 := by
    rw [BitVec.toNat_sub, BitVec.toNat_ofNat, BitVec.toNat_ofNat]
    omega
  rw [cell, hAddr, mem_putWord, storeBytes_apply, cellAddr_sub, hDistance]
  by_cases hSame : m = n
  · subst hSame
    rw [if_pos rfl, if_pos (by omega), byteOf, extractLsb'_byte]
    congr 3
    omega
  · rw [if_neg hSame, if_neg (by omega)]
    rfl

@[simp] theorem cell_set (hr : r ≠ sp) (m j : Nat) : cell (h.set r v) m j = cell h m j := by
  rw [cell, cell, cellAddr, cellAddr, get_set, if_neg fun hEq => hr hEq.1.symm, mem_set]

end Variables

/-! ## Lines -/

/-- What a line that does not jump does. -/
def act (l : Line) (h : Hart) : Hart := l.exec h.pc h

/-- What a stretch of such lines does. -/
def run (ls : List Line) (h : Hart) : Hart := ls.foldl (fun h l => act l h) h

@[simp] theorem run_nil (h : Hart) : run [] h = h := by rw [run, List.foldl_nil]

@[simp] theorem run_cons (l : Line) (ls : List Line) (h : Hart) :
    run (l :: ls) h = run ls (act l h) := by rw [run, run, List.foldl_cons]

@[simp] theorem run_append (ls ls' : List Line) (h : Hart) :
    run (ls ++ ls') h = run ls' (run ls h) := List.foldl_append

section Lines

/-- The accesses to a variable. -/
abbrev sw (r : Reg) (n : Nat) : Line := .store .sw sp r (spVar n)
abbrev lw (r : Reg) (n : Nat) : Line := .load .lw r sp (spVar n)
abbrev sb (r : Reg) (n boffset : Nat) : Line := .store .sb sp r (spVarByte n boffset)
abbrev lbu (r : Reg) (n boffset : Nat) : Line := .load .lbu r sp (spVarByte n boffset)

variable {h : Hart} {n k : Nat} {rd rs1 rs2 : Reg} {imm : BitVec 12} {symbol : Word}

theorem goto_set_pc (v : Word) : goto (h.set rd v) h.pc = h.set rd v := by
  rw [← pc_set h rd v]
  rfl

@[simp] theorem act_add : act (.op .add rd rs1 rs2) h = h.set rd (h.get rs1 + h.get rs2) :=
  goto_set_pc _

@[simp] theorem act_addi :
    act (.opImm .addi rd rs1 imm) h = h.set rd (h.get rs1 + imm.signExtend 32) :=
  goto_set_pc _

@[simp] theorem act_la : act (.la rd symbol) h = h.set rd symbol := goto_set_pc _

/-- A load from elsewhere. -/
theorem act_lw_at : act (.load .lw rd rs1 imm) h =
    h.set rd (LoadOp.lw.value h.mem (h.get rs1 + imm.signExtend 32)) :=
  goto_set_pc _

theorem act_lbu_at : act (.load .lbu rd rs1 imm) h =
    h.set rd ((h.mem (h.get rs1 + imm.signExtend 32)).setWidth 32) := by
  rw [← lbu_byte]
  exact goto_set_pc _

@[simp] theorem act_lbuAt : act (.load .lbu rd rs1 0) h =
    h.set rd ((h.mem (h.get rs1)).setWidth 32) := by
  rw [act_lbu_at, show (0 : BitVec 12).signExtend 32 = 0#32 by decide, BitVec.add_zero]

@[simp] theorem act_lwAt : act (.load .lw rd rs1 0) h =
    h.set rd (LoadOp.lw.value h.mem (h.get rs1)) := by
  rw [act_lw_at, show (0 : BitVec 12).signExtend 32 = 0#32 by decide, BitVec.add_zero]

@[simp] theorem act_sw (hLow : 1 ≤ n) (hHigh : n ≤ 7) :
    act (sw rs2 n) h = putWord h (h.get rs2) n := by
  rw [putWord, ← spVar_offset hLow hHigh (by decide)]
  rfl

@[simp] theorem act_sb (hLow : 1 ≤ n) (hHigh : n ≤ 7) (hk : k < 4) :
    act (sb rs2 n k) h = putByte h (h.get rs2) n k := by
  rw [putByte, ← spVar_offset hLow hHigh hk]
  rfl

@[simp] theorem act_lw (hLow : 1 ≤ n) (hHigh : n ≤ 7) : act (lw rd n) h = h.set rd (var h n) := by
  rw [act_lw_at, spVar_offset hLow hHigh (by decide), lw_word]
  have hNext : ∀ j : Nat, cellAddr h n 0 + BitVec.ofNat 32 j = cellAddr h n j := fun j => by
    rw [cellAddr, cellAddr, BitVec.add_assoc, ← BitVec.ofNat_add, Nat.add_zero]
  rw [var, cell, cell, cell, cell, ← hNext 3, ← hNext 2, ← hNext 1]
  rfl

@[simp] theorem act_lbu (hLow : 1 ≤ n) (hHigh : n ≤ 7) (hk : k < 4) :
    act (lbu rd n k) h = h.set rd ((cell h n k).setWidth 32) := by
  rw [act_lbu_at, spVar_offset hLow hHigh hk, cell]

end Lines

/-! ## What is left alone -/

/-- All registers but `regs` and all memory but `area` are as they were. -/
structure Touches (regs : List Reg) (area : Word → Prop) (h h' : Hart) : Prop where
  pc : h'.pc = h.pc
  get : ∀ r, r ∉ regs → h'.get r = h.get r
  mem : ∀ a, ¬ area a → h'.mem a = h.mem a

namespace Touches

variable {regs more : List Reg} {area wider : Word → Prop} {h h' h'' : Hart}

/-- Nothing was touched. -/
theorem refl : Touches regs area h h := ⟨rfl, fun _ _ => rfl, fun _ _ => rfl⟩

/-- What differs is the same in both directions. -/
theorem symm (hTouch : Touches regs area h h') : Touches regs area h' h :=
  ⟨hTouch.pc.symm, fun r hr => (hTouch.get r hr).symm, fun a ha => (hTouch.mem a ha).symm⟩

/-- One stretch of lines after another. -/
theorem trans (hFirst : Touches regs area h h') (hThen : Touches regs area h' h'') :
    Touches regs area h h'' :=
  ⟨hThen.pc.trans hFirst.pc, fun r hr => (hThen.get r hr).trans (hFirst.get r hr),
    fun a ha => (hThen.mem a ha).trans (hFirst.mem a ha)⟩

/-- More registers and a wider area. -/
theorem mono (hTouch : Touches regs area h h') (hMore : regs ⊆ more)
    (hWider : ∀ a, area a → wider a) : Touches more wider h h' :=
  ⟨hTouch.pc, fun r hr => hTouch.get r fun hIn => hr (hMore hIn),
    fun a ha => hTouch.mem a fun hIn => ha (hWider a hIn)⟩

/-- A register that may be touched. -/
theorem set {r : Reg} (hr : r ∈ regs) (v : Word) : Touches regs area h (h.set r v) := by
  refine ⟨pc_set .., fun s hs => ?_, fun a _ => congrFun (mem_set ..) a⟩
  rw [get_set, if_neg]
  rintro ⟨rfl, -⟩
  exact hs hr

/-- A register that has its old value again does not count as touched. -/
theorem restored {r : Reg} (hTouch : Touches (r :: regs) area h h')
    (hr : r ∈ regs ∨ h'.get r = h.get r) : Touches regs area h h' := by
  refine ⟨hTouch.pc, fun s hs => ?_, hTouch.mem⟩
  by_cases hEq : s = r
  · subst hEq
    exact hr.resolve_left hs
  · exact hTouch.get s (by simp [hEq, hs])

end Touches

/-- The variable an offset from the lowest one belongs to. -/
def varOf (offset : Nat) : Nat := 7 - offset / 4

/-- The address belongs to one of the variables. -/
def InVars (vars : List Nat) (h : Hart) (a : Word) : Prop :=
  InScratch h a ∧ varOf (a - (h.get sp - 28)).toNat ∈ vars

/-- The line writes nothing but the registers and the variables. -/
def Works (regs : List Reg) (vars : List Nat) : Line → Prop
  | .load _ rd _ _ | .opImm _ rd _ _ | .op _ rd _ _ | .la rd _ => rd ∈ regs
  | .store f rs1 _ imm => rs1 = sp ∧ (imm + 28#12).toNat < 28 ∧
      varOf (imm + 28#12).toNat ∈ vars ∧ (imm + 28#12).toNat % 4 + f.bytes ≤ 4
  | _ => False

section Frame

variable {regs : List Reg} {vars : List Nat} {h h' : Hart}

/-- One line, by what it writes. -/
theorem act_touches {l : Line} (hWorks : Works regs vars l) :
    Touches regs (InVars vars h) h (act l h) := by
  cases l with
  | load f rd rs1 imm | opImm f rd rs1 imm | op f rd rs1 rs2 | la rd symbol =>
      rw [act, Line.exec, goto_set_pc]
      exact .set hWorks _
  | store f rs1 rs2 imm =>
      obtain ⟨rfl, hLow, hVar, hRange⟩ := hWorks
      refine ⟨rfl, fun _ _ => rfl, fun a ha => ?_⟩
      refine if_neg fun hIn => ha ?_
      have hOffset : ∀ j < 28, (BitVec.ofNat 12 j - 28#12).signExtend 32 =
          BitVec.ofNat 32 j - 28#32 := by decide
      have hImm : imm = BitVec.ofNat 12 (imm + 28#12).toNat - 28#12 := by
        rw [BitVec.ofNat_toNat, BitVec.setWidth_eq, BitVec.add_sub_cancel]
      have hPlace := hOffset (imm + 28#12).toNat hLow
      rw [hImm, hPlace] at hIn
      generalize (imm + 28#12).toNat = j at hIn hLow hVar hRange
      have hSum : (a - (h.get sp - 28)).toNat =
          (a - (h.get sp + (BitVec.ofNat 32 j - 28#32))).toNat + j := by
        have hSplit : a - (h.get sp - 28) =
            a - (h.get sp + (BitVec.ofNat 32 j - 28#32)) + BitVec.ofNat 32 j := by
          generalize BitVec.ofNat 32 j = o
          generalize h.get sp = s
          bv_omega
        rw [hSplit, BitVec.toNat_add, BitVec.toNat_ofNat]
        omega
      have hSame : varOf (a - (h.get sp - 28)).toNat = varOf j := by
        rw [hSum, varOf, varOf]
        omega
      refine ⟨?_, hSame ▸ hVar⟩
      rw [InScratch, hSum]
      omega
  | _ => exact hWorks.elim

section Works

variable {f : StoreOp} {n k : Nat} {r rd rs1 rs2 : Reg} {imm : BitVec 12}

/-- A store to a variable. -/
theorem works_store (hLow : 1 ≤ n) (hHigh : n ≤ 7) (hk : k + f.bytes ≤ 4) (hn : n ∈ vars) :
    Works regs vars (.store f sp r (spVarByte n k)) := by
  have hBytes : 0 < f.bytes := by cases f <;> decide
  have hOffset : ∀ n < 8, 1 ≤ n → ∀ k < 4, (spVarByte n k + 28#12).toNat = 28 - 4 * n + k := by
    decide
  have hAt := hOffset n (by omega) hLow k (by omega)
  refine ⟨rfl, by omega, ?_, by omega⟩
  have hVar : varOf (28 - 4 * n + k) = n := by
    rw [varOf]
    omega
  rwa [hAt, hVar]

@[simp] theorem works_sw (hLow : 1 ≤ n) (hHigh : n ≤ 7) (hn : n ∈ vars) :
    Works regs vars (sw r n) :=
  works_store hLow hHigh (by decide) hn

@[simp] theorem works_sb (hLow : 1 ≤ n) (hHigh : n ≤ 7) (hk : k < 4) (hn : n ∈ vars) :
    Works regs vars (sb r n k) :=
  works_store hLow hHigh (by simp only [StoreOp.bytes]; omega) hn

@[simp] theorem works_load {f : LoadOp} :
    Works regs vars (.load f rd rs1 imm) ↔ rd ∈ regs := Iff.rfl

@[simp] theorem works_opImm {f : ImmOp} :
    Works regs vars (.opImm f rd rs1 imm) ↔ rd ∈ regs := Iff.rfl

@[simp] theorem works_op {f : RegOp} : Works regs vars (.op f rd rs1 rs2) ↔ rd ∈ regs := Iff.rfl

@[simp] theorem works_la {symbol : Word} : Works regs vars (.la rd symbol) ↔ rd ∈ regs := Iff.rfl

end Works

/-- The variables stay where they are while `sp` does. -/
theorem inVars_congr (hSp : h'.get sp = h.get sp) (a : Word) :
    InVars vars h' a ↔ InVars vars h a := by
  rw [InVars, InVars, InScratch, InScratch, hSp]

/-- A run of such lines, by what each of them writes. -/
theorem run_touches {ls : List Line} (hSp : sp ∉ regs) (hAll : ∀ l ∈ ls, Works regs vars l) :
    Touches regs (InVars vars h) h (run ls h) := by
  induction ls generalizing h with
  | nil => exact .refl
  | cons l ls ih =>
      have hFirst := act_touches (h := h) (hAll l List.mem_cons_self)
      have hRest := ih (h := act l h) fun l' hl' => hAll l' (List.mem_cons_of_mem _ hl')
      exact hFirst.trans (hRest.mono (List.Subset.refl _) fun a =>
        (inVars_congr (hFirst.get _ hSp) a).mp)

/-- The other variables are as they were. -/
theorem Touches.cell (hTouch : Touches regs (InVars vars h) h h') (hSp : sp ∉ regs) {n k : Nat}
    (hLow : 1 ≤ n) (hHigh : n ≤ 7) (hk : k < 4) (hn : n ∉ vars) :
    Minirv.cell h' n k = Minirv.cell h n k := by
  have hAddr : cellAddr h' n k = cellAddr h n k := by rw [cellAddr, cellAddr, hTouch.get _ hSp]
  rw [Minirv.cell, Minirv.cell, hAddr]
  refine hTouch.mem _ fun hIn => hn ?_
  have hVar := hIn.2
  rw [cellAddr_offset, BitVec.toNat_ofNat, varOf] at hVar
  convert hVar using 1
  omega

end Frame

end Riscv32.Minirv
