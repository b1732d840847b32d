import Riscv32.Minirv.Scratch

/-!
# Lookups

The machine is ready for the macros when the tables stand in memory and neither
the variables nor the working array reach into them.  The lookups then give what
the tables are named for, and stay as they are while only variables change.

`LogicTable` and `ShiftTable` say what a table holds as a function of bytes, so that
a macro is proved once for all the tables it can be used with.  `Ready.frame`
carries readiness over whatever leaves the tables and the stack pointer alone, so
it holds between the lines of a macro as it does before the first.
-/

namespace Riscv32.Minirv

open Isa Program

/-- The address belongs to the working array. -/
def InArray (t : Symbols) (a : Word) : Prop := (a - t.checkSameArray).toNat < 256

/-- The tables stand in memory, out of the way of what the macros write. -/
structure Ready (t : Symbols) (h : Hart) : Prop where
  tables : Tables t h.mem
  scratch : ∀ a, InScratch h a → ¬ InTables t a ∧ ¬ InArray t a
  array : ∀ a, InArray t a → ¬ InTables t a

section Keeping

variable {t : Symbols} {h h' : Hart}

/-- A byte of a table belongs to the tables. -/
theorem Tables.inTables {p : Word × List Byte} (hp : p ∈ rodata t) {i : Nat} {b : Byte}
    (hb : p.2[i]? = some b) : InTables t (p.1 + BitVec.ofNat 32 i) := by
  refine ⟨p, hp, ?_⟩
  have hLt := (List.getElem?_eq_some_iff.mp hb).1
  have hOffset : p.1 + BitVec.ofNat 32 i - p.1 = BitVec.ofNat 32 i := by bv_omega
  rw [hOffset, BitVec.toNat_ofNat]
  exact (Nat.mod_le ..).trans_lt hLt

/-- Readiness survives what leaves `sp` and the tables alone. -/
theorem Ready.frame {regs : List Reg} (hReady : Ready t h)
    (hTouch : Touches regs (fun a => InScratch h a ∨ InArray t a) h h') (hSp : sp ∉ regs) :
    Ready t h' := by
  have hSame : ∀ a, InScratch h' a ↔ InScratch h a := fun a => by
    rw [InScratch, InScratch, hTouch.get _ hSp]
  refine ⟨fun p hp i b hb => ?_, fun a ha => hReady.scratch a ((hSame a).mp ha), hReady.array⟩
  have hIn := Tables.inTables hp hb
  rw [hTouch.mem _ (not_or.mpr ⟨fun hScratch => (hReady.scratch _ hScratch).1 hIn,
    fun hArray => hReady.array _ hArray hIn⟩)]
  exact hReady.tables p hp i b hb

/-- So it holds before a macro exactly if it does after it. -/
theorem ready_congr {regs : List Reg}
    (hTouch : Touches regs (fun a => InScratch h a ∨ InArray t a) h h') (hSp : sp ∉ regs) :
    Ready t h' ↔ Ready t h := by
  refine ⟨fun hReady => @Ready.frame _ _ _ regs hReady ?_ hSp,
    fun hReady => hReady.frame hTouch hSp⟩
  refine hTouch.symm.mono (List.Subset.refl _) fun a ha => ?_
  rwa [InScratch, hTouch.get _ hSp]

section Writes

variable {v : Word} {n k : Nat} (hLow : 1 ≤ n) (hHigh : n ≤ 7)

include hLow hHigh

/-- The variables are in the seven words. -/
theorem inScratch_cell (hk : k < 4) : InScratch h (cellAddr h n k) := by
  rw [InScratch, cellAddr_offset, BitVec.toNat_ofNat]
  omega

theorem touches_putByte (hk : k < 4) : Touches [] (InScratch h) h (putByte h v n k) := by
  refine ⟨rfl, fun _ _ => rfl, fun a ha => if_neg fun hIn => ha ?_⟩
  have hEq : a = cellAddr h n k := by bv_omega
  exact hEq ▸ inScratch_cell hLow hHigh hk

/-- A store to a variable touches nothing else. -/
theorem touches_putWord : Touches [] (InScratch h) h (putWord h v n) := by
  refine ⟨rfl, fun _ _ => rfl, fun a ha => if_neg fun hIn => ha ?_⟩
  have hEq : a = cellAddr h n (a - cellAddr h n 0).toNat := by
    have hSum : cellAddr h n (a - cellAddr h n 0).toNat =
        cellAddr h n 0 + (a - cellAddr h n 0) := by
      rw [cellAddr, cellAddr, BitVec.add_assoc, BitVec.ofNat_add, BitVec.ofNat_toNat,
        BitVec.setWidth_eq, Nat.add_zero]
    rw [hSum]
    generalize cellAddr h n 0 = c
    bv_omega
  exact hEq ▸ inScratch_cell hLow hHigh hIn

@[simp] theorem ready_putByte (hk : k < 4) : Ready t (putByte h v n k) ↔ Ready t h :=
  ready_congr ((touches_putByte hLow hHigh hk).mono (List.Subset.refl _) fun _ => .inl) (by simp)

@[simp] theorem ready_putWord : Ready t (putWord h v n) ↔ Ready t h :=
  ready_congr ((touches_putWord hLow hHigh).mono (List.Subset.refl _) fun _ => .inl) (by simp)

end Writes

@[simp] theorem ready_set {r : Reg} (hr : r ≠ sp) (v : Word) :
    Ready t (h.set r v) ↔ Ready t h :=
  ready_congr (.set (List.mem_singleton_self r) v) fun hIn => hr (List.mem_singleton.mp hIn).symm

end Keeping

/-! ## The tables -/

/-- The table of an operation on bytes. -/
def LogicTable (h : Hart) (table : Word) (op : Byte → Byte → Byte) : Prop :=
  ∀ x y : Byte, h.mem (table + (0#16 ++ x ++ y : Word)) = op x y

/-- The table of a shift of bytes. -/
def ShiftTable (h : Hart) (table : Word) (expr : Nat → Nat → Word) : Prop :=
  ∀ j < 32, ∀ x : Byte,
    LoadOp.lw.value h.mem (table + BitVec.ofNat 32 (1024 * j) + BitVec.ofNat 32 (4 * x.toNat)) =
      expr j x.toNat

/-- Two bytes side by side are the index of a row and a column. -/
theorem pair_index (x y : Byte) :
    (0#16 ++ x ++ y : Word) = BitVec.ofNat 32 (x.toNat * 256 + y.toNat) := by
  apply BitVec.eq_of_toNat_eq
  have hx := x.isLt
  have hy := y.isLt
  rw [BitVec.toNat_append, ← Nat.shiftLeft_add_eq_or_of_lt hy, BitVec.toNat_append,
    Nat.shiftLeft_eq, BitVec.toNat_ofNat]
  simp
  omega

/-- An entry of a row that is given. -/
theorem LogicTable.row {h : Hart} {table r : Word} {op : Byte → Byte → Byte}
    (hTable : LogicTable h table op) (j b : Byte) (hr : r = BitVec.ofNat 32 (j.toNat * 256)) :
    h.mem (b.setWidth 32 + (table + r)) = op j b := by
  have hRow : b.setWidth 32 + r = (0#16 ++ j ++ b : Word) := by
    rw [pair_index, hr]
    have hj := j.isLt
    have hb := b.isLt
    apply BitVec.eq_of_toNat_eq
    simp only [BitVec.toNat_add, BitVec.toNat_setWidth, BitVec.toNat_ofNat]
    omega
  rw [← hTable, ← hRow, ← BitVec.add_assoc, BitVec.add_comm (b.setWidth 32) table,
    BitVec.add_assoc]

section Tables

variable {t : Symbols} {h : Hart} (hReady : Ready t h)
include hReady

section File

variable {pre post : List Byte} {row size : Nat} {expr : Nat → Nat → Word}

/-- An entry of a part of the file. -/
theorem Ready.lut_at (hLut : lut = pre ++ (genTable row 256 size expr ++ post)) {j i k : Nat}
    (hj : j < row) (hi : i < 256) (hk : k < size) :
    h.mem (t.logicShiftTable + BitVec.ofNat 32 (pre.length + ((j * 256 + i) * size + k))) =
      byteOf (expr j i) k := by
  refine hReady.tables (t.logicShiftTable, lut) (by simp [rodata]) _ _ ?_
  have hAt : (genTable row 256 size expr)[(j * 256 + i) * size + k]? =
      some ((expr j i).extractLsb' (8 * k) 8) := getElem?_genTable hj hi hk
  have hLt := (List.getElem?_eq_some_iff.mp hAt).1
  rw [hLut, List.getElem?_append_right (Nat.le_add_right ..), Nat.add_sub_cancel_left,
    List.getElem?_append_left hLt, hAt, byteOf]

/-- A part of the file with one byte an entry. -/
theorem Ready.logicTable (pre post : List Byte) (expr : Nat → Nat → Word)
    (hLut : lut = pre ++ (genTable 256 256 1 expr ++ post)) {table : Word}
    (hTable : table = t.logicShiftTable + BitVec.ofNat 32 pre.length) {op : Byte → Byte → Byte}
    (hOp : ∀ x y : Byte, byteOf (expr x.toNat y.toNat) 0 = op x y) : LogicTable h table op := by
  intro x y
  have hAt := hReady.lut_at hLut x.isLt y.isLt Nat.one_pos
  rw [hOp, Nat.mul_one, Nat.add_zero] at hAt
  rw [pair_index, hTable, BitVec.add_assoc, ← BitVec.ofNat_add]
  exact hAt

/-- A part of the file with one word an entry. -/
theorem Ready.shiftTable (pre post : List Byte) (expr : Nat → Nat → Word)
    (hLut : lut = pre ++ (genTable 32 256 4 expr ++ post)) {table : Word}
    (hTable : table = t.logicShiftTable + BitVec.ofNat 32 pre.length) :
    ShiftTable h table expr := by
  intro j hj x
  have hAt := fun (k : Nat) (hk : k < 4) => hReady.lut_at hLut hj x.isLt hk
  have hPlace : ∀ k : Nat, table + BitVec.ofNat 32 (1024 * j) + BitVec.ofNat 32 (4 * x.toNat) +
      BitVec.ofNat 32 k = t.logicShiftTable +
        BitVec.ofNat 32 (pre.length + ((j * 256 + x.toNat) * 4 + k)) := fun k => by
    rw [hTable, BitVec.add_assoc, BitVec.add_assoc, BitVec.add_assoc, ← BitVec.ofNat_add,
      ← BitVec.ofNat_add, ← BitVec.ofNat_add]
    congr 2
    ring
  have hZero := hPlace 0
  rw [show BitVec.ofNat 32 0 = 0#32 from rfl, BitVec.add_zero] at hZero
  rw [lw_word, show (3 : Word) = BitVec.ofNat 32 3 from rfl,
    show (2 : Word) = BitVec.ofNat 32 2 from rfl, show (1 : Word) = BitVec.ofNat 32 1 from rfl,
    hPlace 3, hPlace 2, hPlace 1, hZero, hAt 3 (by decide), hAt 2 (by decide),
    hAt 1 (by decide), hAt 0 (by decide), word_of_bytes]

end File

/-- Each table holds what it is named for. -/
theorem Ready.and8Table : LogicTable h t.and8Table (· &&& ·) := by
  refine hReady.logicTable [] _ and8 rfl (BitVec.add_zero _).symm fun x y => ?_
  rw [and8, byteOf_and, byteOf_ofNat, byteOf_ofNat]

theorem Ready.or8Table : LogicTable h t.or8Table (· ||| ·) := by
  refine hReady.logicTable (genTable 256 256 1 and8) _ or8 rfl ?_ fun x y => ?_
  · rw [length_genTable]
    rfl
  · rw [or8, byteOf_or, byteOf_ofNat, byteOf_ofNat]

theorem Ready.xor8Table : LogicTable h t.xor8Table (· ^^^ ·) := by
  refine hReady.logicTable (genTable 256 256 1 and8 ++ genTable 256 256 1 or8) _ xor8
    (by rw [lut, List.append_assoc]) ?_ fun x y => ?_
  · rw [List.length_append, length_genTable, length_genTable, Symbols.xor8Table,
      Symbols.or8Table, BitVec.add_assoc]
    rfl
  · rw [xor8, byteOf_xor, byteOf_ofNat, byteOf_ofNat]

theorem Ready.sll8Table : ShiftTable h t.sll8Table sll8 := by
  refine hReady.shiftTable
    (genTable 256 256 1 and8 ++ (genTable 256 256 1 or8 ++ genTable 256 256 1 xor8))
    (genTable 32 256 4 srl8 ++ genTable 32 256 4 sra8) sll8
    (by simp only [lut, List.append_assoc]) ?_
  simp only [List.length_append, length_genTable, Symbols.sll8Table, Symbols.xor8Table,
    Symbols.or8Table, Symbols.and8Table, BitVec.add_assoc]
  rfl

theorem Ready.srl8Table : ShiftTable h t.srl8Table srl8 := by
  refine hReady.shiftTable
    (genTable 256 256 1 and8 ++ (genTable 256 256 1 or8 ++ (genTable 256 256 1 xor8 ++
      genTable 32 256 4 sll8))) (genTable 32 256 4 sra8) srl8
    (by simp only [lut, List.append_assoc]) ?_
  simp only [List.length_append, length_genTable, Symbols.srl8Table, Symbols.sll8Table,
    Symbols.xor8Table, Symbols.or8Table, Symbols.and8Table, BitVec.add_assoc]
  rfl

theorem Ready.sra8Table : ShiftTable h t.sra8Table sra8 := by
  refine hReady.shiftTable
    (genTable 256 256 1 and8 ++ (genTable 256 256 1 or8 ++ (genTable 256 256 1 xor8 ++
      (genTable 32 256 4 sll8 ++ genTable 32 256 4 srl8)))) [] sra8
    (by simp only [lut, List.append_assoc, List.append_nil]) ?_
  simp only [List.length_append, length_genTable, Symbols.sra8Table, Symbols.srl8Table,
    Symbols.sll8Table, Symbols.xor8Table, Symbols.or8Table, Symbols.and8Table, BitVec.add_assoc]
  rfl

/-- An entry of one of the small tables. -/
theorem Ready.small {table : Word} {bytes : List Byte} (hp : (table, bytes) ∈ rodata t) {i : Word}
    {b : Byte} (hb : bytes[i.toNat]? = some b) : h.mem (table + i) = b := by
  have hAt := hReady.tables (table, bytes) hp i.toNat b hb
  rwa [BitVec.ofNat_toNat, BitVec.setWidth_eq] at hAt

end Tables

end Riscv32.Minirv
