import Riscv32.Program.Machine

/-!
# The lookup tables of minirv

A minirv core has no logic, no shift and no comparison; the macros that replace
them look their results up a byte at a time.  The large table is the file that
`gen-lut` writes, the small ones stand in the assembly source.

`genTable` is the loop that writes a table, `lut` the whole file with its tables in
order.  `rodata` lists the contents with the addresses that the linker gives them
(`Symbols`), and `Tables` says that they stand in memory.  For contents that do
not overlap there is such a memory (`memoryOf`).
-/

namespace Riscv32.Minirv

open Isa Program

abbrev Byte := BitVec 8

/-! ## The file -/

/-- The low `entrySize` bytes of `res`. -/
def fwrite (entrySize : Nat) (res : Word) : List Byte :=
  (List.range entrySize).map fun k => res.extractLsb' (8 * k) 8

/-- The loops of `gen-lut.c`: rows and columns, an entry of a few bytes each. -/
def genTable (row col entrySize : Nat) (expr : Nat → Nat → Word) : List Byte :=
  (List.range row).flatMap fun j => (List.range col).flatMap fun i => fwrite entrySize (expr j i)

/-- The entries, as the calls in `gen-lut.c` have them. -/
def and8 (j i : Nat) : Word := BitVec.ofNat 32 j &&& BitVec.ofNat 32 i
def or8 (j i : Nat) : Word := BitVec.ofNat 32 j ||| BitVec.ofNat 32 i
def xor8 (j i : Nat) : Word := BitVec.ofNat 32 j ^^^ BitVec.ofNat 32 i
def sll8 (j i : Nat) : Word := BitVec.ofNat 32 i <<< j
def srl8 (j i : Nat) : Word := (BitVec.ofNat 32 i <<< 24) >>> j
def sra8 (j i : Nat) : Word := (BitVec.ofNat 32 i <<< 24).sshiftRight j

/-- `lut.bin`. -/
def lut : List Byte :=
  genTable 256 256 1 and8 ++ (genTable 256 256 1 or8 ++ (genTable 256 256 1 xor8 ++
    (genTable 32 256 4 sll8 ++ (genTable 32 256 4 srl8 ++ genTable 32 256 4 sra8))))

section Lookup

variable {α : Type} {n m j k : Nat}

theorem length_flatMap_range {f : Nat → List α} (hLen : ∀ j, (f j).length = m) :
    ((List.range n).flatMap f).length = n * m := by
  simp [List.length_flatMap, hLen]

/-- Rows of one length are found by multiplication. -/
theorem getElem?_flatMap_range {f : Nat → List α} (hLen : ∀ j, (f j).length = m) (hj : j < n)
    (hk : k < m) : ((List.range n).flatMap f)[j * m + k]? = (f j)[k]? := by
  induction n with
  | zero => omega
  | succ n ih =>
      rw [List.range_succ, List.flatMap_append, List.flatMap_singleton]
      by_cases hLast : j = n
      · subst hLast
        rw [List.getElem?_append_right (by rw [length_flatMap_range hLen]; omega),
          length_flatMap_range hLen, Nat.add_sub_cancel_left]
      · have hBefore : j * m + m ≤ n * m := by
          rw [← Nat.succ_mul]
          exact Nat.mul_le_mul_right m (by omega)
        rw [List.getElem?_append_left (by rw [length_flatMap_range hLen]; omega)]
        exact ih (by omega)

variable {row col size i : Nat} {expr : Nat → Nat → Word}

@[simp] theorem length_fwrite (res : Word) : (fwrite size res).length = size := by simp [fwrite]

/-- The size of a table. -/
theorem length_genTable : (genTable row col size expr).length = row * (col * size) :=
  length_flatMap_range fun _ => length_flatMap_range fun _ => length_fwrite _

/-- Byte `k` of the entry in row `j` and column `i`. -/
theorem getElem?_genTable (hj : j < row) (hi : i < col) (hk : k < size) :
    (genTable row col size expr)[(j * col + i) * size + k]? =
      some ((expr j i).extractLsb' (8 * k) 8) := by
  have hRow : i * size + k < col * size := by
    calc i * size + k < i * size + size := by omega
      _ = (i + 1) * size := (Nat.succ_mul ..).symm
      _ ≤ col * size := Nat.mul_le_mul_right size (by omega)
  rw [genTable, show (j * col + i) * size + k = j * (col * size) + (i * size + k) by ring,
    getElem?_flatMap_range (fun _ => length_flatMap_range fun _ => length_fwrite _) hj hRow,
    getElem?_flatMap_range (fun _ => length_fwrite _) hi hk, fwrite, List.getElem?_map,
    List.getElem?_range hk, Option.map_some]

end Lookup

/-! ## In memory -/

/-- What the linker gives the tables and the working array. -/
structure Symbols where
  sameResultTable : Word
  check8bit0Table : Word
  slt1Table : Word
  sltu1Table : Word
  or1Table : Word
  logicShiftTable : Word
  checkSameArray : Word

namespace Symbols

variable (t : Symbols)

/-- Where each table begins in the file. -/
def and8Table : Word := t.logicShiftTable
def or8Table : Word := t.and8Table + 256 * 256
def xor8Table : Word := t.or8Table + 256 * 256
def sll8Table : Word := t.xor8Table + 256 * 256
def srl8Table : Word := t.sll8Table + 32 * 256 * 4
def sra8Table : Word := t.srl8Table + 32 * 256 * 4

end Symbols

/-- The tables of the assembly source. -/
def sameResult : List Byte := [1, 0, 0, 0, 0, 0, 0, 0]
def check8bit0 : List Byte := 0 :: List.replicate 255 1
def slt1 : List Byte := [0, 1, 0, 0, 1, 1, 0, 1]
def sltu1 : List Byte := [0, 1, 1, 1, 0, 0, 0, 1]
def or1 : List Byte := [0, 1, 1, 1]

/-- The read-only data: each table with its contents. -/
def rodata (t : Symbols) : List (Word × List Byte) :=
  [(t.sameResultTable, sameResult), (t.check8bit0Table, check8bit0), (t.slt1Table, slt1),
    (t.sltu1Table, sltu1), (t.or1Table, or1), (t.logicShiftTable, lut)]

/-- The address belongs to a table. -/
def InTables (t : Symbols) (a : Word) : Prop :=
  ∃ p ∈ rodata t, (a - p.1).toNat < p.2.length

/-- The tables stand in memory. -/
def Tables (t : Symbols) (mem : Word → Byte) : Prop :=
  ∀ p ∈ rodata t, ∀ i, ∀ b, p.2[i]? = some b → mem (p.1 + BitVec.ofNat 32 i) = b

/-! ## Lengths -/

theorem length_lut : lut.length = 294912 := by
  simp [lut, length_genTable]

theorem length_sameResult : sameResult.length = 8 := rfl
theorem length_check8bit0 : check8bit0.length = 256 := by
  rw [check8bit0, List.length_cons, List.length_replicate]
theorem length_slt1 : slt1.length = 8 := rfl
theorem length_sltu1 : sltu1.length = 8 := rfl
theorem length_or1 : or1.length = 4 := rfl

/-! ## Memory with contents -/

/-- The first contents lie before the second. -/
def Before (p q : Word × List Byte) : Prop :=
  p.1.toNat + p.2.length ≤ q.1.toNat ∧ q.1.toNat + q.2.length ≤ 4294967296

/-- Memory that holds the contents. -/
def memoryOf (tables : List (Word × List Byte)) (a : Word) : Byte :=
  (tables.findSome? fun p => p.2[(a - p.1).toNat]?).getD 0

/-- Contents that do not overlap are all there. -/
theorem memoryOf_at {tables : List (Word × List Byte)} (hApart : tables.Pairwise Before)
    (hFit : ∀ p ∈ tables, p.2.length ≤ 4294967296) {p : Word × List Byte} (hp : p ∈ tables)
    {i : Nat} {b : Byte} (hb : p.2[i]? = some b) :
    memoryOf tables (p.1 + BitVec.ofNat 32 i) = b := by
  induction tables with
  | nil => cases hp
  | cons q tables ih =>
      obtain ⟨hFirst, hRest⟩ := List.pairwise_cons.mp hApart
      have hLt := (List.getElem?_eq_some_iff.mp hb).1
      have hLen := hFit p hp
      rcases List.mem_cons.mp hp with rfl | hIn
      · have hOffset : (p.1 + BitVec.ofNat 32 i - p.1).toNat = i := by
          rw [BitVec.toNat_sub, BitVec.toNat_add, BitVec.toNat_ofNat]
          omega
        rw [memoryOf, List.findSome?_cons, hOffset, hb]
        rfl
      · have hNone : q.2[(p.1 + BitVec.ofNat 32 i - q.1).toNat]? = none := by
          obtain ⟨hBefore, hEnd⟩ := hFirst p hIn
          rw [List.getElem?_eq_none_iff, BitVec.toNat_sub, BitVec.toNat_add, BitVec.toNat_ofNat]
          omega
        rw [memoryOf, List.findSome?_cons, hNone]
        exact ih hRest (fun r hr => hFit r (List.mem_cons_of_mem _ hr)) hIn

end Riscv32.Minirv
