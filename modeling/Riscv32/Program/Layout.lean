import Riscv32.Program.Machine

/-!
# Layouts

Lines whose instructions do not depend on where they stand are laid out one
after the other, from address zero on; a line may take several instructions.

A macro assembler makes such a program: how long a line is depends on the line,
so the address of a line is a sum over the lines before it (`offset`).  A
program of single instructions has a simpler layout (`Program.Machine`).

## Main results

* `wide_installed` — the program stands where the layout puts it.
* `wide_realises` — the image of the layout realises the program.
* `line_of_inst`, `wideImage_line` — every instruction of the image is one of a
  line, and which one can be found from its index.
-/

namespace Riscv32.Program

open Isa

/-- The instructions of the line are the same wherever it stands, and there are some. -/
def Line.Movable (l : Line) : Prop := (∀ pc, l.native pc = l.native 0) ∧ l.native 0 ≠ []

section Wide

variable (lines : List Line)

/-- The instructions of a program, in order. -/
def instsOf : List Inst := lines.flatMap (Line.native 0)

/-- The number of instructions before line `i`. -/
def offset (i : Nat) : Nat := (instsOf (lines.take i)).length

/-- The address of line `i`. -/
def wideLoc (i : Nat) : Word := BitVec.ofNat 32 (4 * offset lines i)

/-- The line at an address of a layout. -/
def codeAt (loc : Nat → Word) : Code := fun a =>
  (List.range lines.length).findSome? fun i =>
    if loc i = a then lines[i]?.map fun l => (l, loc (i + 1)) else none

def wideImage : Image := fun a =>
  if a.toNat % 4 = 0 then (instsOf lines)[a.toNat / 4]? else none

variable {lines}

/-- A line of the program, by its address. -/
theorem codeAt_some {loc : Nat → Word} {a next : Word} {l : Line}
    (hAt : codeAt lines loc a = some (l, next)) :
    ∃ i, ∃ hi : i < lines.length, loc i = a ∧ lines[i] = l ∧ next = loc (i + 1) := by
  obtain ⟨i, -, hSome⟩ := List.exists_of_findSome?_eq_some hAt
  split at hSome
  · next hLoc =>
      obtain ⟨l', hGet, hEq⟩ := Option.map_eq_some_iff.mp hSome
      obtain ⟨hi, hLine⟩ := List.getElem?_eq_some_iff.mp hGet
      obtain ⟨rfl, rfl⟩ := Prod.mk.inj hEq
      exact ⟨i, hi, hLoc, hLine, rfl⟩
  · cases hSome

/-- Where no two lines stand at one address. -/
theorem codeAt_installed {loc : Nat → Word}
    (hApart : ∀ i < lines.length, ∀ j < lines.length, loc i = loc j → i = j) :
    Installed (codeAt lines loc) loc lines := by
  intro i hi
  cases hAt : codeAt lines loc (loc i) with
  | none =>
      have hNone := List.findSome?_eq_none_iff.mp hAt i (List.mem_range.mpr hi)
      simp [hi] at hNone
  | some p =>
      have hPair : codeAt lines loc (loc i) = some (p.1, p.2) := hAt
      obtain ⟨j, hj, hLoc, hLine, hNext⟩ := codeAt_some hPair
      obtain rfl := hApart j hj i hi hLoc
      rw [hLine, ← hNext]

/-- The instructions of line `i` among all of them. -/
theorem instsOf_split {i : Nat} (hi : i < lines.length) : instsOf lines =
    instsOf (lines.take i) ++ ((lines[i]).native 0 ++ instsOf (lines.drop (i + 1))) := by
  conv_lhs => rw [← List.take_append_drop i lines, List.drop_eq_getElem_cons hi]
  simp only [instsOf, List.flatMap_append, List.flatMap_cons]

/-- The next line begins where this one ends. -/
theorem offset_succ {i : Nat} (hi : i < lines.length) :
    offset lines (i + 1) = offset lines i + ((lines[i]).native 0).length := by
  rw [offset, offset, List.take_succ_eq_append_getElem hi, instsOf, instsOf, List.flatMap_append,
    List.length_append, List.flatMap_singleton]

/-- An instruction of a line. -/
theorem instsOf_at {i k : Nat} (hi : i < lines.length) (hk : k < ((lines[i]).native 0).length) :
    (instsOf lines)[offset lines i + k]? = some ((lines[i]).native 0)[k] := by
  rw [instsOf_split hi, offset, List.getElem?_append_right (Nat.le_add_right ..),
    Nat.add_sub_cancel_left, List.getElem?_append_left hk, List.getElem?_eq_getElem hk]

/-- The line of an instruction. -/
theorem line_of_inst {n : Nat} (hn : n < (instsOf lines).length) :
    ∃ i, ∃ hi : i < lines.length, ∃ k, ∃ _ : k < ((lines[i]).native 0).length,
      n = offset lines i + k := by
  induction lines generalizing n with
  | nil => cases hn
  | cons l ls ih =>
      have hLen : (instsOf (l :: ls)).length = (l.native 0).length + (instsOf ls).length := by
        rw [instsOf, List.flatMap_cons, List.length_append, instsOf]
      by_cases hHead : n < (l.native 0).length
      · exact ⟨0, by simp, n, hHead, by simp [offset, instsOf]⟩
      · obtain ⟨i, hi, k, hk, hSum⟩ := ih (n := n - (l.native 0).length) (by omega)
        refine ⟨i + 1, by simpa using hi, k, by simpa using hk, ?_⟩
        have hOffset : offset (l :: ls) (i + 1) = (l.native 0).length + offset ls i := by
          rw [offset, List.take_succ_cons, instsOf, List.flatMap_cons, List.length_append, offset,
            instsOf]
        omega

end Wide

section Realised

variable {lines : List Line} (hMovable : ∀ l ∈ lines, l.Movable)
  (hFit : 4 * (instsOf lines).length ≤ 4294967296)

include hMovable in
/-- No line is empty, so the offsets grow. -/
theorem offset_lt {i j : Nat} (hij : i < j) (hj : j ≤ lines.length) :
    offset lines i < offset lines j := by
  obtain ⟨k, rfl⟩ := Nat.exists_eq_add_of_lt hij
  induction k with
  | zero =>
      have hNe := (hMovable _ (List.getElem_mem (Nat.lt_of_succ_le hj))).2
      have hPos := List.length_pos_iff.mpr hNe
      rw [Nat.add_zero, offset_succ (Nat.lt_of_succ_le hj)]
      omega
  | succ k ih =>
      have hBefore := ih (by omega) (by omega)
      have hIn : i + k + 1 < lines.length := by omega
      have hStep := offset_succ hIn
      rw [← Nat.add_assoc i k 1]
      omega

/-- No line begins behind the last instruction. -/
theorem offset_le (lines : List Line) (i : Nat) : offset lines i ≤ (instsOf lines).length := by
  have hSplit : instsOf lines = instsOf (lines.take i) ++ instsOf (lines.drop i) := by
    conv_lhs => rw [← List.take_append_drop i lines]
    exact List.flatMap_append
  rw [offset, hSplit, List.length_append]
  exact Nat.le_add_right ..

include hMovable hFit in
/-- No two lines stand at one address. -/
theorem wideLoc_inj {i j : Nat} (hi : i < lines.length) (hj : j < lines.length)
    (hEq : wideLoc lines i = wideLoc lines j) : i = j := by
  have hAt := congrArg BitVec.toNat hEq
  have hLast : offset lines lines.length ≤ (instsOf lines).length := offset_le ..
  have hi' := offset_lt hMovable hi le_rfl
  have hj' := offset_lt hMovable hj le_rfl
  rw [wideLoc, wideLoc, BitVec.toNat_ofNat, BitVec.toNat_ofNat] at hAt
  rcases Nat.lt_trichotomy i j with hLt | hSame | hGt
  · have hBefore := offset_lt hMovable hLt hj.le
    omega
  · exact hSame
  · have hBefore := offset_lt hMovable hGt hi.le
    omega

/-- Instructions that stand one after the other are placed. -/
theorem placed_of_at {prog : Image} {is : List Inst} {a : Word}
    (hAt : ∀ k (hk : k < is.length), prog (after a k) = some is[k]) : Placed prog a is := by
  induction is generalizing a with
  | nil => trivial
  | cons i is ih =>
      refine ⟨by simpa using hAt 0 (Nat.zero_lt_succ _), ih fun k hk => ?_⟩
      rw [← after_succ]
      exact hAt (k + 1) (Nat.succ_lt_succ hk)

include hMovable hFit

theorem wide_installed : Installed (codeAt lines (wideLoc lines)) (wideLoc lines) lines :=
  codeAt_installed fun _ hi _ hj hEq => wideLoc_inj hMovable hFit hi hj hEq

/-- **The layout is the program's.** -/
theorem wide_realises :
    Realises (wideImage lines) Line.native (codeAt lines (wideLoc lines)) := by
  intro a l next hAt
  obtain ⟨i, hi, rfl, rfl, rfl⟩ := codeAt_some hAt
  have hSame := (hMovable _ (List.getElem_mem hi)).1 (wideLoc lines i)
  rw [hSame]
  refine ⟨placed_of_at fun k hk => ?_, ?_⟩
  · have hInst := instsOf_at hi hk
    have hLt := (List.getElem?_eq_some_iff.mp hInst).1
    have hAddr : (after (wideLoc lines i) k).toNat = 4 * (offset lines i + k) := by
      rw [after, wideLoc, ← BitVec.ofNat_add, BitVec.toNat_ofNat]
      omega
    rw [wideImage, hAddr, if_pos (by omega), Nat.mul_div_cancel_left _ (by decide), hInst]
  · rw [after, wideLoc, wideLoc, offset_succ hi, Nat.mul_add, BitVec.ofNat_add]

/-- Every instruction of the image is one of a line. -/
theorem wideImage_line {b : Word} {inst : Inst} (hInst : wideImage lines b = some inst) :
    ∃ a l next, codeAt lines (wideLoc lines) a = some (l, next) ∧ inst ∈ l.native a := by
  unfold wideImage at hInst
  split at hInst
  · obtain ⟨hLt, hGet⟩ := List.getElem?_eq_some_iff.mp hInst
    obtain ⟨i, hi, k, hk, hSum⟩ := line_of_inst hLt
    refine ⟨_, _, _, wide_installed hMovable hFit i hi, ?_⟩
    rw [(hMovable _ (List.getElem_mem hi)).1]
    have hAt := instsOf_at hi hk
    rw [← hSum] at hAt
    exact Option.some.inj (hInst.symm.trans hAt) ▸ List.getElem_mem hk
  · cases hInst

end Realised

end Riscv32.Program
