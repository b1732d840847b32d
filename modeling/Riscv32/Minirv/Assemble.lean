import Riscv32.Minirv.Refines
import Riscv32.Program.Layout

/-!
# Assembling for minirv

The macros of a program are laid out one after the other.  How many instructions
a macro takes does not depend on its addresses, so the addresses are found first.

`sizeOf` is that number, read off the line alone, and `startsOf` gives the
addresses; `Fits` asks that every macro expands with these addresses to as many
instructions.  A program that fits is `Assembled`, which is what the results about
programs on minirv begin with.

## Main results

* `assembled` — what is laid out is assembled.
* `fits_of_accepted` — what the macros accept can be laid out, although a branch
  depends on where it stands.
-/

namespace Riscv32.Minirv

open Isa Program

/-- The macros of a program whose lines stand at `loc`. -/
def macrosOf (t : Symbols) (loc : Nat → Word) (lines : List Line) : List (List Line) :=
  lines.mapIdx fun i l => (expand t (loc (i + 1)) l).getD []

/-- Where the lines come to stand, from the sizes of their macros. -/
def startsOf (t : Symbols) (lines : List Line) : List Nat :=
  (lines.map fun l => (instsOf ((expand t 0 l).getD [])).length).scanl (· + ·) 0

/-- The addresses of a list of starts. -/
def tableLoc (starts : List Nat) (i : Nat) : Word := BitVec.ofNat 32 (4 * starts.getD i 0)

/-- Instructions are wider than two bytes. -/
theorem tableLoc_even (starts : List Nat) (i : Nat) : Even (tableLoc starts i) := by
  refine and_not_one ?_
  rw [tableLoc, BitVec.toNat_ofNat]
  omega

section Assemble

variable {t : Symbols} {lines : List Line} {macros : List (List Line)} {loc : Nat → Word}

/-- A plain line has the same instructions everywhere. -/
theorem movable_of_plain {l : Line} (hPlain : Plain l) : l.Movable := by
  cases l with
  | load | store | opImm | op | lui | la => exact ⟨fun _ => rfl, List.cons_ne_nil _ _⟩
  | _ => exact hPlain.elim

/-- The macros of a program, and where its lines stand: line `i` where its macro does. -/
structure Fits (t : Symbols) (lines : List Line) (macros : List (List Line)) (loc : Nat → Word) :
    Prop where
  length : macros.length = lines.length
  expand : ∀ i < lines.length, lines[i]?.bind (Minirv.expand t (loc (i + 1))) = macros[i]?
  loc : ∀ i < lines.length + 1, loc i = wideLoc macros.flatten (macros.take i).flatten.length
  some : ∀ m ∈ macros, m ≠ []
  size : 4 * (instsOf macros.flatten).length ≤ 4294967296

namespace Fits

variable (hFits : Fits t lines macros loc)
include hFits

/-- Each line has its macro. -/
theorem expand_at {i : Nat} (hi : i < lines.length) (hm : i < macros.length) :
    Minirv.expand t (loc (i + 1)) lines[i] = Option.some macros[i] := by
  have hExp := hFits.expand i hi
  rwa [List.getElem?_eq_getElem hi, List.getElem?_eq_getElem hm, Option.bind_some] at hExp

theorem movable {l : Line} (hl : l ∈ macros.flatten) : l.Movable := by
  obtain ⟨m, hm, hIn⟩ := List.mem_flatten.mp hl
  obtain ⟨i, hi, rfl⟩ := List.getElem_of_mem hm
  obtain ⟨pre, last, hSplit, hPlain, hLast⟩ :=
    expand_shaped (hFits.expand_at (hFits.length ▸ hi) hi)
  rw [hSplit] at hIn
  rcases List.mem_append.mp hIn with hPre | hEnd
  · exact movable_of_plain (hPlain l hPre)
  · obtain rfl | ⟨rd, rs1, imm, rfl⟩ := hLast
    · cases hEnd
    · obtain rfl := List.mem_singleton.mp hEnd
      exact ⟨fun _ => rfl, List.cons_ne_nil _ _⟩

omit hFits in
/-- The macro of line `i` among all of them. -/
theorem flatten_split {i : Nat} (hi : i < macros.length) : macros.flatten =
    (macros.take i).flatten ++ (macros[i] ++ (macros.drop (i + 1)).flatten) := by
  conv_lhs => rw [← List.take_append_drop i macros, List.drop_eq_getElem_cons hi]
  rw [List.flatten_append, List.flatten_cons]

theorem loc_inj {i j : Nat} (hi : i < lines.length) (hj : j < lines.length)
    (hEq : loc i = loc j) : i = j := by
  have hPlace : ∀ k (hk : k < macros.length),
      (macros.take k).flatten.length < (macros.take (k + 1)).flatten.length := fun k hk => by
    have hPos := List.length_pos_iff.mpr (hFits.some _ (List.getElem_mem hk))
    rw [List.take_succ_eq_append_getElem hk, List.flatten_append, List.length_append,
      List.flatten_singleton]
    omega
  have hMono : ∀ a b, a ≤ b →
      (macros.take a).flatten.length ≤ (macros.take b).flatten.length := fun a b hab => by
    obtain ⟨c, rfl⟩ := Nat.exists_eq_add_of_le hab
    rw [List.take_add, List.flatten_append, List.length_append]
    exact Nat.le_add_right ..
  have hLen := hFits.length
  have hAll : ∀ k, k ≤ macros.length → (macros.take k).flatten.length ≤ macros.flatten.length :=
    fun k hk => by simpa using hMono k macros.length hk
  rw [hFits.loc i (by omega), hFits.loc j (by omega)] at hEq
  have hi' := hPlace i (by omega)
  have hj' := hPlace j (by omega)
  have hSame := wideLoc_inj (fun l => hFits.movable) hFits.size
    (hi'.trans_le (hAll _ (by omega))) (hj'.trans_le (hAll _ (by omega))) hEq
  rcases Nat.lt_trichotomy i j with hLt | hDone | hGt
  · have hLe := hMono (i + 1) j hLt
    omega
  · exact hDone
  · have hLe := hMono (j + 1) i hGt
    omega

theorem installed : Installed (codeAt lines loc) loc lines :=
  codeAt_installed fun _ hi _ hj hEq => hFits.loc_inj hi hj hEq

/-- **What is laid out is assembled.** -/
theorem assembled : Assembled t (codeAt lines loc)
    (codeAt macros.flatten (wideLoc macros.flatten)) (wideImage macros.flatten) where
  expanded a l next hAt := by
    obtain ⟨i, hi, rfl, rfl, rfl⟩ := codeAt_some hAt
    have hm : i < macros.length := hFits.length ▸ hi
    refine ⟨macros[i], hFits.expand_at hi hm, ?_⟩
    have hLaid := laid_installed _ _ _ (wide_installed (fun l => hFits.movable) hFits.size)
      (flatten_split hm)
    rw [hFits.loc i (by omega), hFits.loc (i + 1) (by omega),
      List.take_succ_eq_append_getElem hm, List.flatten_append, List.length_append,
      List.flatten_singleton]
    exact hLaid
  lines b l' next' hAt := by
    obtain ⟨j, hj, -, rfl, -⟩ := codeAt_some hAt
    obtain ⟨m, hm, hIn⟩ := List.mem_flatten.mp (List.getElem_mem hj)
    obtain ⟨i, hi, rfl⟩ := List.getElem_of_mem hm
    have hLine : i < lines.length := hFits.length ▸ hi
    exact ⟨_, _, _, _, hFits.installed i hLine, hFits.expand_at hLine hi, hIn⟩
  native := wide_realises (fun l => hFits.movable) hFits.size
  image _ _ hInst := wideImage_line (fun l => hFits.movable) hFits.size hInst

end Fits

end Assemble

/-! ## Sizes -/

section Sizes

variable {t : Symbols} {next next' : Word} {ls : List Line}

theorem instsOf_append (ls ls' : List Line) : instsOf (ls ++ ls') = instsOf ls ++ instsOf ls' :=
  List.flatMap_append

/-- What a branch resolves to takes as much room wherever it leads. -/
theorem length_resolve (target label : Word) (high : Bool) :
    (instsOf (Macro.branchResolve target high label)).length = 11 := by
  cases high <;>
    simp [Macro.branchResolve, Macro.slliShort, instsOf, Line.native, Program.la]

/-- The jump of a branch does not depend on its targets. -/
theorem length_after_resolve (target target' : Word) (high : Bool) :
    (instsOf (ls ++ Macro.branchResolve target high next)).length =
      (instsOf (ls ++ Macro.branchResolve target' high next')).length := by
  rw [instsOf_append, instsOf_append, List.length_append, List.length_append, length_resolve,
    length_resolve]

/-- Nor does a branch. -/
theorem sizeOf_branch (t : Symbols) (f : BranchOp) (rs1 rs2 : Reg)
    (target target' next next' : Word) :
    ((expand t next (.branch f rs1 rs2 target)).map fun m => (instsOf m).length) =
      (expand t next' (.branch f rs1 rs2 target')).map fun m => (instsOf m).length := by
  cases f with
  | beq | bne | bltu | bgeu => exact congrArg some (length_after_resolve ..)
  | blt =>
      refine congrArg some ?_
      unfold Macro.blt
      split
      · exact length_after_resolve ..
      · split
        · exact length_after_resolve ..
        · exact length_after_resolve ..
  | bge =>
      refine congrArg some ?_
      unfold Macro.bge
      split
      · exact length_after_resolve ..
      · exact length_after_resolve ..

/-- The size of a macro does not depend on the address after it. -/
theorem sizeOf_next (t : Symbols) (next next' : Word) (l : Line) :
    ((expand t next l).map fun m => (instsOf m).length) =
      (expand t next' l).map fun m => (instsOf m).length := by
  cases l with
  | branch f rs1 rs2 target => exact sizeOf_branch ..
  | load f => cases f <;> rfl
  | store f => cases f <;> rfl
  | opImm f => cases f <;> rfl
  | shiftImm f => cases f <;> rfl
  | op f => cases f <;> rfl
  | _ => rfl

/-- How many instructions the macro of a line takes. -/
def sizeOf (t : Symbols) (l : Line) : Option Nat :=
  (expand t 0 l).map fun m => (instsOf m).length

/-- A start is the sum of the sizes before it. -/
theorem getD_scanl (sizes : List Nat) (a : Nat) {i : Nat} (hi : i ≤ sizes.length) :
    (sizes.scanl (· + ·) a).getD i 0 = a + (sizes.take i).sum := by
  induction sizes generalizing a i with
  | nil =>
      obtain rfl : i = 0 := Nat.le_zero.mp hi
      rfl
  | cons n sizes ih =>
      cases i with
      | zero => simp
      | succ i =>
          rw [List.scanl_cons, List.getD_cons_succ, ih _ (Nat.le_of_succ_le_succ hi),
            List.take_succ_cons, List.sum_cons, Nat.add_assoc]

theorem length_instsOf_flatten (macros : List (List Line)) :
    (instsOf macros.flatten).length = (macros.map fun m => (instsOf m).length).sum := by
  induction macros with
  | nil => rfl
  | cons m macros ih =>
      rw [List.flatten_cons, instsOf_append, List.length_append, ih, List.map_cons, List.sum_cons]

end Sizes

section Accepted

variable {t : Symbols} {lines lines₀ : List Line} {loc : Nat → Word}

/-- A line that is accepted. -/
theorem expand_of_size {l : Line} (hPos : 0 < (sizeOf t l).getD 0) (next : Word) :
    ∃ m, expand t next l = some m ∧ (instsOf m).length = (sizeOf t l).getD 0 := by
  obtain ⟨n, hSize⟩ : ∃ n, sizeOf t l = some n := by
    cases hSize : sizeOf t l with
    | none => simp [hSize] at hPos
    | some n => exact ⟨n, rfl⟩
  have hNext := (sizeOf_next t next 0 l).trans hSize
  rw [hSize]
  exact Option.map_eq_some_iff.mp hNext

theorem macrosOf_at (t : Symbols) (loc : Nat → Word) {i : Nat} (hi : i < lines.length) :
    (macrosOf t loc lines)[i]? = some ((expand t (loc (i + 1)) lines[i]).getD []) := by
  rw [macrosOf, List.getElem?_mapIdx, List.getElem?_eq_getElem hi, Option.map_some]

/-- The macros of an accepted program have the sizes that were counted on. -/
theorem sizes_macrosOf (hAccepted : ∀ l ∈ lines, 0 < (sizeOf t l).getD 0) :
    (macrosOf t loc lines).map (fun m => (instsOf m).length) =
      lines.map fun l => (sizeOf t l).getD 0 := by
  refine List.ext_getElem (by simp [macrosOf]) fun i hi hi' => ?_
  have hLine : i < lines.length := by simpa using hi'
  obtain ⟨m, hExp, hLen⟩ := expand_of_size (hAccepted _ (List.getElem_mem hLine)) (loc (i + 1))
  simp [macrosOf, hExp, hLen]

/-- The starts depend on the sizes alone. -/
theorem startsOf_eq (hShape : lines.map (sizeOf t) = lines₀.map (sizeOf t)) :
    startsOf t lines₀ = (lines.map fun l => (sizeOf t l).getD 0).scanl (· + ·) 0 := by
  have hSize : ∀ l, (instsOf ((expand t 0 l).getD [])).length = (sizeOf t l).getD 0 := fun l => by
    rw [sizeOf]
    cases expand t 0 l <;> rfl
  have hSame := congrArg (List.map (Option.getD · 0)) hShape
  simp only [List.map_map, Function.comp_def] at hSame
  simp only [startsOf, hSize, hSame]

/-- **What the macros accept can be assembled**: the lines may depend on where they
stand, as long as their sizes do not. -/
theorem fits_of_accepted (hShape : lines.map (sizeOf t) = lines₀.map (sizeOf t))
    (hAccepted : ∀ l ∈ lines, 0 < (sizeOf t l).getD 0)
    (hFit : 4 * (lines.map fun l => (sizeOf t l).getD 0).sum ≤ 4294967296) :
    Fits t lines (macrosOf t (tableLoc (startsOf t lines₀)) lines)
      (tableLoc (startsOf t lines₀)) where
  length := by simp [macrosOf]
  expand i hi := by
    obtain ⟨m, hExp, -⟩ := expand_of_size (hAccepted _ (List.getElem_mem hi))
      (tableLoc (startsOf t lines₀) (i + 1))
    rw [macrosOf_at _ _ hi, List.getElem?_eq_getElem hi, Option.bind_some, hExp, Option.getD_some]
  loc i hi := by
    have hLe : i ≤ (lines.map fun l => (sizeOf t l).getD 0).length := by
      rw [List.length_map]
      omega
    have hTake : ∀ macros : List (List Line),
        macros.flatten.take (macros.take i).flatten.length = (macros.take i).flatten :=
      fun macros => by
        conv_lhs => rw [← List.take_append_drop i macros]
        rw [List.flatten_append, List.take_append_drop]
        exact List.take_left
    rw [tableLoc, startsOf_eq hShape, getD_scanl _ _ hLe, wideLoc, offset, hTake,
      length_instsOf_flatten, List.map_take, sizes_macrosOf hAccepted, Nat.zero_add]
  some m hm hNil := by
    obtain ⟨i, hi, rfl⟩ := List.getElem_of_mem hm
    have hLine : i < lines.length := by simpa [macrosOf] using hi
    have hPos := hAccepted _ (List.getElem_mem hLine)
    obtain ⟨m, hExp, hLen⟩ := expand_of_size hPos (tableLoc (startsOf t lines₀) (i + 1))
    have hAt := macrosOf_at t (tableLoc (startsOf t lines₀)) hLine
    rw [List.getElem?_eq_getElem hi, hNil, hExp, Option.getD_some] at hAt
    obtain rfl : [] = m := Option.some.inj hAt
    exact hPos.ne hLen
  size := by
    rw [length_instsOf_flatten, sizes_macrosOf hAccepted]
    exact hFit

end Accepted

end Riscv32.Minirv
