import Riscv32.Minirv.Logic

/-!
# Branches on minirv

A branch finds its condition as a word that is zero or one, picks one of two
addresses by it from two variables next to each other, and jumps there.

`Finds` is the first half, one lemma for each condition; `branchResolve_spec` the
second, for all of them.  A jump clears the lowest bit of its address, so both
addresses have to be even.

`blt` and `bge` with zero as an operand have short forms: one asks for a sign alone,
the other whether a number or its predecessor is negative (`finds_notPositive`).
-/

namespace Riscv32.Minirv

open Isa Program Macro

/-- An address an indirect jump leaves as it is. -/
def Even (a : Word) : Prop := a &&& ~~~1#32 = a

instance (a : Word) : Decidable (Even a) := inferInstanceAs (Decidable (_ = _))

@[simp] theorem act_jr {h : Hart} {rs : Reg} :
    act (jr rs) h = goto h (h.get rs &&& ~~~1#32) := exec_jr

/-! ## Two addresses -/

section Resolve

variable {h : Hart} {n : Nat} {target label : Word} {c : Bool}

theorem lw_cell (hLow : 1 ≤ n) (hHigh : n ≤ 7) :
    LoadOp.lw.value h.mem (cellAddr h n 0) = var h n := by
  have hLoad : act (lw a0 n) h = h.set a0 (LoadOp.lw.value h.mem (cellAddr h n 0)) := by
    rw [act_lw_at, spVar_offset hLow hHigh (by decide)]
  have hVar := congrArg (Hart.get · a0) (hLoad.symm.trans (act_lw hLow hHigh))
  simpa only [get_set_self _ _ _ (by decide : a0 ≠ 0)] using hVar

/-- The variable that the condition picks. -/
theorem lw_pick {s : Word} (hSp : h.get 2#5 = s) (c : Bool) :
    LoadOp.lw.value h.mem (s + shiftLeft (setIf c) 2 + (spVar 5).signExtend 32) =
      var h (if c then 4 else 5) := by
  have hFrom := spVar_offset (h := h) (n := 5) (k := 0) (by decide) (by decide) (by decide)
  have hTo := spVar_offset (h := h) (n := 4) (k := 0) (by decide) (by decide) (by decide)
  have hNext : shiftLeft (setIf true) 2 + (spVar 5).signExtend 32 = (spVar 4).signExtend 32 := by
    decide
  cases c with
  | false =>
      rw [show shiftLeft (setIf false) 2 = 0#32 by decide, BitVec.add_zero, ← hSp]
      exact (congrArg _ hFrom).trans (lw_cell (by decide) (by decide))
  | true =>
      rw [BitVec.add_assoc, hNext, ← hSp]
      exact (congrArg _ hTo).trans (lw_cell (by decide) (by decide))

/-- The lines before the jump. -/
def resolveLines (target : Word) (isTpHighSelTarget : Bool) (label : Word) : List Line :=
  slliShort tp tp 2 ++ (add tp sp tp ::
    ((if isTpHighSelTarget then
        [Macro.la gp target, sw gp varA, Macro.la gp label, sw gp varB]
      else [Macro.la gp label, sw gp varA, Macro.la gp target, sw gp varB]) ++
      [.load .lw tp tp (spVar varB)]))

/-- The address that is picked. -/
theorem resolveLines_value (hTp : h.get 4#5 = setIf c) (high : Bool) :
    (run (resolveLines target high label) h).get tp = if c = high then target else label := by
  cases high <;> cases c <;>
    simp [resolveLines, run_slliShort, act_lw_at, get_set, hTp, lw_pick, var]

/-- **The jump of a branch**, when its condition is in `tp`. -/
theorem branchResolve_spec (hTp : h.get tp = setIf c) (high : Bool) (hTarget : Even target)
    (hLabel : Even label) : Touches [tp, gp] (InVars [4, 5] h)
      (goto h (if c = high then target else label)) (run (branchResolve target high label) h) := by
  have hTouch : Touches [tp, gp] (InVars [4, 5] h) h (run (resolveLines target high label) h) :=
    run_touches (by decide) (by cases high <;> simp [resolveLines, slliShort])
  have hValue : (run (resolveLines target high label) h).get 4#5 =
      if c = high then target else label := resolveLines_value hTp high
  have hSplit : branchResolve target high label = resolveLines target high label ++ [jr tp] := by
    simp [branchResolve, resolveLines]
  have hEven : (if c = high then target else label) &&& ~~~1#32 =
      if c = high then target else label := by
    split
    · exact hTarget
    · exact hLabel
  rw [hSplit, run_append, run_cons, run_nil, act_jr, hValue, hEven]
  exact ⟨rfl, hTouch.get, hTouch.mem⟩

end Resolve

/-! ## Conditions -/

/-- What the macros may change in memory. -/
abbrev Volatile (t : Symbols) (h : Hart) (a : Word) : Prop := InScratch h a ∨ InArray t a

namespace Touches

variable {t : Symbols} {h h' : Hart} {regs more : List Reg} {vars : List Nat}
  {area : Word → Prop}

/-- What only variables are touched by is volatile. -/
theorem volatile (hTouch : Touches regs (InVars vars h) h h') (hMore : regs ⊆ more) :
    Touches more (Volatile t h) h h' :=
  hTouch.mono hMore fun _ ha => .inl ha.1

theorem goto (hTouch : Touches regs area h h') (pc : Word) :
    Touches regs area (goto h pc) (goto h' pc) :=
  ⟨rfl, hTouch.get, hTouch.mem⟩

end Touches

/-- The lines find the condition and put it into `tp`. -/
structure Finds (t : Symbols) (c : Bool) (ls : List Line) (h : Hart) : Prop where
  found : (run ls h).get tp = setIf c
  touches : Touches [tp, gp] (Volatile t h) h (run ls h)

section Conditions

variable {t : Symbols} {h : Hart} {rs1 rs2 : Reg} {target label : Word} {c : Bool}
  {ls : List Line}

/-- A condition that is found is jumped by. -/
theorem Finds.resolve (hFinds : Finds t c ls h) (high : Bool) (hTarget : Even target)
    (hLabel : Even label) : Touches [tp, gp] (Volatile t h)
      (goto h (if c = high then target else label))
      (run (ls ++ branchResolve target high label) h) := by
  have hTail := branchResolve_spec hFinds.found high hTarget hLabel
  rw [run_append]
  refine (hFinds.touches.goto _).trans (hTail.mono (List.Subset.refl _) fun a ha => .inl ?_)
  have hSp := hFinds.touches.get sp (by decide)
  have hIn := ha.1
  rwa [InScratch, hSp] at hIn

/-- Less than zero: the sign. -/
theorem finds_msb : Finds t ((h.get rs1).toInt < 0) (msb tp rs1) h where
  found := by
    rw [run_msb (by decide) (by decide), get_set_self _ _ _ (by decide), signBit]
  touches := by
    have hTouch : Touches [tp] (InVars [6] h) h (run (msb tp rs1) h) :=
      run_touches (by decide) (by simp [msb, getbyte, slliShort])
    exact hTouch.volatile (by simp)

theorem finds_seqz (hReady : Ready t h) : Finds t (h.get rs1 = 0) (seqz t tp rs1) h where
  found := seqz_value hReady (by decide) (by decide)
  touches := (seqz_touches (by decide)).volatile (by simp)

/-- Equal; a comparison with `x0` is one with zero. -/
theorem finds_same (hReady : Ready t h) : Finds t (h.get rs1 = h.get rs2) (sameTp t rs1 rs2) h := by
  unfold sameTp
  split
  · next hZero =>
      subst hZero
      exact finds_seqz hReady
  · split
    · next hZero =>
        subst hZero
        have hComm : decide (h.get zero = h.get rs2) = decide (h.get rs2 = 0) :=
          decide_eq_decide.mpr eq_comm
        exact hComm ▸ finds_seqz hReady
    · exact ⟨seq_value hReady, seq_touches hReady⟩

theorem finds_slt (hReady : Ready t h) :
    Finds t ((h.get rs1).toInt < (h.get rs2).toInt) (slt t tp rs1 rs2) h where
  found := slt_value hReady (by decide)
  touches := (sltTemplate_touches hReady (by decide)).volatile (by simp)

theorem finds_sltu (hReady : Ready t h) :
    Finds t ((h.get rs1).toNat < (h.get rs2).toNat) (sltu t tp rs1 rs2) h where
  found := sltu_value hReady (by decide)
  touches := (sltTemplate_touches hReady (by decide)).volatile (by simp)

/-- A number is not positive if it or its predecessor is negative. -/
theorem or1_at (a : Word) : or1[(signBit a + signBit (a + 4294967295#32)).toNat]? =
    some (byteOf (setIf (a.toInt ≤ 0)) 0) := by
  have hCond := BitVec.toInt_eq_toNat_cond a
  have hLess := BitVec.toInt_eq_toNat_cond (a + 4294967295#32)
  have hSub : (a + 4294967295#32).toNat = (a.toNat + 4294967295) % 4294967296 := BitVec.toNat_add ..
  have ha := a.isLt
  by_cases hNeg : a.toInt < 0 <;>
    by_cases hPred : (a + 4294967295#32).toInt < 0 <;>
    by_cases hPos : a.toInt ≤ 0 <;>
    first | (exfalso; split at hCond <;> split at hLess <;> omega) |
      (simp only [signBit, hNeg, hPred, hPos]; rfl)

/-- Not positive: the number is negative, or its predecessor is. -/
theorem finds_notPositive (hReady : Ready t h) (hGp : rs2 ≠ gp) :
    Finds t ((h.get rs2).toInt ≤ 0) (notPositiveTp t rs2) h where
  found := by
    have hAt : ∀ g, Ready t g → g.mem (signBit (h.get rs2) + signBit (h.get rs2 + 4294967295#32) +
        t.or1Table) = byteOf (setIf ((h.get rs2).toInt ≤ 0)) 0 := fun g hg => by
      rw [BitVec.add_comm _ t.or1Table]
      exact hg.small (by simp [rodata] : (t.or1Table, or1) ∈ rodata t) (or1_at (h.get rs2))
    have hGp' : rs2 ≠ 3#5 := hGp
    simp [notPositiveTp, run_msb, get_set, hGp', hAt, hReady, setWidth_setIf]
  touches := by
    have hTouch : Touches [tp, gp] (InVars [6] h) h (run (notPositiveTp t rs2) h) :=
      run_touches (by decide) (by simp [notPositiveTp, msb, getbyte, slliShort])
    exact hTouch.volatile (by simp)

end Conditions

end Riscv32.Minirv
