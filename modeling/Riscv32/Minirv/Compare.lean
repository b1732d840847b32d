import Riscv32.Minirv.Lookup
import Riscv32.Minirv.Macros

/-!
# Subtraction and comparison on minirv

A complement is looked up byte by byte, and a subtraction adds it and one.  A
comparison finds the signs of the operands and of their difference and looks
the three up.

`sub_negative_iff` is the arithmetic behind the lookup: three signs decide a
comparison, signed or unsigned.  The macro is followed in two stages, before and
after its subtraction (`SltSigns`, `SltDifference`), since the operands are no
longer where they were when the sign of the difference is known.

`slt_value`, `sltu_value` and `sub_value` are the results.
-/

namespace Riscv32.Minirv

open Isa Program Macro

/-! ## Bytes of a register -/

section Bytes

variable {h : Hart} {rd rs1 : Reg} {k n : Nat} {v w : Word}

theorem set_get_self (h : Hart) (r : Reg) : h.set r (h.get r) = h := by
  by_cases hr : r = 0
  · rw [Hart.set, if_pos hr]
  · simp only [Hart.set, Hart.get, if_neg hr]
    have hSame : (fun s => if s = r then h.x r else h.x s) = h.x := by
      funext s
      by_cases hs : s = r <;> simp [hs]
    rw [hSame]

theorem putWord_set (hr : rd ≠ sp) : putWord (h.set rd v) w n = (putWord h w n).set rd v := by
  have hAddr : cellAddr (h.set rd v) n 0 = cellAddr h n 0 := by
    rw [cellAddr, cellAddr, get_set, if_neg fun hEq => hr hEq.1.symm]
  rw [putWord, hAddr, putWord, Hart.set, Hart.set]
  split <;> rfl

/-- A variable that is written twice holds the second word. -/
theorem putWord_putWord : putWord (putWord h v n) w n = putWord h w n := by
  have hAddr : cellAddr (putWord h v n) n 0 = cellAddr h n 0 := rfl
  rw [putWord, hAddr, mem_putWord, putWord]
  congr 1
  funext x
  simp only [storeBytes_apply]
  split <;> rfl

/-- A byte of a register, by way of a variable. -/
theorem run_getbyte (hk : k < 4) : run (getbyte rd rs1 k) h =
    (putWord h (h.get rs1) 6).set rd ((byteOf (h.get rs1) k).setWidth 32) := by
  rw [getbyte, run_cons, act_sw (by decide) (by decide), run_cons,
    act_lbu (by decide) (by decide) hk, cell_putWord (by decide) (by decide) (by decide)
      (by decide) hk, if_pos rfl, run_nil]

/-- Doubling shifts to the left. -/
theorem run_doubles : run (List.replicate n (add rd rd rd)) (h.set rd v) =
    h.set rd (shiftLeft v n) := by
  induction n generalizing v with
  | zero => simp [shiftLeft]
  | succ n ih =>
      rw [List.replicate_succ, run_cons, act_add, set_set]
      by_cases hr : rd = 0
      · subst hr
        have hZero := ih (v := v)
        simp only [Hart.set, if_true] at hZero ⊢
        exact hZero
      · rw [get_set_self _ _ _ hr, ih, shiftLeft, shiftLeft]
        congr 1
        apply BitVec.eq_of_toNat_eq
        have hTwice : (v + v).toNat = 2 * v.toNat % 2 ^ 32 := by
          rw [BitVec.toNat_add, Nat.two_mul]
        rw [BitVec.toNat_ofNat, BitVec.toNat_ofNat, hTwice, Nat.mod_mul_mod, Nat.pow_succ]
        congr 1
        ring

theorem run_slliShort : run (slliShort rd rs1 n) h = h.set rd (shiftLeft (h.get rs1) n) := by
  unfold slliShort
  cases n with
  | zero =>
      by_cases hSame : rd = rs1
      · simp [hSame, shiftLeft, set_get_self]
      · simp [hSame, shiftLeft, mv]
  | succ n =>
      rw [if_neg (Nat.succ_ne_zero n), run_cons, act_add, Nat.add_sub_cancel, run_doubles]
      congr 1
      simp only [shiftLeft]
      apply BitVec.eq_of_toNat_eq
      have hTwice : (h.get rs1 + h.get rs1).toNat = 2 * (h.get rs1).toNat % 2 ^ 32 := by
        rw [BitVec.toNat_add, Nat.two_mul]
      rw [BitVec.toNat_ofNat, BitVec.toNat_ofNat, hTwice, Nat.mod_mul_mod, Nat.pow_succ]
      congr 1
      ring

/-- The sign of a word. -/
def signBit (a : Word) : Word := setIf (a.toInt < 0)

/-- The sign of a word, from its top byte shifted up by one. -/
theorem msb_value (a : Word) :
    (byteOf (shiftLeft ((byteOf a 3).setWidth 32) 1) 1).setWidth 32 = signBit a := by
  apply BitVec.eq_of_toNat_eq
  have ha := a.isLt
  have hSign : a.toInt < 0 ↔ 2147483648 ≤ a.toNat := by
    rw [BitVec.toInt_eq_toNat_cond]
    split <;> omega
  have hBit : (signBit a).toNat = if 2147483648 ≤ a.toNat then 1 else 0 := by
    simp only [signBit, setIf, hSign, decide_eq_true_eq]
    split <;> rfl
  rw [hBit]
  simp only [byteOf, extractLsb'_byte, shiftLeft, BitVec.toNat_setWidth, BitVec.toNat_ofNat]
  split <;> omega

theorem run_msb (hr : rd ≠ 0#5) (hSp : rd ≠ sp) : run (msb rd rs1) h =
    (putWord h (shiftLeft ((byteOf (h.get rs1) 3).setWidth 32) 1) 6).set rd
      (signBit (h.get rs1)) := by
  rw [msb, run_append, run_append, run_getbyte (by decide), run_slliShort,
    run_getbyte (by decide), set_set, get_set_self _ _ _ hr, get_set_self _ _ _ hr,
    putWord_set hSp, set_set, putWord_putWord, msb_value]

end Bytes

/-! ## Subtraction -/

section Subtraction

variable {t : Symbols} {h : Hart} {rd rs1 rs2 : Reg} (hReady : Ready t h)
include hReady

/-- The complement, byte by byte from the table. -/
theorem not_value (hr : rd ≠ 0#5) : (run (Macro.not t rd rs1) h).get rd = ~~~h.get rs1 := by
  have hRow := fun g (hg : Ready t g) b =>
    (hg.xor8Table.row (r := 0xff00#32) 0xff#8 b rfl).trans BitVec.allOnes_xor
  simp [Macro.not, notByte, get_set, hr, hReady, hRow, var, ← byteOf_not]

omit hReady in
theorem not_gp (hGp : rd ≠ 3#5) : (run (Macro.not t rd rs1) h).get gp = h.get gp := by
  simp [Macro.not, notByte, get_set, hGp.symm, var]

omit hReady in
/-- What the complement uses besides its destination. -/
theorem not_touches (hSp : rd ≠ 2#5) :
    Touches [rd, tp, gp] (InVars [3, 6, 7] h) h (run (Macro.not t rd rs1) h) :=
  run_touches (by simp [hSp.symm]) (by simp [Macro.not, notByte])

/-- A difference is the sum with the complement, and one. -/
theorem sub_value (hr : rd ≠ 0#5) (hGp : rs1 ≠ gp) (hTp : rs1 ≠ tp) :
    (run (sub t rd rs1 rs2) h).get rd = h.get rs1 - h.get rs2 := by
  have hNot : (run (Macro.not t tp rs2) h).get tp = ~~~h.get rs2 := not_value hReady (by decide)
  have hSame : (run (Macro.not t tp rs2) h).get rs1 = h.get rs1 :=
    (not_touches (by decide)).get rs1 (by simp [hGp, hTp])
  simp only [sub, run_append, run_cons, run_nil, act_add, act_addi, get_set_self _ _ _ hr, hNot,
    hSame]
  rw [BitVec.add_assoc, show (1 : BitVec 12).signExtend 32 = 1#32 by decide,
    ← BitVec.neg_eq_not_add, BitVec.sub_eq_add_neg]

omit hReady in
/-- A subtraction uses what its complement uses. -/
theorem sub_touches (hSp : rd ≠ 2#5) :
    Touches [rd, tp, gp] (InVars [3, 6, 7] h) h (run (sub t rd rs1 rs2) h) :=
  run_touches (by simp [hSp.symm]) (by simp [sub, Macro.not, notByte])

omit hReady in
theorem sub_gp (hGp : rd ≠ 3#5) : (run (sub t rd rs1 rs2) h).get gp = h.get gp := by
  have hNot : (run (Macro.not t tp rs2) h).get gp = h.get gp := not_gp (by decide)
  simp only [sub, run_append, run_cons, run_nil, act_add, act_addi]
  simp [get_set, hGp.symm, hNot]

end Subtraction

/-! ## Comparison -/

/-- The signs of the operands and of the difference, the first on top. -/
def signs (a b : Word) : Word :=
  shiftLeft (shiftLeft (signBit a) 1 + signBit b) 1 + signBit (a - b)

section Signs

variable (a b : Word)

theorem toNat_signBit : (signBit a).toNat = if a.toInt < 0 then 1 else 0 := by
  rw [signBit, setIf]
  by_cases ha : a.toInt < 0 <;> simp [ha]

/-- The three signs as an index. -/
theorem toNat_signs : (signs a b).toNat =
    4 * (signBit a).toNat + 2 * (signBit b).toNat + (signBit (a - b)).toNat := by
  have hBit : ∀ c : Word, (signBit c).toNat ≤ 1 := fun c => by
    rw [toNat_signBit]
    split <;> omega
  have ha := hBit a
  have hb := hBit b
  have hd := hBit (a - b)
  simp only [signs, shiftLeft, BitVec.toNat_add, BitVec.toNat_ofNat]
  omega

/-- The sign of a difference. -/
theorem sub_negative_iff : (a - b).toInt < 0 ↔
    (0 ≤ a.toInt - b.toInt ∧ 2147483648 ≤ a.toInt - b.toInt) ∨
      (a.toInt - b.toInt < 0 ∧ -2147483648 ≤ a.toInt - b.toInt) := by
  have ha := BitVec.toInt_lt (x := a)
  have ha' := BitVec.le_toInt a
  have hb := BitVec.toInt_lt (x := b)
  have hb' := BitVec.le_toInt b
  rw [BitVec.toInt_sub, Int.bmod_def]
  split <;> omega

/-- What the table of `slt` has at the three signs. -/
theorem slt1_at : slt1[(signs a b).toNat]? = some (byteOf (setIf (a.toInt < b.toInt)) 0) := by
  have hDiff := sub_negative_iff a b
  have ha' := BitVec.toInt_lt (x := a)
  have ha'' := BitVec.le_toInt a
  have hb' := BitVec.toInt_lt (x := b)
  have hb'' := BitVec.le_toInt b
  rw [toNat_signs, toNat_signBit, toNat_signBit, toNat_signBit]
  by_cases ha : a.toInt < 0 <;> by_cases hb : b.toInt < 0 <;> by_cases hd : (a - b).toInt < 0 <;>
    by_cases hLess : a.toInt < b.toInt <;>
    first | (exfalso; omega) | (simp only [ha, hb, hd, hLess]; rfl)

/-- What the table of `sltu` has there. -/
theorem sltu1_at : sltu1[(signs a b).toNat]? = some (byteOf (setIf (a.toNat < b.toNat)) 0) := by
  have hDiff := sub_negative_iff a b
  have ha' := BitVec.toInt_eq_toNat_cond a
  have hb' := BitVec.toInt_eq_toNat_cond b
  have haLt := a.isLt
  have hbLt := b.isLt
  rw [toNat_signs, toNat_signBit, toNat_signBit, toNat_signBit]
  by_cases ha : a.toInt < 0 <;> by_cases hb : b.toInt < 0 <;> by_cases hd : (a - b).toInt < 0 <;>
    by_cases hLess : a.toNat < b.toNat <;>
    first | (exfalso; split at ha' <;> split at hb' <;> omega) |
      (simp only [ha, hb, hd, hLess]; rfl)

theorem setWidth_setIf (c : Bool) : (byteOf (setIf c) 0).setWidth 32 = setIf c := by
  cases c <;> decide

end Signs

section Comparison

variable {t : Symbols} {h : Hart} {rd rs1 rs2 : Reg} {lut : Word} (hReady : Ready t h)

/-- The comparison up to the subtraction. -/
def sltSigns (rs1 rs2 : Reg) : List Line :=
  [sw s0 1, sw s1 2, sw rs2 varA, mv s0 rs1, lw s1 varA] ++
    (msb gp s0 ++ (slliShort gp gp 1 ++ (msb tp s1 ++ (add gp gp tp :: slliShort gp gp 1))))

/-- The comparison in two stages. -/
theorem sltTemplate_split : sltTemplate t lut rd rs1 rs2 = sltSigns rs1 rs2 ++
    (sub t tp s0 s1 ++ (msb tp tp ++
      [add gp gp tp, la tp lut, add tp tp gp, lw s1 2, lw s0 1, lbuAt rd tp])) := by
  simp [sltTemplate, sltSigns]

/-- What the comparison has found before it subtracts. -/
structure SltSigns (h p : Hart) (a b : Word) : Prop where
  gp : p.get gp = shiftLeft (shiftLeft (signBit a) 1 + signBit b) 1
  s0 : p.get s0 = a
  s1 : p.get s1 = b
  savedS0 : ∀ k < 4, cell p 1 k = byteOf (h.get Program.s0) k
  savedS1 : ∀ k < 4, cell p 2 k = byteOf (h.get Program.s1) k

/-- Before the subtraction: both operands are saved and their signs are known. -/
theorem sltSigns_spec :
    SltSigns h (run (sltSigns rs1 rs2) h) (h.get rs1) (h.get rs2) where
  gp := by simp [sltSigns, run_msb, run_slliShort, get_set, var]
  s0 := by simp [sltSigns, run_msb, run_slliShort, get_set]
  s1 := by simp [sltSigns, run_msb, run_slliShort, get_set, var]
  savedS0 k hk := by simp [sltSigns, run_msb, run_slliShort, hk]
  savedS1 k hk := by simp [sltSigns, run_msb, run_slliShort, hk]

theorem sltSigns_touches :
    Touches [s0, s1, tp, gp] (InVars [1, 2, 4, 6] h) h (run (sltSigns rs1 rs2) h) :=
  run_touches (by decide) (by simp [sltSigns, msb, getbyte, slliShort])

/-- What the comparison has found when it has subtracted. -/
structure SltDifference (t : Symbols) (h q : Hart) (a b : Word) : Prop where
  ready : Ready t q
  tp : q.get tp = a - b
  gp : q.get gp = shiftLeft (shiftLeft (signBit a) 1 + signBit b) 1
  savedS0 : ∀ k < 4, cell q 1 k = byteOf (h.get Program.s0) k
  savedS1 : ∀ k < 4, cell q 2 k = byteOf (h.get Program.s1) k

/-- After it: the sign of the difference is in `tp`. -/
theorem sltDifference_spec (hReady : Ready t h) :
    SltDifference t h (run (sltSigns rs1 rs2 ++ sub t tp s0 s1) h) (h.get rs1) (h.get rs2) := by
  have hSigns : SltSigns h (run (sltSigns rs1 rs2) h) (h.get rs1) (h.get rs2) := sltSigns_spec
  have hTouch : Touches [s0, s1, tp, gp] (InVars [1, 2, 4, 6] h) h (run (sltSigns rs1 rs2) h) :=
    sltSigns_touches
  rw [run_append]
  generalize run (sltSigns rs1 rs2) h = p at hSigns hTouch ⊢
  have hp : Ready t p :=
    hReady.frame (hTouch.mono (List.Subset.refl _) fun a ha => .inl ha.1) (by decide)
  have hDiff : (run (sub t tp s0 s1) p).get tp = p.get s0 - p.get s1 :=
    sub_value hp (by decide) (by decide) (by decide)
  have hSub : Touches [tp, tp, gp] (InVars [3, 6, 7] p) p (run (sub t tp s0 s1) p) :=
    sub_touches (by decide)
  have hCell : ∀ n, 1 ≤ n → n ≤ 2 → ∀ k < 4,
      cell (run (sub t tp s0 s1) p) n k = cell p n k := fun n hLow hHigh k hk =>
    hSub.cell (by decide) hLow (by omega) hk (by simp; omega)
  constructor
  case ready => exact hp.frame (hSub.mono (List.Subset.refl _) fun a ha => .inl ha.1) (by decide)
  case tp => rw [hDiff, hSigns.s0, hSigns.s1]
  case gp => exact (sub_gp (by decide)).trans hSigns.gp
  case savedS0 =>
    intro k hk
    rw [hCell 1 (by decide) (by decide) k hk, hSigns.savedS0 k hk]
  case savedS1 =>
    intro k hk
    rw [hCell 2 (by decide) (by decide) k hk, hSigns.savedS1 k hk]

/-- The result is what the table has for the signs. -/
theorem sltTemplate_value (hReady : Ready t h) (hr : rd ≠ 0#5) {b : Byte}
    (hLut : ∀ g, Ready t g → g.mem (lut + signs (h.get rs1) (h.get rs2)) = b) :
    (run (sltTemplate t lut rd rs1 rs2) h).get rd = b.setWidth 32 := by
  have hDiff : SltDifference t h (run (sltSigns rs1 rs2 ++ sub t tp s0 s1) h) (h.get rs1)
      (h.get rs2) := sltDifference_spec hReady
  rw [sltTemplate_split, ← List.append_assoc, run_append]
  generalize run (sltSigns rs1 rs2 ++ sub t tp s0 s1) h = q at hDiff ⊢
  simp only [signs] at hLut
  simp [run_msb, get_set, hDiff.tp, hDiff.gp, hr, hLut, hDiff.ready]

theorem sltTemplate_touches (hReady : Ready t h) (hSp : rd ≠ 2#5) :
    Touches [rd, tp, gp] (InVars [1, 2, 3, 4, 6, 7] h) h
      (run (sltTemplate t lut rd rs1 rs2) h) := by
  have hAll : Touches [s0, s1, rd, tp, gp] (InVars [1, 2, 3, 4, 6, 7] h) h
      (run (sltTemplate t lut rd rs1 rs2) h) :=
    run_touches (by simp [hSp.symm])
      (by simp [sltTemplate, msb, getbyte, slliShort, sub, Macro.not, notByte])
  have hDiff : SltDifference t h (run (sltSigns rs1 rs2 ++ sub t tp s0 s1) h) (h.get rs1)
      (h.get rs2) := sltDifference_spec hReady
  rw [sltTemplate_split, ← List.append_assoc, run_append] at hAll ⊢
  generalize run (sltSigns rs1 rs2 ++ sub t tp s0 s1) h = q at hDiff hAll ⊢
  refine (hAll.restored ?_).restored ?_
  · by_cases hs : rd = s0
    · exact .inl (by simp [hs])
    · exact .inr (by simp [run_msb, get_set, Ne.symm hs, var, hDiff.savedS0])
  · by_cases hs : rd = s1
    · exact .inl (by simp [hs])
    · exact .inr (by simp [run_msb, get_set, Ne.symm hs, var, hDiff.savedS1])

/-- Signed comparison. -/
theorem slt_value (hReady : Ready t h) (hr : rd ≠ 0#5) :
    (run (slt t rd rs1 rs2) h).get rd = setIf ((h.get rs1).toInt < (h.get rs2).toInt) := by
  have hLut := fun (g : Hart) (hg : Ready t g) =>
    hg.small (by simp [rodata] : (t.slt1Table, slt1) ∈ rodata t)
      (slt1_at (h.get rs1) (h.get rs2))
  rw [slt, sltTemplate_value hReady hr hLut, setWidth_setIf]

/-- Unsigned comparison: the same macro with the other table. -/
theorem sltu_value (hReady : Ready t h) (hr : rd ≠ 0#5) :
    (run (sltu t rd rs1 rs2) h).get rd = setIf ((h.get rs1).toNat < (h.get rs2).toNat) := by
  have hLut := fun (g : Hart) (hg : Ready t g) =>
    hg.small (by simp [rodata] : (t.sltu1Table, sltu1) ∈ rodata t)
      (sltu1_at (h.get rs1) (h.get rs2))
  rw [sltu, sltTemplate_value hReady hr hLut, setWidth_setIf]

end Comparison

end Riscv32.Minirv
