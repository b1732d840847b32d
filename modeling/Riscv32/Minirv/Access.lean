import Riscv32.Minirv.Branch
import Riscv32.Minirv.Shift

/-!
# Loads and stores on minirv

A half word is read and written as two bytes; a sign is brought down by a shift
to the right.

The base instructions have byte loads without sign and byte stores only, so `lb`,
`lhu`, `lh` and `sh` take several of them and pass values through variables below
the stack pointer; an access to those variables would not be the program's.  Each
macro has one lemma, for its result and for what it touches: `lb_spec`,
`lh_spec`, `sh_touches`.
-/

namespace Riscv32.Minirv

open Isa Program Macro

/-! ## Values -/

section Values

variable {mem : Word → Byte} {imm : BitVec 12}

/-- The address of the second byte. -/
theorem second_byte (hImm : imm ≠ 0x7ff) (a : Word) :
    a + (imm + 1#12).signExtend 32 = a + imm.signExtend 32 + 1#32 := by
  have hMax : imm.toInt ≠ 2047 := fun hEq => hImm (BitVec.eq_of_toInt_eq hEq)
  have hLow := BitVec.le_toInt imm
  have hHigh := BitVec.toInt_lt (x := imm)
  have hNext : (imm + 1#12).signExtend 32 = imm.signExtend 32 + 1#32 := by
    apply BitVec.eq_of_toInt_eq
    rw [BitVec.toInt_signExtend_of_le (by decide), BitVec.toInt_add, BitVec.toInt_add,
      BitVec.toInt_signExtend_of_le (by decide), show (1#12).toInt = 1 by decide,
      show (1#32).toInt = 1 by decide, Int.bmod_def, Int.bmod_def]
    omega
  rw [hNext, BitVec.add_assoc]

/-- A byte on top of a word has its sign there. -/
theorem toInt_topByte (b : Byte) :
    (b ++ 0#8 ++ 0#8 ++ 0#8 : Word).toInt = b.toInt * 16777216 := by
  have hWord : (b ++ 0#8 ++ 0#8 ++ 0#8 : Word).toNat = b.toNat * 16777216 := by
    rw [toNat_bytes]
    simp only [BitVec.toNat_ofNat]
    omega
  have hb := b.isLt
  rw [BitVec.toInt_eq_toNat_cond, BitVec.toInt_eq_toNat_cond, hWord]
  split <;> split <;> omega

/-- A signed byte, brought up to the top and down again. -/
theorem lb_value (a : Word) : shiftRightArith (mem a ++ 0#8 ++ 0#8 ++ 0#8 : Word) 24 =
    LoadOp.lb.value mem a := by
  have hByte : BitVec.ofNat 8 (loadBytes mem a 1) = mem a := by
    simp [loadBytes]
  apply BitVec.eq_of_toInt_eq
  have hLow := BitVec.le_toInt (mem a)
  have hHigh := BitVec.toInt_lt (x := mem a)
  rw [LoadOp.value, hByte, BitVec.toInt_signExtend_of_le (by decide), shiftRightArith,
    toInt_topByte, BitVec.toInt_ofInt, Int.bmod_def]
  omega

/-- A half word is two bytes, the lower one first. -/
theorem loadBytes_two (a : Word) :
    loadBytes mem a 2 = (mem a).toNat + 256 * (mem (a + 1#32)).toNat := by
  simp [loadBytes]

/-- The two bytes of a half word, put together. -/
theorem lhu_value (a : Word) : ((mem a).setWidth 32 : Word) +
    (0#8 ++ 0#8 ++ mem (a + 1#32) ++ 0#8 : Word) = LoadOp.lhu.value mem a := by
  have h0 := (mem a).isLt
  have h1 := (mem (a + 1#32)).isLt
  apply BitVec.eq_of_toNat_eq
  rw [LoadOp.value, BitVec.toNat_add, toNat_bytes, BitVec.toNat_setWidth, BitVec.toNat_ofNat]
  simp only [loadBytes_two, BitVec.toNat_ofNat]
  omega

/-- The same with the sign of the upper byte brought down. -/
theorem lh_value (a : Word) : ((mem a).setWidth 32 : Word) +
    shiftRightArith (mem (a + 1#32) ++ 0#8 ++ 0#8 ++ 0#8 : Word) 16 = LoadOp.lh.value mem a := by
  have h0 := (mem a).isLt
  have h1 := (mem (a + 1#32)).isLt
  have hTop := BitVec.toInt_eq_toNat_cond (mem (a + 1#32))
  have hHalf := BitVec.toInt_eq_toNat_cond (BitVec.ofNat 16 (loadBytes mem a 2))
  have hBytes : (BitVec.ofNat 16 (loadBytes mem a 2)).toNat =
      (mem a).toNat + 256 * (mem (a + 1#32)).toNat := by
    rw [BitVec.toNat_ofNat, loadBytes_two]
    omega
  have hLow : ((mem a).setWidth 32 : Word).toInt = (mem a).toNat := by
    rw [BitVec.toInt_eq_toNat_cond, BitVec.toNat_setWidth]
    split <;> omega
  apply BitVec.eq_of_toInt_eq
  rw [LoadOp.value, BitVec.toInt_signExtend_of_le (by decide), BitVec.toInt_add, hLow,
    shiftRightArith, toInt_topByte, BitVec.toInt_ofInt, hHalf, hBytes]
  simp only [Int.bmod_def]
  split at hTop <;> omega

/-- A half word is stored as two bytes. -/
theorem storeBytes_two (a v x : Word) : storeBytes mem a 2 v x =
    if x = a + 1#32 then byteOf v 1 else if x = a then byteOf v 0 else mem x := by
  rw [storeBytes_apply, byteOf, byteOf, extractLsb'_byte, extractLsb'_byte]
  by_cases hNext : x = a + 1#32
  · have hOne : x - a = 1#32 := by bv_omega
    rw [if_pos hNext, hOne]
    rfl
  · by_cases hSame : x = a
    · rw [if_neg hNext, if_pos hSame, hSame, BitVec.sub_self]
      rfl
    · rw [if_neg hNext, if_neg hSame, if_neg]
      bv_omega

end Values

/-! ## Lines -/

section Lines

variable {t : Symbols} {h : Hart} {rd rs rs1 : Reg} {imm : BitVec 12} {n k : Nat} {a v : Word}

/-- A variable is none of the program's own bytes. -/
theorem mem_putWord_apart (hLow : 1 ≤ n) (hHigh : n ≤ 7) (ha : ¬ InScratch h a) :
    (putWord h v n).mem a = h.mem a :=
  (touches_putWord hLow hHigh).mem a ha

theorem mem_putByte_apart (hLow : 1 ≤ n) (hHigh : n ≤ 7) (hk : k < 4) (ha : ¬ InScratch h a) :
    (putByte h v n k).mem a = h.mem a :=
  (touches_putByte hLow hHigh hk).mem a ha

@[simp] theorem inScratch_putWord : InScratch (putWord h v n) a ↔ InScratch h a := by
  rw [InScratch, InScratch, get_putWord]

@[simp] theorem inScratch_set {r : Reg} (hr : r ≠ sp) :
    InScratch (h.set r v) a ↔ InScratch h a := by
  rw [InScratch, InScratch, get_set, if_neg fun hEq => hr hEq.1.symm]

/-- **`lb`**, away from the variables. -/
theorem lb_spec (hReady : Ready t h) (hSp : rd ≠ 2#5)
    (hApart : ¬ InScratch h (h.get rs1 + imm.signExtend 32)) :
    (rd ≠ 0#5 → rd ≠ 4#5 → (run (lb t rd rs1 imm) h).get rd =
      LoadOp.lb.value h.mem (h.get rs1 + imm.signExtend 32)) ∧
    Touches [rd, tp, gp] (InVars [1, 4, 5, 6, 7] h) h (run (lb t rd rs1 imm) h) := by
  have hReadyP : Ready t
      (run [sw zero varA, .load .lbu rd rs1 imm, sb rd varA 3, lw rd varA] h) := by
    simp [act_lbu_at, hSp, hReady]
  have hRd : rd ≠ 0#5 →
      (run [sw zero varA, .load .lbu rd rs1 imm, sb rd varA 3, lw rd varA] h).get rd =
        (h.mem (h.get rs1 + imm.signExtend 32) ++ 0#8 ++ 0#8 ++ 0#8 : Word) := fun hr => by
    simp [act_lbu_at, hSp, hr, get_set, var, mem_putWord_apart, hApart]
  have hTouch : Touches [rd, tp, gp] (InVars [1, 4, 5, 6, 7] h) h
      (run [sw zero varA, .load .lbu rd rs1 imm, sb rd varA 3, lw rd varA] h) :=
    run_touches (by simp [hSp.symm]) (by simp)
  rw [lb, run_append, srai]
  generalize run [sw zero varA, .load .lbu rd rs1 imm, sb rd varA 3, lw rd varA] h = p
    at hReadyP hRd hTouch ⊢
  have hAmount : (Amount.imm 24).value p < 32 := by
    rw [Macro.Amount.value]
    decide
  refine ⟨fun hr hTp => ?_, hTouch.trans ?_⟩
  · rw [shiftRight_value hReadyP hr hTp hAmount true, if_pos rfl, hRd hr, Macro.Amount.value,
      lb_value]
  · refine (shiftRight_touches hReadyP hSp hAmount true).mono (List.Subset.refl _) fun x hx => ?_
    exact (inVars_congr (hTouch.get _ (by simp [hSp.symm])) x).mp hx

/-- **`lhu`**: both bytes are read before the result is written. -/
theorem lhu_spec (hSp : rd ≠ 2#5) (hTp : rs1 ≠ 4#5) (hImm : imm ≠ 0x7ff)
    (hApart : ¬ InScratch h (h.get rs1 + imm.signExtend 32))
    (hApart' : ¬ InScratch h (h.get rs1 + imm.signExtend 32 + 1#32)) :
    (rd ≠ 0#5 → rd ≠ 4#5 → (run (lhu rd rs1 imm) h).get rd =
      LoadOp.lhu.value h.mem (h.get rs1 + imm.signExtend 32)) ∧
    Touches [rd, tp, gp] (InVars [4] h) h (run (lhu rd rs1 imm) h) := by
  refine ⟨fun hr hTpd => ?_, run_touches (by simp [hSp.symm]) (by simp [lhu])⟩
  rw [← lhu_value]
  simp [lhu, act_lbu_at, hr, hTp, Ne.symm hTpd, get_set, var, second_byte hImm,
    mem_putWord_apart, mem_putByte_apart, hApart, hApart']

/-- **`lh`**: the upper byte goes through a shift to the right, which uses `tp` and
`gp`; hence neither can be the base. -/
theorem lh_spec (hReady : Ready t h) (hSp : rd ≠ 2#5) (hTp : rs1 ≠ 4#5) (hGp : rs1 ≠ 3#5)
    (hImm : imm ≠ 0x7ff) (hApart : ¬ InScratch h (h.get rs1 + imm.signExtend 32))
    (hApart' : ¬ InScratch h (h.get rs1 + imm.signExtend 32 + 1#32)) :
    (rd ≠ 0#5 → rd ≠ 3#5 → (run (lh t rd rs1 imm) h).get rd =
      LoadOp.lh.value h.mem (h.get rs1 + imm.signExtend 32)) ∧
    Touches [rd, tp, gp] (InVars [1, 4, 5, 6, 7] h) h (run (lh t rd rs1 imm) h) := by
  have hReadyP : Ready t
      (run [sw zero varA, .load .lbu gp rs1 (imm + 1), sb gp varA 3, lw gp varA] h) := by
    simp [act_lbu_at, hReady]
  have hByte :
      (run [sw zero varA, .load .lbu gp rs1 (imm + 1), sb gp varA 3, lw gp varA] h).get gp =
        (h.mem (h.get rs1 + imm.signExtend 32 + 1#32) ++ 0#8 ++ 0#8 ++ 0#8 : Word) := by
    simp [act_lbu_at, get_set, var, second_byte hImm, mem_putWord_apart, hApart']
  have hTouch : Touches [tp, gp] (InVars [1, 4, 5, 6, 7] h) h
      (run [sw zero varA, .load .lbu gp rs1 (imm + 1), sb gp varA 3, lw gp varA] h) :=
    run_touches (by decide) (by simp)
  rw [lh, run_append, run_append, srai]
  generalize run [sw zero varA, .load .lbu gp rs1 (imm + 1), sb gp varA 3, lw gp varA] h = p
    at hReadyP hByte hTouch ⊢
  have hAmount : (Amount.imm 16).value p < 32 := by
    rw [Macro.Amount.value]
    decide
  have hShift : (run (shiftRightTemplate t gp gp (.imm 16) true) p).get 3#5 = _ :=
    shiftRight_value hReadyP (by decide) (by decide) hAmount true
  rw [if_pos rfl, hByte, Macro.Amount.value] at hShift
  have hTouchShift : Touches [tp, gp] (InVars [1, 4, 5, 6, 7] h) p
      (run (shiftRightTemplate t gp gp (.imm 16) true) p) :=
    (shiftRight_touches hReadyP (by decide) hAmount true).mono (by simp)
      fun x hx => (inVars_congr (hTouch.get _ (by decide)) x).mp hx
  have hBoth := hTouch.trans hTouchShift
  generalize run (shiftRightTemplate t gp gp (.imm 16) true) p = q at hShift hBoth ⊢
  have hTail : Touches [rd, tp, gp] (InVars [] q) q
      (run [.load .lbu rd rs1 imm, add rd rd gp] q) :=
    run_touches (by simp [hSp.symm]) (by simp)
  refine ⟨fun hr hGpd => ?_, ?_⟩
  · have hBase : q.get rs1 = h.get rs1 := hBoth.get _ (by simp [hTp, hGp])
    have hFirst : q.mem (h.get rs1 + imm.signExtend 32) = h.mem (h.get rs1 + imm.signExtend 32) :=
      hBoth.mem _ fun hIn => hApart hIn.1
    rw [← lh_value]
    simp [act_lbu_at, get_set, hr, Ne.symm hGpd, hBase, hFirst, hShift]
  · exact (hBoth.mono (by simp) fun _ => id).trans
      (hTail.mono (List.Subset.refl _) fun x hx => (List.not_mem_nil hx.2).elim)

theorem act_sb_at : act (.store .sb rs1 rs imm) h =
    poke h (h.get rs1 + imm.signExtend 32) (h.get rs) := rfl

/-- The bytes go to memory; the second one passes through a variable. -/
theorem sh_touches (hTp : rs1 ≠ 4#5) (hImm : imm ≠ 0x7ff) :
    Touches [tp, gp] (InScratch h) { h with
      mem := storeBytes h.mem (h.get rs1 + imm.signExtend 32) 2 (h.get rs) }
      (run (sh rs rs1 imm) h) := by
  have hRun : run (sh rs rs1 imm) h = poke ((putWord (poke h (h.get rs1 + imm.signExtend 32)
      (h.get rs)) (h.get rs) 6).set tp ((byteOf (h.get rs) 1).setWidth 32))
      (h.get rs1 + imm.signExtend 32 + 1#32) ((byteOf (h.get rs) 1).setWidth 32) := by
    simp [sh, run_getbyte, act_sb_at, get_set, hTp, second_byte hImm]
  rw [hRun]
  refine ⟨?_, fun r hr => ?_, fun x hx => ?_⟩
  · rw [pc_poke, pc_set, pc_putWord, pc_poke]
  · obtain ⟨hNe, -⟩ : r ≠ 4#5 ∧ r ≠ 3#5 := by simpa using hr
    rw [get_poke, get_set, if_neg fun hEq => hNe hEq.1, get_putWord, get_poke]
    rfl
  · have hVar := (touches_putWord (h := poke h (h.get rs1 + imm.signExtend 32) (h.get rs))
      (v := h.get rs) (n := 6) (by decide) (by decide)).mem x (by rwa [InScratch, get_poke])
    rw [mem_poke, mem_set, hVar, mem_poke, byteOf_setWidth]
    exact (storeBytes_two ..).symm

end Lines

end Riscv32.Minirv
