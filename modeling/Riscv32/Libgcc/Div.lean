import Riscv32.Libgcc.Udiv

/-!
# Signed division and remainders without a divider

The signed routines of `div.S` divide magnitudes and give the result its sign.

They share their code: a routine jumps into the unsigned division, or calls it and
negates what comes back (`tail_udiv`, `call_udiv`, `div_negated`), so each piece is
specified once at its label and the routines are put together from them.  The
return address waits in `t0` meanwhile, and `divRegs` is what all of them may
change.

## Main results

* `divsi3_returns`, `modsi3_returns` — `__divsi3` is `div` and `__modsi3` is `rem`,
  with their special cases.
* `umodsi3_returns` — `__umodsi3` is `remu`.
-/

namespace Riscv32.Libgcc

open Isa Program Data

/-! ## Magnitudes -/

section Signs

variable {a b : Word}

theorem toInt_of_neg (h : a.toInt < 0) : a.toInt = -((-a).toNat : Int) := by
  have hLt := a.isLt
  rw [BitVec.toInt_eq_toNat_cond] at h ⊢
  rw [BitVec.toNat_neg]
  omega

theorem toInt_of_nonneg (h : 0 ≤ a.toInt) : a.toInt = (a.toNat : Int) := by
  have hLt := a.isLt
  rw [BitVec.toInt_eq_toNat_cond] at h ⊢
  omega

/-- Without the case of the overflow, which the formula covers. -/
theorem div_value (hb : b.toInt ≠ 0) :
    RegOp.div.value a b = BitVec.ofInt 32 (a.toInt.tdiv b.toInt) := by
  rw [RegOp.value, if_neg hb]
  split
  · next hOver =>
      rw [hOver.1, hOver.2, ← BitVec.ofInt_toInt (x := a), hOver.1]
      rfl
  · rfl

theorem rem_value (hb : b.toInt ≠ 0) :
    RegOp.rem.value a b = BitVec.ofInt 32 (a.toInt.tmod b.toInt) := by
  rw [RegOp.value, if_neg hb]
  split
  · next hOver =>
      rw [hOver.1, hOver.2]
      rfl
  · rfl

theorem divu_value (hb : b.toNat ≠ 0) :
    RegOp.divu.value a b = BitVec.ofInt 32 ((a.toNat : Int).tdiv b.toNat) := by
  rw [RegOp.value, if_neg hb, ← Int.ofNat_tdiv, BitVec.ofInt_natCast]

theorem remu_value (hb : b.toNat ≠ 0) :
    RegOp.remu.value a b = BitVec.ofInt 32 ((a.toNat : Int).tmod b.toNat) := by
  rw [RegOp.value, if_neg hb, ← Int.ofNat_tmod, BitVec.ofInt_natCast]

theorem toNat_ne_zero (hb : b.toInt ≠ 0) : b.toNat ≠ 0 := fun hZero =>
  hb (by rw [(toNat_eq_zero_iff b).mp hZero]; rfl)

/-- A divisor that is negated because it is negative. -/
theorem toNat_neg_ne_zero (hb : b.toInt < 0) : (-b).toNat ≠ 0 := by
  have hAbs := toInt_of_neg hb
  omega

theorem div_neg_pos (ha : a.toInt < 0) (hb : 0 < b.toInt) :
    -RegOp.divu.value (-a) b = RegOp.div.value a b := by
  rw [div_value hb.ne', divu_value (toNat_ne_zero hb.ne'), toInt_of_neg ha,
    toInt_of_nonneg hb.le, Int.neg_tdiv, BitVec.ofInt_neg]

theorem div_neg_nonpos (ha : a.toInt < 0) (hb : b.toInt ≤ 0) :
    RegOp.divu.value (-a) (-b) = RegOp.div.value a b := by
  rcases hb.lt_or_eq with hNeg | hZero
  · rw [div_value hNeg.ne, divu_value (toNat_neg_ne_zero hNeg), toInt_of_neg ha,
      toInt_of_neg hNeg, Int.neg_tdiv, Int.tdiv_neg, neg_neg]
  · rw [(toInt_eq_zero_iff b).mp hZero]
    rfl

theorem div_nonneg_neg (ha : 0 ≤ a.toInt) (hb : b.toInt < 0) :
    -RegOp.divu.value a (-b) = RegOp.div.value a b := by
  rw [div_value hb.ne, divu_value (toNat_neg_ne_zero hb), toInt_of_nonneg ha,
    toInt_of_neg hb, Int.tdiv_neg, BitVec.ofInt_neg]

theorem div_nonneg (ha : 0 ≤ a.toInt) (hb : 0 ≤ b.toInt) :
    RegOp.divu.value a b = RegOp.div.value a b := by
  rcases hb.lt_or_eq with hPos | hZero
  · rw [div_value hPos.ne', divu_value (toNat_ne_zero hPos.ne'), toInt_of_nonneg ha,
      toInt_of_nonneg hb]
  · rw [(toInt_eq_zero_iff b).mp hZero.symm]
    rfl

/-- The magnitude of a divisor. -/
def absWord (b : Word) : Word := if b.toInt < 0 then -b else b

theorem absWord_spec (hb : b.toInt ≠ 0) : (absWord b).toNat ≠ 0 ∧
    ∀ n : Int, n.tmod b.toInt = n.tmod (absWord b).toNat := by
  unfold absWord
  split
  · next hNeg =>
      refine ⟨toNat_neg_ne_zero hNeg, fun n => ?_⟩
      rw [toInt_of_neg hNeg, Int.tmod_neg]
  · next hPos =>
      refine ⟨toNat_ne_zero hb, fun n => ?_⟩
      rw [toInt_of_nonneg (Int.not_lt.mp hPos)]

theorem rem_nonneg (ha : 0 ≤ a.toInt) :
    RegOp.remu.value a (absWord b) = RegOp.rem.value a b := by
  by_cases hb : b.toInt = 0
  · rw [(toInt_eq_zero_iff b).mp hb]
    rfl
  · obtain ⟨hNe, hMod⟩ := absWord_spec hb
    rw [rem_value hb, remu_value hNe, hMod, toInt_of_nonneg ha]

theorem rem_neg (ha : a.toInt < 0) :
    -RegOp.remu.value (-a) (absWord b) = RegOp.rem.value a b := by
  by_cases hb : b.toInt = 0
  · rw [(toInt_eq_zero_iff b).mp hb]
    exact BitVec.neg_neg
  · obtain ⟨hNe, hMod⟩ := absWord_spec hb
    rw [rem_value hb, remu_value hNe, hMod, toInt_of_neg ha, Int.neg_tmod, BitVec.ofInt_neg]

end Signs

/-! ## The routines -/

/-- The registers a routine that calls another may change. -/
def divRegs : List Reg := ra :: t0 :: mulRegs

/-- A routine has returned to its caller with a value. -/
structure Returned (v : Word) (h h' : Hart) : Prop where
  pc : h'.pc = h.get ra &&& ~~~1#32
  keeps : Keeps divRegs h h'
  value : h'.get a0 = v

section Routines

variable {code : Code} {loc : Nat → Word} (hIn : Installed code loc (div loc))
  (hEven : ∀ i, loc i &&& ~~~1#32 = loc i) {h t : Hart}

include hIn

/-- `j __udivdi3`, where the caller's return address is still in `ra`. -/
theorem tail_udiv (hPc : t.pc = loc 2) (hRa : t.get ra = h.get ra) (hKeeps : Keeps divRegs h t) :
    Inevitable (Steps (lineStep code))
      (Returned (RegOp.divu.value (t.get a0) (t.get a1)) h) t := by
  refine (udivsi3_returns hIn hPc).mono fun u hu => ⟨hRa ▸ hu.pc, ?_, hu.quotient⟩
  exact hKeeps.trans (hu.keeps.mono (by decide))

include hEven

/-- `call __udivdi3`, after `move t0, ra`. -/
theorem call_udiv {i : Nat} (hLine : (div loc)[i]? = some (call (loc 2))) (hPc : t.pc = loc i)
    (hT0 : t.get t0 = h.get ra) (hKeeps : Keeps divRegs h t) :
    Inevitable (Steps (lineStep code)) (fun u => u.pc = loc (i + 1) ∧ u.get t0 = h.get ra ∧
      Keeps divRegs h u ∧ u.get a0 = RegOp.divu.value (t.get a0) (t.get a1) ∧
      u.get a1 = RegOp.remu.value (t.get a0) (t.get a1)) t := by
  refine hIn.step i hLine hPc ?_
  generalize hs : Line.exec (loc (i + 1)) t _ = s
  have hRa : s.get ra = loc (i + 1) := by simp [← hs, Line.exec, get_set]
  have hA0 : s.get a0 = t.get a0 := by simp [← hs, Line.exec, get_set]
  have hA1 : s.get a1 = t.get a1 := by simp [← hs, Line.exec, get_set]
  have hT : s.get t0 = t.get t0 := by simp [← hs, Line.exec, get_set]
  have hKeep : Keeps divRegs h s := hs ▸ (hKeeps.set (by decide) _).goto _
  refine (udivsi3_returns hIn (by rw [← hs]; rfl)).mono fun u hu => ⟨?_, ?_, ?_, ?_, ?_⟩
  · rw [hu.pc, hRa, hEven]
  · rw [hu.keeps.get t0 (by decide), hT, hT0]
  · exact hKeep.trans (hu.keeps.mono (by decide))
  · rw [hu.quotient, hA0, hA1]
  · rw [hu.remainder, hA0, hA1]

omit hEven in
/-- `jr t0`. -/
theorem jr_t0 {i : Nat} (hLine : (div loc)[i]? = some (jr t0)) (hPc : t.pc = loc i)
    (hT0 : t.get t0 = h.get ra) (hKeeps : Keeps divRegs h t) {v : Word} (hValue : t.get a0 = v) :
    Inevitable (Steps (lineStep code)) (Returned v h) t := by
  refine hIn.step i hLine hPc (.here ?_)
  rw [exec_jr]
  exact ⟨congrArg (· &&& ~~~1#32) hT0, hKeeps.goto _, hValue⟩

/-- **`__umodsi3`** is `remu`. -/
theorem umodsi3_returns (hPc : h.pc = loc 20) : Inevitable (Steps (lineStep code))
    (Returned (RegOp.remu.value (h.get a0) (h.get a1)) h) h := by
  refine hIn.step 20 rfl hPc ?_
  generalize hs : Line.exec (loc 21) h _ = s
  have hA0 : s.get a0 = h.get a0 := by simp [← hs, Line.exec, get_set]
  have hA1 : s.get a1 = h.get a1 := by simp [← hs, Line.exec, get_set]
  have hT0 : s.get t0 = h.get ra := by simp [← hs, Line.exec, get_set, ImmOp.value]
  have hKeep : Keeps divRegs h s := hs ▸ (Keeps.refl.set (by decide) _).goto _
  refine (call_udiv hIn hEven rfl (by rw [← hs]; rfl) hT0 hKeep).trans ?_
  rintro u ⟨hPcU, hT0U, hKeepU, -, hRem⟩
  refine hIn.step 22 rfl hPcU (jr_t0 hIn rfl rfl ?_ ((hKeepU.set (by decide) _).goto _) ?_)
  · simpa [Line.exec, get_set] using hT0U
  · simp [get_set, ImmOp.value, hRem, hA0, hA1]

/-- From `.L12` on: the quotient is negated. -/
theorem div_negated (hPc : t.pc = loc 29) (hRa : t.get ra = h.get ra) (hKeeps : Keeps divRegs h t) :
    Inevitable (Steps (lineStep code))
      (Returned (-RegOp.divu.value (t.get a0) (t.get a1)) h) t := by
  refine hIn.step 29 rfl hPc ?_
  generalize hs : Line.exec (loc 30) t _ = s
  have hA0 : s.get a0 = t.get a0 := by simp [← hs, Line.exec, get_set]
  have hA1 : s.get a1 = t.get a1 := by simp [← hs, Line.exec, get_set]
  have hT0 : s.get t0 = h.get ra := by
    rw [← hRa]
    simp [← hs, Line.exec, get_set, ImmOp.value]
  have hKeep : Keeps divRegs h s := hs ▸ (hKeeps.set (by decide) _).goto _
  refine (call_udiv hIn hEven rfl (by rw [← hs]; rfl) hT0 hKeep).trans ?_
  rintro u ⟨hPcU, hT0U, hKeepU, hQuot, -⟩
  refine hIn.step 31 rfl hPcU (jr_t0 hIn rfl rfl ?_ ((hKeepU.set (by decide) _).goto _) ?_)
  · simpa [Line.exec, get_set] using hT0U
  · simp [get_set, RegOp.value, hQuot, hA0, hA1]

/-- **`__divsi3`** is `div`: division by zero gives minus one and the overflow
gives the dividend. -/
theorem divsi3_returns (hPc : h.pc = loc 0) : Inevitable (Steps (lineStep code))
    (Returned (RegOp.div.value (h.get a0) (h.get a1)) h) h := by
  refine hIn.step 0 rfl hPc ?_
  rw [exec_bltz]
  by_cases ha : (h.get a0).toInt < 0
  · rw [if_pos ha]
    -- `.L10`
    refine hIn.step 24 rfl rfl (hIn.step 25 rfl rfl ?_)
    rw [exec_neg, exec_bgtz]
    generalize hs : goto ((goto h (loc 24)).set a0 _) (loc (24 + 1)) = s
    have hA0 : s.get a0 = -h.get a0 := by simp [← hs, get_set]
    have hA1 : s.get a1 = h.get a1 := by simp [← hs, get_set]
    have hRa : s.get ra = h.get ra := by simp [← hs, get_set]
    have hKeep : Keeps divRegs h s := hs ▸ ((Keeps.refl.goto _).set (by decide) _).goto _
    rw [hA1]
    by_cases hb : 0 < (h.get a1).toInt
    · rw [if_pos hb, ← div_neg_pos ha hb, ← hA0, ← hA1]
      exact div_negated (t := goto s (loc 29)) hIn hEven rfl hRa (hKeep.goto _)
    · rw [if_neg hb, ← div_neg_nonpos ha (Int.not_lt.mp hb)]
      refine hIn.step 26 rfl rfl (hIn.step 27 rfl rfl ?_)
      rw [exec_neg, exec_j, get_goto, hA1, ← hA0]
      generalize hr : goto _ (loc 2) = r
      have hR0 : r.get a0 = s.get a0 := by simp [← hr, get_set]
      have hR1 : r.get a1 = -h.get a1 := by simp [← hr, get_set]
      rw [← hR0, ← hR1]
      refine tail_udiv hIn (by rw [← hr]; rfl) ?_
        (hr ▸ (((hKeep.goto _).set (by decide) _).goto _).goto _)
      simpa [← hr, get_set] using hRa
  · rw [if_neg ha]
    have ha' : 0 ≤ (h.get a0).toInt := Int.not_lt.mp ha
    refine hIn.step 1 rfl rfl ?_
    rw [exec_bltz, get_goto]
    by_cases hb : (h.get a1).toInt < 0
    · rw [if_pos hb, ← div_nonneg_neg ha' hb]
      -- `.L11`
      refine hIn.step 28 rfl rfl ?_
      rw [exec_neg]
      generalize hs : goto (Hart.set _ a1 _) (loc (28 + 1)) = s
      have hA0 : s.get a0 = h.get a0 := by simp [← hs, get_set]
      have hA1 : s.get a1 = -h.get a1 := by simp [← hs, get_set]
      rw [← hA0, ← hA1]
      refine div_negated hIn hEven (by rw [← hs]; rfl) ?_
        (hs ▸ ((((Keeps.refl.goto _).goto _).set (by decide) _).goto _))
      simp [← hs, get_set]
    · rw [if_neg hb, ← div_nonneg ha' (Int.not_lt.mp hb)]
      exact tail_udiv (h := h) (t := goto (goto h (loc 1)) (loc 2)) hIn rfl rfl
        ((Keeps.refl.goto _).goto _)

/-- `.L30`: the remainder is that of a dividend that is not negative. -/
theorem mod_nonneg (hPc : t.pc = loc 36) (hT0 : t.get t0 = h.get ra) (hKeeps : Keeps divRegs h t) :
    Inevitable (Steps (lineStep code))
      (Returned (RegOp.remu.value (t.get a0) (t.get a1)) h) t := by
  refine (call_udiv hIn hEven rfl hPc hT0 hKeeps).trans ?_
  rintro u ⟨hPcU, hT0U, hKeepU, -, hRem⟩
  refine hIn.step 37 rfl hPcU (jr_t0 hIn rfl rfl ?_ ((hKeepU.set (by decide) _).goto _) ?_)
  · simpa [Line.exec, get_set] using hT0U
  · simp [get_set, ImmOp.value, hRem]

/-- `.L32`: that of a negative one. -/
theorem mod_negative (hPc : t.pc = loc 41) (hT0 : t.get t0 = h.get ra)
    (hKeeps : Keeps divRegs h t) : Inevitable (Steps (lineStep code))
      (Returned (-RegOp.remu.value (-t.get a0) (t.get a1)) h) t := by
  refine hIn.step 41 rfl hPc ?_
  generalize hs : Line.exec (loc 42) t _ = s
  have hA0 : s.get a0 = -t.get a0 := by simp [← hs, get_set]
  have hA1 : s.get a1 = t.get a1 := by simp [← hs, get_set]
  have hT : s.get t0 = h.get ra := by
    rw [← hT0]
    simp [← hs, get_set]
  have hKeep : Keeps divRegs h s := hs ▸ (hKeeps.set (by decide) _).goto _
  refine (call_udiv hIn hEven rfl (by rw [← hs]; rfl) hT hKeep).trans ?_
  rintro u ⟨hPcU, hT0U, hKeepU, -, hRem⟩
  refine hIn.step 43 rfl hPcU (jr_t0 hIn rfl rfl ?_ ((hKeepU.set (by decide) _).goto _) ?_)
  · simpa [Line.exec, get_set] using hT0U
  · simp [get_set, RegOp.value, hRem, hA0, hA1]

/-- **`__modsi3`** is `rem`: the result has the sign of the dividend. -/
theorem modsi3_returns (hPc : h.pc = loc 33) : Inevitable (Steps (lineStep code))
    (Returned (RegOp.rem.value (h.get a0) (h.get a1)) h) h := by
  refine hIn.step 33 rfl hPc ?_
  generalize hs : Line.exec (loc 34) h _ = s
  have hA0 : s.get a0 = h.get a0 := by simp [← hs, Line.exec, get_set]
  have hA1 : s.get a1 = h.get a1 := by simp [← hs, Line.exec, get_set]
  have hT0 : s.get t0 = h.get ra := by simp [← hs, Line.exec, get_set, ImmOp.value]
  have hKeep : Keeps divRegs h s := hs ▸ (Keeps.refl.set (by decide) _).goto _
  refine hIn.step 34 rfl (by rw [← hs]; rfl) ?_
  rw [exec_bltz, hA1]
  by_cases hb : (h.get a1).toInt < 0
  · rw [if_pos hb]
    -- `.L31`
    refine hIn.step 39 rfl rfl (hIn.step 40 rfl rfl ?_)
    rw [exec_neg, exec_bgez]
    generalize hr : goto (Hart.set _ a1 _) (loc (39 + 1)) = r
    have hR0 : r.get a0 = h.get a0 := by simp [← hr, get_set, hA0]
    have hR1 : r.get a1 = absWord (h.get a1) := by simp [← hr, get_set, hA1, absWord, hb]
    have hRT : r.get t0 = h.get ra := by
      rw [← hT0]
      simp [← hr, get_set]
    have hKeepR : Keeps divRegs h r := hr ▸ ((hKeep.goto _).set (by decide) _).goto _
    rw [hR0]
    by_cases ha : 0 ≤ (h.get a0).toInt
    · rw [if_pos ha, ← rem_nonneg ha, ← hR0, ← hR1]
      exact mod_nonneg (t := goto r (loc 36)) hIn hEven rfl hRT (hKeepR.goto _)
    · rw [if_neg ha, ← rem_neg (Int.not_le.mp ha), ← hR0, ← hR1]
      exact mod_negative (t := goto r (loc 41)) hIn hEven rfl hRT (hKeepR.goto _)
  · rw [if_neg hb]
    have hAbs : absWord (h.get a1) = h.get a1 := if_neg hb
    refine hIn.step 35 rfl rfl ?_
    rw [exec_bltz, get_goto, hA0]
    by_cases ha : (h.get a0).toInt < 0
    · rw [if_pos ha, ← rem_neg ha, hAbs, ← hA0, ← hA1]
      exact mod_negative (t := goto (goto s (loc 35)) (loc 41)) hIn hEven rfl hT0
        ((hKeep.goto _).goto _)
    · rw [if_neg ha, ← rem_nonneg (Int.not_lt.mp ha), hAbs, ← hA0, ← hA1]
      exact mod_nonneg (t := goto (goto s (loc 35)) (loc 36)) hIn hEven rfl hT0
        ((hKeep.goto _).goto _)

end Routines

end Riscv32.Libgcc
