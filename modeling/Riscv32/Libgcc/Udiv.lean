import Riscv32.Data.LongDivision
import Riscv32.Libgcc.Mul

/-!
# Unsigned division without a divider

`__udivdi3` of `div.S`, named `__udivsi3` with `xlen` 32, which leaves the
quotient in `a0` and the remainder in `a1`.  The divisor is shifted up until it
passes the dividend, and down again in a long division.

Each label has its invariant, named after where it holds (`UpInv`, `Top`,
`DownInv`, `Placed`), over the shifted divisor that all of them share (`Shifted`).
The way down is `Data.LongDivision`.  A division by zero leaves at once, with the
values of the specification already in place.

`udivsi3_returns` is the result, for all operands.
-/

namespace Riscv32.Libgcc

open Isa Program Data

/-- `div.S`.  The routines begin at `__divdi3` 0, `__udivdi3` 2, `__umoddi3` 20
and `__moddi3` 33; the labels are `.L1` 8, `.L2` 12, `.L3` 13, `.L4` 16, `.L5` 19,
`.L10` 24, `.L11` 28, `.L12` 29, `.L30` 36, `.L31` 39 and `.L32` 41. -/
def div (loc : Nat → Word) : List Line :=
  [bltz a0 (loc 24),
   bltz a1 (loc 28),
   mv a2 a1,
   mv a1 a0,
   li a0 (-1),
   beqz a2 (loc 19),
   li a3 1,
   .branch .bgeu a2 a1 (loc 12),
   blez a2 (loc 12),
   .shiftImm .slli a2 a2 1,
   .shiftImm .slli a3 a3 1,
   bgtu a1 a2 (loc 8),
   li a0 0,
   .branch .bltu a1 a2 (loc 16),
   .op .sub a1 a1 a2,
   .op .or a0 a0 a3,
   .shiftImm .srli a3 a3 1,
   .shiftImm .srli a2 a2 1,
   bnez a3 (loc 13),
   ret,
   mv t0 ra,
   call (loc 2),
   mv a0 a1,
   jr t0,
   neg a0 a0,
   bgtz a1 (loc 29),
   neg a1 a1,
   j (loc 2),
   neg a1 a1,
   mv t0 ra,
   call (loc 2),
   neg a0 a0,
   jr t0,
   mv t0 ra,
   bltz a1 (loc 39),
   bltz a0 (loc 41),
   call (loc 2),
   mv a0 a1,
   jr t0,
   neg a1 a1,
   bgez a0 (loc 36),
   neg a0 a0,
   call (loc 2),
   neg a0 a1,
   jr t0]

/-- The quotient and the remainder are those of the numbers. -/
theorem divu_of_toNat {a b q r : Word} (hb : b.toNat ≠ 0) (hQuot : q.toNat = a.toNat / b.toNat)
    (hRem : r.toNat = a.toNat % b.toNat) :
    q = RegOp.divu.value a b ∧ r = RegOp.remu.value a b := by
  rw [RegOp.value, RegOp.value, if_neg hb, if_neg hb, ← hQuot, ← hRem]
  simp

section Udiv

variable {code : Code} {loc : Nat → Word} (hIn : Installed code loc (div loc)) {h : Hart}

/-- `__udivsi3` has returned. -/
structure UdivDone (h h' : Hart) : Prop where
  pc : h'.pc = h.get ra &&& ~~~1#32
  keeps : Keeps mulRegs h h'
  quotient : h'.get a0 = RegOp.divu.value (h.get a0) (h.get a1)
  remainder : h'.get a1 = RegOp.remu.value (h.get a0) (h.get a1)

/-- The dividend is in `a1`; `a2` and `a3` are the divisor and one, both shifted
up by `k`. -/
structure Shifted (h h' : Hart) (k : Nat) : Prop where
  keeps : Keeps mulRegs h h'
  divisor : (h'.get a2).toNat = (h.get a1).toNat * 2 ^ k
  bit : (h'.get a3).toNat = 2 ^ k

theorem Shifted.goto {h h' : Hart} {k : Nat} (hShift : Shifted h h' k) (pc : Word) :
    Shifted h (goto h' pc) k :=
  ⟨hShift.keeps.goto _, hShift.divisor, hShift.bit⟩

/-- At `.L1`: the shifted divisor is below the dividend. -/
structure UpInv (loc : Nat → Word) (h h' : Hart) : Prop where
  pc : h'.pc = loc 8
  shifted : ∃ k, Shifted h h' k
  dividend : h'.get a1 = h.get a0
  below : (h'.get a2).toNat < (h.get a0).toNat

/-- At `.L2`: one more shift would pass the dividend. -/
structure Top (loc : Nat → Word) (h h' : Hart) : Prop where
  pc : h'.pc = loc 12
  shifted : ∃ k, Shifted h h' k
  dividend : h'.get a1 = h.get a0
  passes : (h.get a0).toNat < 2 * (h'.get a2).toNat

/-- At `.L3`: the long division is at place `k`. -/
structure DownInv (loc : Nat → Word) (h h' : Hart) (k : Nat) : Prop where
  pc : h'.pc = loc 13
  shifted : Shifted h h' k
  work : LongDivision (h.get a0).toNat (h.get a1).toNat (k + 1) (h'.get a0).toNat
    (h'.get a1).toNat

/-- At `.L4`: place `k` is done. -/
structure Placed (loc : Nat → Word) (h h' : Hart) (k : Nat) : Prop where
  pc : h'.pc = loc 16
  shifted : Shifted h h' k
  work : LongDivision (h.get a0).toNat (h.get a1).toNat k (h'.get a0).toNat (h'.get a1).toNat

include hIn

/-- The end of a division. -/
theorem udiv_ret {t : Hart} (hPc : t.pc = loc 19) (hKeeps : Keeps mulRegs h t)
    (hQuot : t.get a0 = RegOp.divu.value (h.get a0) (h.get a1))
    (hRem : t.get a1 = RegOp.remu.value (h.get a0) (h.get a1)) :
    Inevitable (Steps (lineStep code)) (UdivDone h) t := by
  refine hIn.step 19 rfl hPc (.here ?_)
  rw [exec_jr]
  exact ⟨congrArg (· &&& ~~~1#32) (hKeeps.get ra (by decide)), hKeeps.goto _, hQuot, hRem⟩

/-- One place of the division is compared. -/
theorem udiv_compare {t : Hart} {k : Nat} (hInv : DownInv loc h t k) :
    Inevitable (Steps (lineStep code)) (fun h' => Placed loc h h' k) t := by
  obtain ⟨hPc, ⟨hKeeps, hDivisor, hBit⟩, hWork⟩ := hInv
  refine hIn.step 13 rfl hPc ?_
  rw [exec_bltu]
  by_cases hLess : (t.get a1).toNat < (t.get a2).toNat
  · rw [if_pos hLess]
    exact .here ⟨rfl, ⟨hKeeps.goto _, hDivisor, hBit⟩, hWork.skip (hDivisor ▸ hLess)⟩
  · rw [if_neg hLess]
    refine hIn.step 14 rfl rfl (hIn.step 15 rfl rfl (.here ?_))
    have hFits : (h.get a1).toNat * 2 ^ k ≤ (t.get a1).toNat := hDivisor ▸ Nat.le_of_not_lt hLess
    have hTake := hWork.take hFits
    refine ⟨rfl, ⟨?_, ?_, ?_⟩, ?_⟩
    · exact ((((hKeeps.goto _).set (by decide) _).goto _).set (by decide) _).goto _
    · simpa [Line.exec, get_set] using hDivisor
    · simpa [Line.exec, get_set] using hBit
    · have hSub : (t.get a1 - t.get a2).toNat = (t.get a1).toNat - (t.get a2).toNat :=
        BitVec.toNat_sub_of_le (Nat.le_of_not_lt hLess)
      have hOr : (t.get a0 ||| t.get a3).toNat = (t.get a0).toNat + 2 ^ k := by
        rw [BitVec.toNat_or, hBit, hWork.or_bit]
      simpa [Line.exec, get_set, RegOp.value, hSub, hOr, hDivisor] using hTake

/-- The next place, or the end. -/
theorem udiv_lower {t : Hart} {k : Nat} (hInv : Placed loc h t k) :
    Inevitable (Steps (lineStep code))
      (fun h' => UdivDone h h' ∨ ∃ k' < k, DownInv loc h h' k') t := by
  obtain ⟨hPc, ⟨hKeeps, hDivisor, hBit⟩, hWork⟩ := hInv
  refine hIn.step 16 rfl hPc (hIn.step 17 rfl rfl ?_)
  generalize hu : Line.exec (loc 18) (Line.exec (loc 17) t _) _ = u
  have hA0 : u.get a0 = t.get a0 := by simp [← hu, Line.exec, get_set]
  have hA1 : u.get a1 = t.get a1 := by simp [← hu, Line.exec, get_set]
  have hA2 : (u.get a2).toNat = (t.get a2).toNat / 2 := by
    simp [← hu, Line.exec, get_set, ShiftOp.value, toNat_shiftRightLogical]
  have hA3 : (u.get a3).toNat = (t.get a3).toNat / 2 := by
    simp [← hu, Line.exec, get_set, ShiftOp.value, toNat_shiftRightLogical]
  have hKeep : Keeps mulRegs h u :=
    hu ▸ (((hKeeps.set (by decide) _).goto _).set (by decide) _).goto _
  refine hIn.step 18 rfl (by rw [← hu]; rfl) ?_
  rw [exec_bnez]
  cases k with
  | zero =>
      have hZero : u.get a3 = 0 := BitVec.eq_of_toNat_eq (by rw [hA3, hBit]; rfl)
      obtain ⟨hQuot, hRem⟩ := hWork.done
      have hPos : (h.get a1).toNat ≠ 0 := fun hNone => by simpa [hNone] using hWork.less
      obtain ⟨hDiv, hMod⟩ := divu_of_toNat hPos (hA0 ▸ hQuot) (hA1 ▸ hRem)
      rw [if_neg (not_not.mpr hZero)]
      have hRet : Inevitable (Steps (lineStep code)) (UdivDone h) (goto u (loc 19)) :=
        udiv_ret hIn rfl (hKeep.goto _) hDiv hMod
      exact hRet.mono fun _ => Or.inl
  | succ k =>
      have hHalf : (u.get a3).toNat = 2 ^ k := by rw [hA3, hBit, Nat.pow_succ]; omega
      have hNe : u.get a3 ≠ 0 := fun hZero => by
        have hPos := Nat.two_pow_pos k
        rw [hZero] at hHalf
        simp at hHalf
        omega
      rw [if_pos hNe]
      refine .here (.inr ⟨k, Nat.lt_succ_self k, rfl, ⟨hKeep.goto _, ?_, hHalf⟩, ?_⟩)
      · rw [get_goto, hA2, hDivisor, Nat.pow_succ, ← Nat.mul_assoc]
        omega
      · rw [get_goto, get_goto, hA0, hA1]
        exact hWork

/-- The long division, from any place. -/
theorem udiv_down {t : Hart} {k : Nat} (hInv : DownInv loc h t k) :
    Inevitable (Steps (lineStep code)) (UdivDone h) t := by
  induction k using Nat.strongRecOn generalizing t with
  | ind k ih =>
      refine (udiv_compare hIn hInv).trans fun s hs => (udiv_lower hIn hs).trans fun r hr => ?_
      rcases hr with hDone | ⟨k', hLess, hNext⟩
      · exact .here hDone
      · exact ih k' hLess hNext

theorem udiv_top {t : Hart} (hTop : Top loc h t) :
    Inevitable (Steps (lineStep code)) (UdivDone h) t := by
  obtain ⟨hPc, ⟨k, hKeeps, hDivisor, hBit⟩, hDividend, hPasses⟩ := hTop
  refine hIn.step 12 rfl hPc (udiv_down (k := k) hIn ⟨rfl, ⟨?_, ?_, ?_⟩, ?_⟩)
  · exact (hKeeps.set (by decide) _).goto _
  · simpa [Line.exec, get_set] using hDivisor
  · simpa [Line.exec, get_set] using hBit
  · have hStart : (h.get a0).toNat < (h.get a1).toNat * 2 ^ (k + 1) := by
      rw [hDivisor, Nat.mul_left_comm] at hPasses
      rwa [Nat.pow_succ, Nat.mul_comm (2 ^ k)]
    simpa [Line.exec, get_set, ImmOp.value, hDividend] using LongDivision.start hStart

/-- A round of the shifts up. -/
theorem udiv_up_round {t : Hart} (hb : (h.get a1).toNat ≠ 0) (hInv : UpInv loc h t) :
    Inevitable (Steps (lineStep code)) (fun h' => Top loc h h' ∨
      UpInv loc h h' ∧ (h.get a0).toNat - (h'.get a2).toNat <
        (h.get a0).toNat - (t.get a2).toNat) t := by
  obtain ⟨hPc, ⟨k, hKeeps, hDivisor, hBit⟩, hDividend, hBelow⟩ := hInv
  have hLt := (h.get a0).isLt
  refine hIn.step 8 rfl hPc ?_
  rw [exec_blez]
  have hNe : (t.get a2).toNat ≠ 0 :=
    hDivisor ▸ Nat.mul_ne_zero hb (Nat.pos_iff_ne_zero.mp (Nat.two_pow_pos k))
  -- the bit stays below the divisor it is shifted along with
  have hUnder : (t.get a3).toNat ≤ (t.get a2).toNat :=
    hBit ▸ hDivisor ▸ Nat.le_mul_of_pos_left _ (Nat.pos_of_ne_zero hb)
  by_cases hHigh : (t.get a2).toInt ≤ 0
  · rw [if_pos hHigh]
    have hTwice : 4294967296 ≤ 2 * (t.get a2).toNat := by
      rw [BitVec.toInt_eq_toNat_cond] at hHigh
      omega
    exact .here (.inl ⟨rfl, ⟨k, hKeeps.goto _, hDivisor, hBit⟩, hDividend,
      Nat.lt_of_lt_of_le hLt hTwice⟩)
  · rw [if_neg hHigh]
    have hLow : 2 * (t.get a2).toNat < 4294967296 := by
      rw [BitVec.toInt_eq_toNat_cond] at hHigh
      omega
    refine hIn.step 9 rfl rfl (hIn.step 10 rfl rfl ?_)
    generalize hu : Line.exec (loc 11) (Line.exec (loc 10) _ _) _ = u
    have hA1 : u.get a1 = h.get a0 := by simp [← hu, Line.exec, get_set, hDividend]
    have hA2 : (u.get a2).toNat = (t.get a2).toNat * 2 := by
      have hGet : u.get a2 = shiftLeft (t.get a2) 1 := by
        simp [← hu, Line.exec, get_set, ShiftOp.value]
      rw [hGet, toNat_shiftLeft]
      omega
    have hA3 : (u.get a3).toNat = (t.get a3).toNat * 2 := by
      have hGet : u.get a3 = shiftLeft (t.get a3) 1 := by
        simp [← hu, Line.exec, get_set, ShiftOp.value]
      rw [hGet, toNat_shiftLeft]
      omega
    have hShift : Shifted h u (k + 1) := by
      refine ⟨hu ▸ ((((hKeeps.goto _).set (by decide) _).goto _).set (by decide) _).goto _, ?_, ?_⟩
      · rw [hA2, hDivisor, Nat.pow_succ, Nat.mul_assoc]
      · rw [hA3, hBit, Nat.pow_succ]
    refine hIn.step 11 rfl (by rw [← hu]; rfl) ?_
    rw [exec_bltu, hA1]
    by_cases hMore : (u.get a2).toNat < (h.get a0).toNat
    · rw [if_pos hMore]
      refine .here (.inr ⟨⟨rfl, ⟨k + 1, hShift.goto _⟩, hA1, hMore⟩, ?_⟩)
      rw [get_goto]
      omega
    · rw [if_neg hMore]
      refine .here (.inl ⟨rfl, ⟨k + 1, hShift.goto _⟩, hA1, ?_⟩)
      rw [get_goto]
      omega

/-- **`__udivsi3`** returns the quotient and the remainder the specification of
`divu` and `remu` names, for all operands: a division by zero included. -/
theorem udivsi3_returns (hPc : h.pc = loc 2) :
    Inevitable (Steps (lineStep code)) (UdivDone h) h := by
  refine hIn.step 2 rfl hPc (hIn.step 3 rfl rfl (hIn.step 4 rfl rfl ?_))
  generalize hu : Line.exec (loc 5) (Line.exec (loc 4) _ _) _ = u
  have hA0 : u.get a0 = -1 := by simp [← hu, Line.exec, get_set, ImmOp.value]
  have hA1 : u.get a1 = h.get a0 := by simp [← hu, Line.exec, get_set, ImmOp.value]
  have hA2 : u.get a2 = h.get a1 := by simp [← hu, Line.exec, get_set, ImmOp.value]
  have hKeep : Keeps mulRegs h u :=
    hu ▸ (((((Keeps.refl.set (by decide) _).goto _).set (by decide) _).goto _).set
      (by decide) _).goto _
  refine hIn.step 5 rfl (by rw [← hu]; rfl) ?_
  rw [exec_beqz, hA2]
  by_cases hb : h.get a1 = 0
  · rw [if_pos hb]
    refine udiv_ret hIn rfl (hKeep.goto _) ?_ ?_
    · rw [get_goto, hA0, hb]
      rfl
    · rw [get_goto, hA1, hb]
      rfl
  · rw [if_neg hb]
    have hNe : (h.get a1).toNat ≠ 0 := fun hZero => hb (BitVec.eq_of_toNat_eq hZero)
    refine hIn.step 6 rfl rfl ?_
    generalize hv : Line.exec (loc 7) _ _ = v
    have hA1' : v.get a1 = h.get a0 := by simp [← hv, Line.exec, get_set, hA1]
    have hA2' : v.get a2 = h.get a1 := by simp [← hv, Line.exec, get_set, hA2]
    have hShift : Shifted h v 0 := by
      refine ⟨hv ▸ ((hKeep.goto _).set (by decide) _).goto _, ?_, ?_⟩
      · rw [hA2', Nat.pow_zero, Nat.mul_one]
      · simp [← hv, Line.exec, get_set, ImmOp.value]
    refine hIn.step 7 rfl (by rw [← hv]; rfl) ?_
    rw [exec_bgeu, hA1', hA2']
    by_cases hBig : (h.get a0).toNat ≤ (h.get a1).toNat
    · rw [if_pos hBig]
      refine udiv_top hIn ⟨rfl, ⟨0, hShift.goto _⟩, hA1', ?_⟩
      rw [get_goto, hA2']
      omega
    · rw [if_neg hBig]
      refine Inevitable.trans (P := Top loc h) ?_ fun t => udiv_top hIn
      refine .loop (fun t => (h.get a0).toNat - (t.get a2).toNat)
        (fun t => udiv_up_round hIn hNe) ⟨rfl, ⟨0, hShift.goto _⟩, hA1', ?_⟩
      rw [get_goto, hA2']
      exact Nat.lt_of_not_le hBig

end Udiv

end Riscv32.Libgcc
