import Riscv32.Data.Pieces
import Riscv32.Minirv.Compare

/-!
# Shifts on minirv

A shift looks each byte of the operand up in the row of its amount and puts the
four words together.  To the left they are added at their places; to the right
their bytes meet in places where all but one of them are zero, so that the
additions do not carry.

The amount is in a register or in the line (`Amount`), and logical and arithmetic
shifts differ in the table of the top byte only, so one lemma covers the four
macros to the right (`shiftRight_value`).  The arithmetic of pieces is
`Data.Pieces`.

`sll_spec`, `shiftRight_value` and `shiftRight_touches` are the results.
-/

namespace Riscv32.Minirv

open Data Isa Program Macro

/-! ## To the left by a constant -/

section Constant

variable {h : Hart} {rd rs1 : Reg} {n k : Nat}

@[simp] theorem spVarByte_succ : spVarByte n k + 1#12 = spVarByte n (k + 1) := by
  rw [spVarByte, spVarByte, show 1#12 = BitVec.ofInt 12 1 by decide, ← BitVec.ofInt_add]
  congr 1
  push_cast
  ring

/-- Two shifts to the left are one. -/
theorem shiftLeft_shiftLeft (a : Word) (m n : Nat) :
    shiftLeft (shiftLeft a m) n = shiftLeft a (m + n) := by
  apply BitVec.eq_of_toNat_eq
  simp only [shiftLeft, BitVec.toNat_ofNat, Nat.mod_mul_mod, Nat.pow_add, Nat.mul_assoc]

/-- Whole bytes are shifted by moving them. -/
theorem shiftLeft_byte (a : Word) :
    (byteOf a 0 ++ 0#8 ++ 0#8 ++ 0#8 : Word) = shiftLeft a 24 := by
  apply BitVec.eq_of_toNat_eq
  rw [toNat_bytes, toNat_byteOf, shiftLeft, BitVec.toNat_ofNat, BitVec.toNat_ofNat]
  omega

theorem shiftLeft_half (a : Word) :
    (byteOf a 1 ++ byteOf a 0 ++ 0#8 ++ 0#8 : Word) = shiftLeft a 16 := by
  apply BitVec.eq_of_toNat_eq
  rw [toNat_bytes, toNat_byteOf, toNat_byteOf, shiftLeft, BitVec.toNat_ofNat, BitVec.toNat_ofNat]
  omega

/-- `slli` goes by bytes first and doubles for the rest. -/
theorem slli_value (hr : rd ≠ 0#5) :
    (run (slli rd rs1 n) h).get rd = shiftLeft (h.get rs1) n := by
  unfold slli
  split
  · next hFar =>
      have hRun :
          (run ([sw zero varA, sb rs1 varA 3, lw rd varA] ++ slliShort rd rd (n - 24)) h).get rd =
            shiftLeft (byteOf (h.get rs1) 0 ++ 0#8 ++ 0#8 ++ 0#8 : Word) (n - 24) := by
        simp [run_slliShort, get_set, hr, var]
      rw [hRun, shiftLeft_byte, shiftLeft_shiftLeft, Nat.add_sub_cancel' hFar]
  · split
    · next hFar =>
        have hRun : (run (sw zero varA :: (sh rs1 sp (spVarByte varA 2) ++
            (lw rd varA :: slliShort rd rd (n - 16)))) h).get rd =
              shiftLeft (byteOf (h.get rs1) 1 ++ byteOf (h.get rs1) 0 ++ 0#8 ++ 0#8 : Word)
                (n - 16) := by
          simp [sh, run_getbyte, run_slliShort, get_set, hr, var]
        rw [hRun, shiftLeft_half, shiftLeft_shiftLeft, Nat.add_sub_cancel' hFar]
    · rw [run_slliShort, get_set_self _ _ _ hr]

theorem slli_touches (hSp : rd ≠ 2#5) :
    Touches [rd, tp, gp] (InVars [4, 6] h) h (run (slli rd rs1 n) h) := by
  have hShort : ∀ m rs l, l ∈ slliShort rd rs m → Works [rd, 4#5, 3#5] [4, 6] l := by
    intro m rs l hl
    unfold slliShort at hl
    split at hl
    · split at hl
      · obtain rfl := List.mem_singleton.mp hl
        simp
      · cases hl
    · rcases List.mem_cons.mp hl with rfl | hRest
      · simp
      · rw [List.eq_of_mem_replicate hRest]
        simp
  refine run_touches (by simp [hSp.symm]) ?_
  unfold slli
  split
  · simpa [or_imp, forall_and] using hShort (n - 24) rd
  · split
    · simpa [sh, getbyte, or_imp, forall_and] using hShort (n - 16) rd
    · simpa using hShort n rs1

end Constant

/-! ## Rows -/

section Rows

variable {t : Symbols} {h : Hart} {rs2 : Reg} {table : Word} {expr : Nat → Nat → Word} {j k : Nat}

/-- The row of an amount in a register. -/
theorem shiftRow_value (hReady : Ready t h) : (run (shiftRow t rs2 table) h).get s0 =
    table + BitVec.ofNat 32 (1024 * ((h.get rs2).toNat % 32)) := by
  have hRow := fun g (hg : Ready t g) b => hg.and8Table.row (r := 0x1f00#32) 0x1f#8 b rfl
  have hMask : byteOf 31#32 0 = 31#8 := by decide
  have hAmount : shiftLeft (0#16 ++ (31#8 &&& byteOf (h.get rs2) 0) ++ 0#8 : Word) 2 =
      BitVec.ofNat 32 (1024 * ((h.get rs2).toNat % 32)) := by
    have hLow : (31#8 &&& byteOf (h.get rs2) 0).toNat = (h.get rs2).toNat % 32 := by
      rw [BitVec.toNat_and, BitVec.toNat_ofNat, Nat.and_comm, toNat_byteOf,
        show 31 % 2 ^ 8 = 2 ^ 5 - 1 by decide, Nat.and_two_pow_sub_one_eq_mod]
      omega
    apply BitVec.eq_of_toNat_eq
    rw [shiftLeft, show (0#16 : BitVec 16) = 0#8 ++ 0#8 by decide, toNat_bytes, hLow]
    simp only [BitVec.toNat_ofNat]
    omega
  have hRun : (run (shiftRow t rs2 table) h).get s0 =
      shiftLeft (0#16 ++ (31#8 &&& byteOf (h.get rs2) 0) ++ 0#8 : Word) 2 + table := by
    simp [shiftRow, getshamt, run_slliShort, get_set, hRow, hReady, var, byteOf_and, hMask]
  rw [hRun, hAmount, BitVec.add_comm]

theorem shiftRow_touches : Touches [s0, tp] (InVars [5] h) h (run (shiftRow t rs2 table) h) :=
  run_touches (by decide) (by simp [shiftRow, getshamt, slliShort])

/-- The word of a byte of the operand. -/
theorem run_getShiftByte (hTable : ShiftTable h table expr) (hj : j < 32)
    (hBase : h.get 8#5 = table + BitVec.ofNat 32 (1024 * j)) (hk : k < 4) :
    run (getShiftByteInTp s0 k) h = h.set tp (expr j (cell h 4 k).toNat) := by
  have hAt := hTable j hj (cell h 4 k)
  have hIndex : shiftLeft ((cell h 4 k).setWidth 32) 2 =
      BitVec.ofNat 32 (4 * (cell h 4 k).toNat) := by
    have hLt := (cell h 4 k).isLt
    apply BitVec.eq_of_toNat_eq
    simp only [shiftLeft, BitVec.toNat_setWidth, BitVec.toNat_ofNat]
    omega
  simp [getShiftByteInTp, run_slliShort, get_set, set_set, hk, hBase, hIndex, hAt]

/-- What a shift has prepared when its row is found. -/
structure Prepared (t : Symbols) (h q : Hart) (a : Word) : Prop where
  ready : Ready t q
  bytes : ∀ k < 4, cell q 4 k = byteOf a k
  savedS0 : ∀ k < 4, cell q 1 k = byteOf (h.get s0) k

/-- The operand is saved and the row is found. -/
theorem prepared_reg (table : Word) (rs1 rs2 : Reg) (hReady : Ready t h) :
    Prepared t h (run ([sw s0 1, sw rs1 varA] ++ shiftRow t rs2 table) h) (h.get rs1) ∧
      (run ([sw s0 1, sw rs1 varA] ++ shiftRow t rs2 table) h).get s0 =
        table + BitVec.ofNat 32 (1024 * ((h.get rs2).toNat % 32)) := by
  have hStart : Ready t (run [sw s0 1, sw rs1 varA] h) := by simp [hReady]
  have hBytes : ∀ k < 4, cell (run [sw s0 1, sw rs1 varA] h) 4 k = byteOf (h.get rs1) k :=
    fun k hk => by simp [hk]
  have hSaved : ∀ k < 4, cell (run [sw s0 1, sw rs1 varA] h) 1 k = byteOf (h.get s0) k :=
    fun k hk => by simp [hk]
  have hAmount : (run [sw s0 1, sw rs1 varA] h).get rs2 = h.get rs2 := by simp
  rw [run_append]
  generalize run [sw s0 1, sw rs1 varA] h = p at hStart hBytes hSaved hAmount ⊢
  have hRow : Touches [s0, tp] (InVars [5] p) p (run (shiftRow t rs2 table) p) := shiftRow_touches
  refine ⟨⟨hStart.frame (hRow.mono (List.Subset.refl _) fun a ha => .inl ha.1) (by decide),
    fun k hk => ?_, fun k hk => ?_⟩, ?_⟩
  · rw [hRow.cell (by decide) (by decide) (by decide) hk (by decide), hBytes k hk]
  · rw [hRow.cell (by decide) (by decide) (by decide) hk (by decide), hSaved k hk]
  · rw [shiftRow_value hStart, hAmount]

end Rows

/-! ## To the left -/

section Left

variable {t : Symbols} {h : Hart} {rd rs1 rs2 : Reg}

/-- The four words at their places make up the shifted operand. -/
theorem sll_bytes (a : Word) (j : Nat) :
    (byteOf (sll8 j (byteOf a 3).toNat) 0 ++ 0#8 ++ 0#8 ++ 0#8 : Word) +
        (byteOf (sll8 j (byteOf a 2).toNat) 1 ++ byteOf (sll8 j (byteOf a 2).toNat) 0 ++ 0#8 ++
          0#8 : Word) +
      shiftLeft (sll8 j (byteOf a 1).toNat) 8 + sll8 j (byteOf a 0).toNat = shiftLeft a j := by
  have hWord : ∀ x : Byte, (sll8 j x.toNat).toNat = x.toNat * 2 ^ j % 4294967296 := fun x => by
    have hSmall : x.toNat % 2 ^ 32 = x.toNat := by
      have hx := x.isLt
      exact Nat.mod_eq_of_lt (by omega)
    rw [sll8, BitVec.toNat_shiftLeft, BitVec.toNat_ofNat, hSmall, Nat.shiftLeft_eq]
  have hSum : a.toNat * 2 ^ j = (byteOf a 3).toNat * 2 ^ j * 16777216 +
      (byteOf a 2).toNat * 2 ^ j * 65536 + (byteOf a 1).toNat * 2 ^ j * 256 +
      (byteOf a 0).toNat * 2 ^ j := by
    have hBytes := toNat_bytes (byteOf a 3) (byteOf a 2) (byteOf a 1) (byteOf a 0)
    rw [word_of_bytes] at hBytes
    rw [hBytes]
    ring
  have h3 := hWord (byteOf a 3)
  have h2 := hWord (byteOf a 2)
  have h1 := hWord (byteOf a 1)
  have h0 := hWord (byteOf a 0)
  generalize sll8 j (byteOf a 3).toNat = t3 at h3 ⊢
  generalize sll8 j (byteOf a 2).toNat = t2 at h2 ⊢
  generalize sll8 j (byteOf a 1).toNat = t1 at h1 ⊢
  generalize sll8 j (byteOf a 0).toNat = t0 at h0 ⊢
  generalize (byteOf a 3).toNat * 2 ^ j = p3 at h3 hSum
  generalize (byteOf a 2).toNat * 2 ^ j = p2 at h2 hSum
  generalize (byteOf a 1).toNat * 2 ^ j = p1 at h1 hSum
  generalize (byteOf a 0).toNat * 2 ^ j = p0 at h0 hSum
  apply BitVec.eq_of_toNat_eq
  simp only [shiftLeft, BitVec.toNat_add, toNat_bytes, toNat_byteOf, BitVec.toNat_ofNat, hSum]
  omega

/-- **`sll`.** -/
theorem sll_spec (hReady : Ready t h) (hSp : rd ≠ 2#5) :
    (rd ≠ 0#5 → (run (sll t rd rs1 rs2) h).get rd =
      shiftLeft (h.get rs1) ((h.get rs2).toNat % 32)) ∧
    Touches [rd, tp, gp] (InVars [1, 4, 5, 6] h) h (run (sll t rd rs1 rs2) h) := by
  have hAll : Touches [s0, rd, tp, gp] (InVars [1, 4, 5, 6] h) h (run (sll t rd rs1 rs2) h) :=
    run_touches (by simp [hSp.symm])
      (by simp [sll, shiftRow, getshamt, getShiftByteInTp, slliShort, sh, getbyte])
  obtain ⟨hPrep, hBase⟩ := prepared_reg t.sll8Table rs1 rs2 hReady
  rw [sll, ← List.append_assoc, run_append] at hAll ⊢
  generalize run ([sw s0 1, sw rs1 varA] ++ shiftRow t rs2 t.sll8Table) h = q at hPrep hBase hAll ⊢
  have hj := Nat.mod_lt (h.get rs2).toNat (by decide : 0 < 32)
  have hByte := fun g (hg : Ready t g) k => run_getShiftByte (k := k) hg.sll8Table hj
  have hBase' : q.get 8#5 = _ := hBase
  refine ⟨fun hr => ?_, hAll.restored ?_⟩
  · rw [← sll_bytes]
    simp [hByte, hPrep.ready, hBase', get_set, hr, hPrep.bytes, var, sh, run_getbyte,
      run_slliShort]
  · by_cases hS0 : rd = s0
    · exact .inl (by simp [hS0])
    · refine .inr ?_
      simp [hByte, hPrep.ready, hBase', get_set, Ne.symm hS0, hPrep.savedS0, var, sh, run_getbyte,
        run_slliShort]

end Left

/-! ## To the right -/

section Right

/-- The lower three bytes of a result, from the words of the lower three bytes. -/
def lowBytes (y2 y1 y0 : Word) : Word :=
  let first := (byteOf y2 1).setWidth 32 + (byteOf y1 2).setWidth 32 + (byteOf y0 3).setWidth 32
  let second := (byteOf y2 2).setWidth 32 + (byteOf y1 3).setWidth 32
  byteOf first 3 ++ byteOf y2 3 ++ byteOf second 0 ++ byteOf first 0

variable (a : Word) (j : Nat)

/-- An entry of the table: the byte came in on top. -/
theorem toNat_srl8 (x : Byte) : (srl8 j x.toNat).toNat = x.toNat * 2 ^ 24 / 2 ^ j := by
  have hx := x.isLt
  have hSmall : x.toNat % 2 ^ 32 * 2 ^ 24 % 2 ^ 32 = x.toNat * 2 ^ 24 := by omega
  rw [srl8, BitVec.toNat_ushiftRight, BitVec.toNat_shiftLeft, BitVec.toNat_ofNat,
    Nat.shiftLeft_eq, Nat.shiftRight_eq_div_pow, hSmall]

/-- A byte of three bytes shifted to the right gathers a byte from each of them. -/
theorem gather (x2 x1 x0 i : Nat) (h1 : x1 < 256) (h0 : x0 < 256) :
    (x2 * 65536 + x1 * 256 + x0) / 2 ^ j / 2 ^ i % 2 ^ 8 =
      x2 * 2 ^ 24 / 2 ^ j / 2 ^ (i + 8) % 2 ^ 8 + x1 * 2 ^ 24 / 2 ^ j / 2 ^ (i + 16) % 2 ^ 8 +
        x0 * 2 ^ 24 / 2 ^ j / 2 ^ (i + 24) % 2 ^ 8 := by
  have hBack : ∀ x e f : Nat, 24 = e + f →
      x * 2 ^ 24 / 2 ^ j / 2 ^ (i + f) = x * 2 ^ e / 2 ^ (j + i) := fun x e f hSum => by
    rw [hSum, Nat.add_comm i f, Nat.pow_add 2 f i, ← Nat.div_div_eq_div_mul, shift_back,
      Nat.div_div_eq_div_mul, ← Nat.pow_add]
  rw [hBack x2 16 8 rfl, hBack x1 8 16 rfl, hBack x0 0 24 rfl, Nat.pow_zero, Nat.mul_one,
    Nat.div_div_eq_div_mul, ← Nat.pow_add,
    show x2 * 65536 + x1 * 256 + x0 = (x2 * 256 + x1) * 2 ^ 8 + x0 by ring,
    extract_pieces h0, show (x2 * 256 + x1) * 2 ^ 8 = x2 * 2 ^ 16 + x1 * 2 ^ 8 by ring,
    extract_pieces (by omega)]

/-- The lower three bytes shifted to the right. -/
theorem toNat_lowBytes : (lowBytes (srl8 j (byteOf a 2).toNat) (srl8 j (byteOf a 1).toNat)
    (srl8 j (byteOf a 0).toNat)).toNat =
      ((byteOf a 2).toNat * 65536 + (byteOf a 1).toNat * 256 + (byteOf a 0).toNat) / 2 ^ j := by
  have h2 := (byteOf a 2).isLt
  have h1 := (byteOf a 1).isLt
  have h0 := (byteOf a 0).isLt
  have hy2 := toNat_srl8 j (byteOf a 2)
  have hy1 := toNat_srl8 j (byteOf a 1)
  have hy0 := toNat_srl8 j (byteOf a 0)
  generalize srl8 j (byteOf a 2).toNat = y2 at hy2 ⊢
  generalize srl8 j (byteOf a 1).toNat = y1 at hy1 ⊢
  generalize srl8 j (byteOf a 0).toNat = y0 at hy0 ⊢
  generalize (byteOf a 2).toNat = x2 at h2 hy2 ⊢
  generalize (byteOf a 1).toNat = x1 at h1 hy1 ⊢
  generalize (byteOf a 0).toNat = x0 at h0 hy0 ⊢
  have hByte0 := gather j x2 x1 x0 0 h1 h0
  have hByte1 := gather j x2 x1 x0 8 h1 h0
  have hByte2 := gather j x2 x1 x0 16 h1 h0
  have hSmall : (x2 * 65536 + x1 * 256 + x0) / 2 ^ j < 16777216 :=
    (Nat.div_le_self ..).trans_lt (by omega)
  rw [← hy2, ← hy1, ← hy0] at hByte0 hByte1 hByte2
  have hy1Lt := y1.isLt
  have hy0Lt := y0.isLt
  generalize (x2 * 65536 + x1 * 256 + x0) / 2 ^ j = r at hByte0 hByte1 hByte2 hSmall ⊢
  have hFirst : ((byteOf y2 1).setWidth 32 + (byteOf y1 2).setWidth 32 +
      (byteOf y0 3).setWidth 32 : Word).toNat = r % 256 := by
    simp only [toNat_byteOf, BitVec.toNat_add, BitVec.toNat_setWidth]
    omega
  have hSecond : ((byteOf y2 2).setWidth 32 + (byteOf y1 3).setWidth 32 : Word).toNat =
      r / 256 % 256 := by
    simp only [toNat_byteOf, BitVec.toNat_add, BitVec.toNat_setWidth]
    omega
  have hThird : (byteOf y2 3).toNat = r / 65536 := by
    rw [toNat_byteOf]
    omega
  rw [lowBytes, toNat_bytes, hThird]
  simp only [toNat_byteOf, hFirst, hSecond]
  omega

/-- The words of the four bytes make up the operand shifted to the right. -/
theorem srl_bytes : lowBytes (srl8 j (byteOf a 2).toNat) (srl8 j (byteOf a 1).toNat)
    (srl8 j (byteOf a 0).toNat) + srl8 j (byteOf a 3).toNat = shiftRightLogical a j := by
  have hWord := toNat_bytes (byteOf a 3) (byteOf a 2) (byteOf a 1) (byteOf a 0)
  rw [word_of_bytes] at hWord
  have h2 := (byteOf a 2).isLt
  have h1 := (byteOf a 1).isLt
  have h0 := (byteOf a 0).isLt
  have ha := a.isLt
  apply BitVec.eq_of_toNat_eq
  rw [BitVec.toNat_add, toNat_lowBytes, toNat_srl8, shiftRightLogical, BitVec.toNat_ofNat, hWord]
  generalize (byteOf a 3).toNat = x3
  generalize (byteOf a 2).toNat = x2 at h2 ⊢
  generalize (byteOf a 1).toNat = x1 at h1 ⊢
  generalize (byteOf a 0).toNat = x0 at h0 ⊢
  have hSplit := div_pieces (x := x3) (y := x2 * 65536 + x1 * 256 + x0) (n := 24) (by omega) j
  rw [Nat.add_comm (_ / _), ← hSplit, ← Nat.add_assoc, ← Nat.add_assoc]
  rfl

/-- A negative word comes in from the left. -/
theorem shiftRightArith_split (hj : j ≤ 32) : shiftRightArith a j =
    shiftRightLogical a j - if a.toInt < 0 then BitVec.ofNat 32 (2 ^ (32 - j)) else 0 := by
  have hCond := BitVec.toInt_eq_toNat_cond a
  have ha := a.isLt
  rw [shiftRightArith, shiftRightLogical]
  by_cases hNeg : a.toInt < 0
  · have hInt : a.toInt = a.toNat - 2 ^ (32 - j) * 2 ^ j := by
      have hPow : (2 : Int) ^ (32 - j) * 2 ^ j = 4294967296 := by
        rw [← pow_add, Nat.sub_add_cancel hj]
        rfl
      rw [hPow]
      split at hCond <;> omega
    have hNe : (2 : Int) ^ j ≠ 0 := pow_ne_zero j (by decide)
    rw [if_pos hNeg, hInt, sub_eq_add_neg, ← neg_mul, Int.add_mul_ediv_right _ _ hNe,
      BitVec.ofInt_add, BitVec.ofInt_neg, ← BitVec.sub_eq_add_neg]
    congr 1
  · have hInt : a.toInt = a.toNat := by
      split at hCond <;> omega
    rw [if_neg hNeg, hInt, show (0 : Word) = 0#32 from rfl, BitVec.sub_zero]
    exact_mod_cast BitVec.ofInt_natCast 32 (a.toNat / 2 ^ j)

/-- The top byte comes from the table that brings its sign in. -/
theorem sra_bytes (hj : j ≤ 32) : lowBytes (srl8 j (byteOf a 2).toNat)
    (srl8 j (byteOf a 1).toNat) (srl8 j (byteOf a 0).toNat) + sra8 j (byteOf a 3).toNat =
      shiftRightArith a j := by
  have hTop : (BitVec.ofNat 32 (byteOf a 3).toNat <<< 24).toInt < 0 ↔ a.toInt < 0 := by
    have hx := (byteOf a 3).isLt
    have hShift : (BitVec.ofNat 32 (byteOf a 3).toNat <<< 24).toNat =
        (byteOf a 3).toNat * 16777216 := by
      rw [BitVec.toNat_shiftLeft, BitVec.toNat_ofNat, Nat.shiftLeft_eq]
      omega
    rw [BitVec.toInt_eq_toNat_cond, BitVec.toInt_eq_toNat_cond, hShift, toNat_byteOf]
    have ha := a.isLt
    split <;> split <;> omega
  have hLogical : shiftRightLogical (BitVec.ofNat 32 (byteOf a 3).toNat <<< 24) j =
      srl8 j (byteOf a 3).toNat := by rw [srl8, shiftRightLogical_eq]
  rw [sra8, shiftRightArith_eq, shiftRightArith_split _ _ hj, shiftRightArith_split a _ hj,
    hLogical, ← srl_bytes a j]
  simp only [hTop]
  rw [BitVec.sub_eq_add_neg, BitVec.sub_eq_add_neg, BitVec.add_assoc]

end Right

section Templates

variable {t : Symbols} {h : Hart} {rd rs1 : Reg} {amount : Amount}

/-- How far a shift to the right goes. -/
def Macro.Amount.value (h : Hart) : Amount → Nat
  | .reg rs2 => (h.get rs2).toNat % 32
  | .imm shamt => shamt

/-- The same for a shift to the right. -/
theorem prepared_amount (rs1 : Reg) (amount : Amount) (hReady : Ready t h) :
    Prepared t h (run ([sw s0 1, sw rs1 varA] ++ amountRow t amount) h) (h.get rs1) ∧
      (run ([sw s0 1, sw rs1 varA] ++ amountRow t amount) h).get s0 =
        t.srl8Table + BitVec.ofNat 32 (1024 * amount.value h) := by
  cases amount with
  | reg rs2 => exact prepared_reg _ rs1 rs2 hReady
  | imm shamt =>
      refine ⟨⟨by simp [amountRow, hReady], fun k hk => by simp [amountRow, hk],
        fun k hk => by simp [amountRow, hk]⟩, ?_⟩
      have hRow : BitVec.ofNat 32 shamt <<< 10 = BitVec.ofNat 32 (1024 * shamt) := by
        rw [shiftLeft_eq, shiftLeft]
        apply BitVec.eq_of_toNat_eq
        simp only [BitVec.toNat_ofNat]
        omega
      simp [amountRow, get_set, hRow, Macro.Amount.value]

/-- The part of a shift to the right below the top byte. -/
def lowRows : List Line :=
  getShiftByteInTp s0 2 ++ (sw tp varB :: (getShiftByteInTp s0 1 ++ (sw tp varC ::
    (getShiftByteInTp s0 0 ++ (sw tp varD :: combineLow)))))

/-- The macro in stages, but for the short way. -/
theorem shiftRightTemplate_split (hFull : amount ≠ .imm 24) {isArith : Bool} :
    shiftRightTemplate t rd rs1 amount isArith =
      ([sw s0 1, sw rs1 varA] ++ amountRow t amount) ++ (lowRows ++
        ((if isArith then [Macro.la tp (t.sra8Table - t.srl8Table), add s0 s0 tp] else []) ++
          (getShiftByteInTp s0 3 ++ [lw s0 1, add rd gp tp]))) := by
  rw [shiftRightTemplate, if_neg hFull]
  simp [lowRows]

section Low

variable {q : Hart} {a : Word} {j : Nat}

/-- The lower three bytes. -/
theorem lowRows_spec (hPrep : Prepared t h q a) (hj : j < 32)
    (hBase : q.get s0 = t.srl8Table + BitVec.ofNat 32 (1024 * j)) :
    Prepared t h (run lowRows q) a ∧
      (run lowRows q).get s0 = t.srl8Table + BitVec.ofNat 32 (1024 * j) ∧
      (run lowRows q).get gp = lowBytes (srl8 j (byteOf a 2).toNat) (srl8 j (byteOf a 1).toNat)
        (srl8 j (byteOf a 0).toNat) := by
  have hTouch : Touches [gp, tp] (InVars [5, 6, 7] q) q (run lowRows q) :=
    run_touches (by decide) (by simp [lowRows, getShiftByteInTp, slliShort, combineLow])
  refine ⟨⟨?_, fun k hk => ?_, fun k hk => ?_⟩, ?_, ?_⟩
  · exact hPrep.ready.frame (hTouch.mono (List.Subset.refl _) fun x hx => .inl hx.1) (by decide)
  · rw [hTouch.cell (by decide) (by decide) (by decide) hk (by decide), hPrep.bytes k hk]
  · rw [hTouch.cell (by decide) (by decide) (by decide) hk (by decide), hPrep.savedS0 k hk]
  · rw [hTouch.get _ (by decide), hBase]
  · have hByte := fun g (hg : Ready t g) k => run_getShiftByte (k := k) hg.srl8Table hj
    have hBase' : q.get 8#5 = _ := hBase
    simp [lowRows, hByte, hPrep.ready, hBase', get_set, hPrep.bytes, var, combineLow, lowBytes]

end Low

/-- A shift to the right by way of the rows. -/
theorem shiftRight_rows (hReady : Ready t h) (hFull : amount ≠ .imm 24)
    (hj : amount.value h < 32) (isArith : Bool) :
    (rd ≠ 0#5 → (run (shiftRightTemplate t rd rs1 amount isArith) h).get rd =
      if isArith then shiftRightArith (h.get rs1) (amount.value h)
      else shiftRightLogical (h.get rs1) (amount.value h)) ∧
    (rd ≠ s0 → (run (shiftRightTemplate t rd rs1 amount isArith) h).get s0 = h.get s0) := by
  obtain ⟨hPrep, hBase⟩ := prepared_amount rs1 amount hReady
  rw [shiftRightTemplate_split hFull, run_append, run_append]
  generalize run ([sw s0 1, sw rs1 varA] ++ amountRow t amount) h = p at hPrep hBase ⊢
  obtain ⟨hLow, hRow, hGp⟩ := lowRows_spec hPrep hj hBase
  generalize run lowRows p = q at hLow hRow hGp ⊢
  have hRow' : q.get 8#5 = _ := hRow
  have hGp' : q.get 3#5 = _ := hGp
  cases isArith with
  | false =>
      have hByte := fun g (hg : Ready t g) k => run_getShiftByte (k := k) hg.srl8Table hj
      rw [← srl_bytes]
      refine ⟨fun hr => ?_, fun hS0 => ?_⟩
      · simp [hByte, hLow.ready, hRow', hGp', get_set, hr, hLow.bytes]
      · simp [hByte, hLow.ready, hRow', get_set, Ne.symm hS0, hLow.savedS0, var]
  | true =>
      have hByte := fun g (hg : Ready t g) k => run_getShiftByte (k := k) hg.sra8Table hj
      have hMove : ∀ r : Word, t.srl8Table + r + (t.sra8Table - t.srl8Table) =
          t.sra8Table + r := by
        intro r
        bv_omega
      rw [← sra_bytes _ _ hj.le]
      refine ⟨fun hr => ?_, fun hS0 => ?_⟩
      · simp [hByte, hLow.ready, hRow', hGp', get_set, hr, hLow.bytes, hMove]
      · simp [hByte, hLow.ready, hRow', get_set, Ne.symm hS0, hLow.savedS0, var, hMove]

/-- The short way of a shift by three bytes. -/
theorem shiftRight_byte (hReady : Ready t h) (hr : rd ≠ 0#5) (hTp : rd ≠ 4#5) (isArith : Bool) :
    (run (shiftRightTemplate t rd rs1 (.imm 24) isArith) h).get rd =
      if isArith then shiftRightArith (h.get rs1) 24 else shiftRightLogical (h.get rs1) 24 := by
  rw [shiftRightTemplate, if_pos rfl]
  cases isArith with
  | false =>
      have hByte : ((byteOf (h.get rs1) 3).setWidth 32 : Word) =
          shiftRightLogical (h.get rs1) 24 := by
        have ha := (h.get rs1).isLt
        apply BitVec.eq_of_toNat_eq
        rw [BitVec.toNat_setWidth, toNat_byteOf, toNat_shiftRightLogical]
        omega
      simp [run_getbyte, hr, hByte, get_set]
  | true =>
      have hLow : lowBytes (srl8 24 (byteOf (h.get rs1) 2).toNat)
          (srl8 24 (byteOf (h.get rs1) 1).toNat) (srl8 24 (byteOf (h.get rs1) 0).toNat) = 0 := by
        have h2 := (byteOf (h.get rs1) 2).isLt
        have h1 := (byteOf (h.get rs1) 1).isLt
        have h0 := (byteOf (h.get rs1) 0).isLt
        apply BitVec.eq_of_toNat_eq
        rw [toNat_lowBytes, Nat.div_eq_of_lt (by omega)]
        rfl
      have hSum := sra_bytes (h.get rs1) 24 (by decide)
      rw [hLow, show (0 : Word) = 0#32 from rfl, BitVec.zero_add] at hSum
      have hIndex : ∀ b : Byte, shiftLeft (b.setWidth 32) 2 = BitVec.ofNat 32 (4 * b.toNat) :=
        fun b => by
          have hb := b.isLt
          apply BitVec.eq_of_toNat_eq
          simp only [shiftLeft, BitVec.toNat_setWidth, BitVec.toNat_ofNat]
          omega
      have hAt := fun g (hg : Ready t g) x => hg.sra8Table 24 (by decide) x
      simp [run_slliShort, get_set, hr, Ne.symm hTp, hIndex, hAt, hReady, hSum]

/-- **The shifts to the right.** -/
theorem shiftRight_value (hReady : Ready t h) (hr : rd ≠ 0#5) (hTp : rd ≠ 4#5)
    (hj : amount.value h < 32) (isArith : Bool) :
    (run (shiftRightTemplate t rd rs1 amount isArith) h).get rd =
      if isArith then shiftRightArith (h.get rs1) (amount.value h)
      else shiftRightLogical (h.get rs1) (amount.value h) := by
  by_cases hFull : amount = .imm 24
  · subst hFull
    exact shiftRight_byte hReady hr hTp isArith
  · exact (shiftRight_rows hReady hFull hj isArith).1 hr

/-- What they use besides their destination. -/
theorem shiftRight_touches (hReady : Ready t h) (hSp : rd ≠ 2#5) (hj : amount.value h < 32)
    (isArith : Bool) : Touches [rd, tp, gp] (InVars [1, 4, 5, 6, 7] h) h
      (run (shiftRightTemplate t rd rs1 amount isArith) h) := by
  by_cases hFull : amount = .imm 24
  · rw [shiftRightTemplate, if_pos hFull]
    refine run_touches (by simp [hSp.symm]) ?_
    cases isArith <;> simp [slliShort, getbyte]
  · have hAll : Touches [s0, rd, tp, gp] (InVars [1, 4, 5, 6, 7] h) h
        (run (shiftRightTemplate t rd rs1 amount isArith) h) := by
      rw [shiftRightTemplate, if_neg hFull]
      refine run_touches (by simp [hSp.symm]) ?_
      cases isArith <;> cases amount <;>
        simp [slliShort, getShiftByteInTp, combineLow, amountRow, shiftRow, getshamt]
    refine hAll.restored ?_
    by_cases hS0 : rd = s0
    · exact .inl (by simp [hS0])
    · exact .inr ((shiftRight_rows hReady hFull hj isArith).2 hS0)

end Templates

end Riscv32.Minirv
