import Riscv32.Minirv.Compare

/-!
# Logic and equality on minirv

A logic operation looks its bytes up with the two operands as the index.  Two
words are compared by marking: each byte of one is marked in an array, each of
the other unmarked, and what is still marked differs.

The comparison is followed byte by byte by what it has counted so far
(`Comparing`); every place of the array is written before it is read, so nothing
has to be assumed about its contents.  Comparing with zero needs no array, but
restores `s0` behind its result (`seqz_s0`).

`logicLines_value`, `seq_value` and `seqz_value` are the results.
-/

namespace Riscv32.Minirv

open Isa Program Macro

/-! ## Logic -/

section Logic

variable {t : Symbols} {h : Hart} {rd rs1 rs2 : Reg} {lut : Word} {ls : List Line}

/-- The lines of a logic operation. -/
def logicLines (lut : Word) (rd rs1 rs2 : Reg) : List Line :=
  [sw rs1 varA, sw rs2 varB, la rd lut, sw zero varD] ++
    (logic8ByteInternal rd 3 ++ (logic8ByteInternal rd 2 ++ (logic8ByteInternal rd 1 ++
      (logic8ByteInternal rd 0 ++ [lw rd varC]))))

/-- What the assembler makes of a logic operation: nothing for `x0`, and no line that
uses a register of its own. -/
theorem logic_cases (hLogic : logic lut rd rs1 rs2 = some ls) :
    (rd = zero ∧ ls = []) ∨ (rd ≠ zero ∧ rd ≠ sp ∧ rd ≠ gp ∧ rd ≠ tp ∧ rs1 ≠ tp ∧
      ls = logicLines lut rd rs1 rs2) := by
  unfold logic at hLogic
  split at hLogic
  · next hZero => exact .inl ⟨hZero, (Option.some.inj hLogic).symm⟩
  · next hZero =>
      split at hLogic
      · cases hLogic
      · next hSp =>
          split at hLogic
          · cases hLogic
          · next hGp =>
              split at hLogic
              · cases hLogic
              · next hTp =>
                  exact .inr ⟨hZero, fun h => hSp (.inl h), fun h => hGp (.inl h),
                    fun h => hTp (.inl h), fun h => hTp (.inr h), (Option.some.inj hLogic).symm⟩

/-- The result, byte by byte from the table. -/
theorem logicLines_value (hReady : Ready t h) (hr : rd ≠ 0#5) (hSp : rd ≠ 2#5) (hTp : rd ≠ 4#5)
    {op : Byte → Byte → Byte} (hLut : ∀ g, Ready t g → LogicTable g lut op) {v : Word}
    (hOp : ∀ k < 4, byteOf v k = op (byteOf (h.get rs1) k) (byteOf (h.get rs2) k)) :
    (run (logicLines lut rd rs1 rs2) h).get rd = v := by
  have hAt := fun g hg x y => hLut g hg x y
  rw [← word_of_bytes v, hOp 3 (by decide), hOp 2 (by decide), hOp 1 (by decide),
    hOp 0 (by decide)]
  simp [logicLines, logic8ByteInternal, get_set, hr, hSp, hTp, var, hAt, hReady]

/-- What a logic operation uses besides its destination. -/
theorem logicLines_touches (hSp : rd ≠ 2#5) :
    Touches [rd, tp] (InVars [4, 5, 6, 7] h) h (run (logicLines lut rd rs1 rs2) h) :=
  run_touches (by simp [hSp.symm]) (by simp [logicLines, logic8ByteInternal])

end Logic

/-! ## Zero -/

theorem toNat_byte_ne_zero {b : Byte} (hb : b ≠ 0) : b.toNat ≠ 0 := fun hEq =>
  hb (BitVec.eq_of_toNat_eq hEq)

section Zero

variable {t : Symbols} {h : Hart} {rd rs1 : Reg} (hReady : Ready t h)
include hReady

/-- The table that tells zero from the other bytes. -/
theorem Ready.check8bit0 (b : Byte) :
    (h.mem (t.check8bit0Table + b.setWidth 32)).setWidth 32 = setIf (b ≠ 0) := by
  have hAt : Minirv.check8bit0[(b.setWidth 32 : Word).toNat]? =
      some (byteOf (setIf (b ≠ 0)) 0) := by
    have hLt := b.isLt
    rw [BitVec.toNat_setWidth, Nat.mod_eq_of_lt (by omega), Minirv.check8bit0]
    by_cases hb : b = 0
    · subst hb
      rfl
    · obtain ⟨n, hn⟩ := Nat.exists_eq_succ_of_ne_zero (toNat_byte_ne_zero hb)
      rw [hn, List.getElem?_cons_succ, List.getElem?_replicate, if_pos (by omega),
        decide_eq_true hb]
      rfl
  rw [hReady.small (by simp [rodata] : (t.check8bit0Table, Minirv.check8bit0) ∈ rodata t) hAt,
    setWidth_setIf]

/-- How many of four bytes differ decides whether the words do. -/
theorem Ready.sameResult (c0 c1 c2 c3 : Bool) :
    (h.mem (t.sameResultTable + (setIf c0 + setIf c1 + setIf c2 + setIf c3))).setWidth 32 =
      setIf (!(c0 || c1 || c2 || c3)) := by
  have hAt : Minirv.sameResult[(setIf c0 + setIf c1 + setIf c2 + setIf c3).toNat]? =
      some (byteOf (setIf (!(c0 || c1 || c2 || c3))) 0) := by
    cases c0 <;> cases c1 <;> cases c2 <;> cases c3 <;> decide
  rw [hReady.small (by simp [rodata] : (t.sameResultTable, Minirv.sameResult) ∈ rodata t) hAt,
    setWidth_setIf]

omit hReady in
/-- Words are equal byte by byte. -/
theorem word_eq_iff (w v : Word) : w = v ↔ byteOf w 0 = byteOf v 0 ∧ byteOf w 1 = byteOf v 1 ∧
    byteOf w 2 = byteOf v 2 ∧ byteOf w 3 = byteOf v 3 := by
  refine ⟨fun hw => by subst hw; exact ⟨rfl, rfl, rfl, rfl⟩, fun ⟨h0, h1, h2, h3⟩ => ?_⟩
  rw [← word_of_bytes w, h0, h1, h2, h3, word_of_bytes]

omit hReady in
theorem word_eq_zero_iff (w : Word) :
    w = 0 ↔ byteOf w 0 = 0 ∧ byteOf w 1 = 0 ∧ byteOf w 2 = 0 ∧ byteOf w 3 = 0 :=
  word_eq_iff w 0

/-- Zero is four bytes of zero. -/
theorem seqz_value (hr : rd ≠ 0#5) (hS0 : rd ≠ s0) :
    (run (seqz t rd rs1) h).get rd = setIf (h.get rs1 = 0) := by
  have hZero := fun g (hg : Ready t g) b => hg.check8bit0 b
  have hSame := fun g (hg : Ready t g) c0 c1 c2 c3 => hg.sameResult c0 c1 c2 c3
  have hAll : decide (h.get rs1 = 0) = !(decide (byteOf (h.get rs1) 0 ≠ 0) ||
      decide (byteOf (h.get rs1) 1 ≠ 0) || decide (byteOf (h.get rs1) 2 ≠ 0) ||
      decide (byteOf (h.get rs1) 3 ≠ 0)) := by
    simp only [word_eq_zero_iff, Bool.decide_and, decide_not, Bool.not_or, Bool.not_not,
      Bool.and_assoc]
  rw [hAll]
  simp only [seqz, Macro.check8bit0, run_append, run_cons, run_nil]
  simp [get_set, hr, hS0, hZero, hSame, hReady]

omit hReady in
/-- `s0` is restored after the result is written, so as a destination it is lost. -/
theorem seqz_s0 (hSp : rd ≠ 2#5) : (run (seqz t rd rs1) h).get s0 = h.get s0 := by
  simp [seqz, Macro.check8bit0, get_set, var, hSp]

omit hReady in
/-- `s0` is restored, so it is not among the registers. -/
theorem seqz_touches (hSp : rd ≠ 2#5) :
    Touches [rd, tp, gp] (InVars [1, 4] h) h (run (seqz t rd rs1) h) := by
  refine Touches.restored (r := s0) ?_ (.inr (seqz_s0 hSp))
  exact run_touches (by simp [hSp.symm]) (by simp [seqz, Macro.check8bit0])

end Zero

/-! ## Equality -/

/-- A byte of memory. -/
def poke (h : Hart) (a v : Word) : Hart := { h with mem := storeBytes h.mem a 1 v }

section Poke

variable {t : Symbols} {h : Hart} {a v : Word} {rs rs1 r : Reg}

@[simp] theorem act_sbAt : act (sbAt rs rs1) h = poke h (h.get rs1) (h.get rs) := by
  rw [poke, ← BitVec.add_zero (h.get rs1), show 0#32 = (0 : BitVec 12).signExtend 32 by decide]
  rfl

@[simp] theorem get_poke : (poke h a v).get r = h.get r := by simp only [Hart.get, poke]

theorem mem_poke (x : Word) : (poke h a v).mem x = if x = a then byteOf v 0 else h.mem x := by
  have hAt : (poke h a v).mem x = storeBytes h.mem a 1 v x := rfl
  rw [hAt, storeBytes_apply]
  by_cases hx : x = a
  · rw [hx, BitVec.sub_self, if_pos (by decide), if_pos rfl, byteOf, extractLsb'_byte]
    rfl
  · rw [if_neg hx, if_neg]
    intro hLt
    exact hx (by bv_omega)

/-- The array has a place for each byte. -/
theorem inArray_byte (b : Byte) : InArray t (t.checkSameArray + b.setWidth 32) := by
  have hOffset : t.checkSameArray + b.setWidth 32 - t.checkSameArray = b.setWidth 32 := by
    bv_omega
  rw [InArray, hOffset, BitVec.toNat_setWidth]
  have hb := b.isLt
  omega

@[simp] theorem pc_poke : (poke h a v).pc = h.pc := by simp only [poke]

/-- The array is none of the variables. -/
theorem cell_poke (hReady : Ready t h) (ha : InArray t a) {n k : Nat} (hLow : 1 ≤ n)
    (hHigh : n ≤ 7) (hk : k < 4) : cell (poke h a v) n k = cell h n k := by
  have hAddr : cellAddr (poke h a v) n k = cellAddr h n k := by rw [cellAddr, cellAddr, get_poke]
  rw [cell, hAddr, mem_poke, if_neg]
  · rfl
  · rintro rfl
    exact (hReady.scratch _ (inScratch_cell hLow hHigh hk)).2 ha

end Poke

section Equal

variable {t : Symbols} {h q : Hart} {a b : Word} {rd rs1 rs2 : Reg} {k : Nat}

theorem check8bitSame_touches (hk : k < 4) (hRd : rd = gp ∨ rd = s1)
    (hBase : q.get 8#5 = t.checkSameArray) :
    Touches [rd, tp] (InArray t) q (run (check8bitSame s0 rd k) q) := by
  refine ⟨by simp [check8bitSame, hk], fun r hr => ?_, fun x hx => ?_⟩
  · obtain ⟨hNe, hTp⟩ : r ≠ rd ∧ r ≠ 4#5 := by simpa using hr
    simp [check8bitSame, hk, get_set, hNe, hTp]
  · have hNe : ∀ b : Byte, x ≠ t.checkSameArray + b.setWidth 32 := fun b hEq =>
      hx (hEq ▸ inArray_byte b)
    rcases hRd with rfl | rfl <;>
      simp [check8bitSame, hk, get_set, mem_poke, hNe, hBase]

/-- While two words are compared. -/
structure Comparing (t : Symbols) (h q : Hart) (a b : Word) : Prop where
  ready : Ready t q
  base : q.get s0 = t.checkSameArray
  bytesA : ∀ k < 4, cell q 4 k = byteOf a k
  bytesB : ∀ k < 4, cell q 5 k = byteOf b k
  savedS0 : ∀ k < 4, cell q 1 k = byteOf (h.get Program.s0) k
  savedS1 : ∀ k < 4, cell q 2 k = byteOf (h.get Program.s1) k
  touches : Touches [s0, s1, tp, gp] (fun a => InScratch h a ∨ InArray t a) h q

/-- One byte: the others are compared on from where this one leaves off. -/
theorem Comparing.check8bitSame (hComp : Comparing t h q a b) (hk : k < 4)
    (hRd : rd = gp ∨ rd = s1) : Comparing t h (run (check8bitSame s0 rd k) q) a b := by
  have hTouch := check8bitSame_touches hk hRd hComp.base
  have hSp : sp ∉ [rd, tp] := by rcases hRd with rfl | rfl <;> decide
  have hCell : ∀ n, 1 ≤ n → n ≤ 7 → ∀ j < 4,
      cell (run (Macro.check8bitSame s0 rd k) q) n j = cell q n j := fun n hLow hHigh j hj => by
    have hAddr : cellAddr (run (Macro.check8bitSame s0 rd k) q) n j = cellAddr q n j := by
      rw [cellAddr, cellAddr, hTouch.get _ hSp]
    rw [cell, cell, hAddr]
    exact hTouch.mem _ (hComp.ready.scratch _ (inScratch_cell hLow hHigh hj)).2
  constructor
  case ready => exact hComp.ready.frame (hTouch.mono (List.Subset.refl _) fun _ => .inr) hSp
  case base => rw [hTouch.get _ (by rcases hRd with rfl | rfl <;> decide), hComp.base]
  case bytesA =>
    intro j hj
    rw [hCell 4 (by decide) (by decide) j hj, hComp.bytesA j hj]
  case bytesB =>
    intro j hj
    rw [hCell 5 (by decide) (by decide) j hj, hComp.bytesB j hj]
  case savedS0 =>
    intro j hj
    rw [hCell 1 (by decide) (by decide) j hj, hComp.savedS0 j hj]
  case savedS1 =>
    intro j hj
    rw [hCell 2 (by decide) (by decide) j hj, hComp.savedS1 j hj]
  case touches =>
    refine hComp.touches.trans (hTouch.mono ?_ fun _ => .inr)
    rcases hRd with rfl | rfl <;> simp

/-- One byte of the comparison. -/
theorem Comparing.differs (hComp : Comparing t h q a b) (hk : k < 4) (hRd : rd = gp ∨ rd = s1) :
    (run (Macro.check8bitSame s0 rd k) q).get rd = setIf (byteOf a k ≠ byteOf b k) := by
  have hBase : q.get 8#5 = t.checkSameArray := hComp.base
  have hSame : (t.checkSameArray + (byteOf a k).setWidth 32 =
      t.checkSameArray + (byteOf b k).setWidth 32) ↔ byteOf a k = byteOf b k := by
    refine ⟨fun hEq => ?_, fun hEq => by rw [hEq]⟩
    rw [← byteOf_setWidth (byteOf a k), ← byteOf_setWidth (byteOf b k),
      (BitVec.add_right_inj _).mp hEq]
  have hTable : (if byteOf a k = byteOf b k then 0#8 else byteOf 1#32 0).setWidth 32 =
      setIf (!decide (byteOf a k = byteOf b k)) := by
    generalize byteOf a k = x
    generalize byteOf b k = y
    by_cases hEq : x = y
    · rw [if_pos hEq, decide_eq_true hEq]
      rfl
    · rw [if_neg hEq, decide_eq_false hEq]
      decide
  rcases hRd with rfl | rfl <;>
    simp [Macro.check8bitSame, hk, get_set, mem_poke, hBase, hComp.bytesA, hComp.bytesB, hSame,
      cell_poke (t := t), hComp.ready, inArray_byte, hTable]

theorem Comparing.setGp (hComp : Comparing t h q a b) (v : Word) :
    Comparing t h (q.set gp v) a b where
  ready := (ready_set (by decide) v).mpr hComp.ready
  base := by
    rw [get_set, if_neg (by decide)]
    exact hComp.base
  bytesA k hk := (cell_set (by decide) ..).trans (hComp.bytesA k hk)
  bytesB k hk := (cell_set (by decide) ..).trans (hComp.bytesB k hk)
  savedS0 k hk := (cell_set (by decide) ..).trans (hComp.savedS0 k hk)
  savedS1 k hk := (cell_set (by decide) ..).trans (hComp.savedS1 k hk)
  touches := hComp.touches.trans (.set (by simp) v)

/-- One byte more is counted. -/
theorem Comparing.count (hComp : Comparing t h q a b) (hk : k < 4) :
    Comparing t h (run (Macro.check8bitSame s0 s1 k ++ [add gp gp s1]) q) a b ∧
      (run (Macro.check8bitSame s0 s1 k ++ [add gp gp s1]) q).get gp =
        q.get gp + setIf (byteOf a k ≠ byteOf b k) := by
  have hNext := hComp.check8bitSame hk (.inr rfl)
  have hDiff := hComp.differs hk (.inr rfl)
  have hGp := (check8bitSame_touches hk (.inr rfl) hComp.base).get gp (by decide)
  rw [run_append, run_cons, run_nil, act_add, hDiff, hGp]
  exact ⟨hNext.setGp _, get_set_self _ _ _ (by decide)⟩

/-- Both words are in variables, and the array is at hand. -/
theorem comparing_start (rs1 rs2 : Reg) (hReady : Ready t h) :
    Comparing t h (run [sw rs1 varA, sw rs2 varB, sw s0 1, sw s1 2, Macro.la s0 t.checkSameArray] h)
      (h.get rs1) (h.get rs2) where
  ready := by simp [hReady]
  base := by simp [get_set]
  bytesA k hk := by simp [hk]
  bytesB k hk := by simp [hk]
  savedS0 k hk := by simp [hk]
  savedS1 k hk := by simp [hk]
  touches := by
    have hAll : Touches [s0, s1, tp, gp] (InVars [1, 2, 4, 5] h) h
        (run [sw rs1 varA, sw rs2 varB, sw s0 1, sw s1 2, Macro.la s0 t.checkSameArray] h) :=
      run_touches (by decide) (by simp)
    exact hAll.mono (List.Subset.refl _) fun x hx => .inl hx.1

/-- The comparison byte by byte. -/
theorem seq_split : seq t rd rs1 rs2 =
    [sw rs1 varA, sw rs2 varB, sw s0 1, sw s1 2, Macro.la s0 t.checkSameArray] ++
      (Macro.check8bitSame s0 gp 0 ++ ((Macro.check8bitSame s0 s1 1 ++ [add gp gp s1]) ++
        ((Macro.check8bitSame s0 s1 2 ++ [add gp gp s1]) ++
          ((Macro.check8bitSame s0 s1 3 ++ [add gp gp s1]) ++
            [Macro.la tp t.sameResultTable, add tp tp gp, lbuAt rd tp, lw s1 2, lw s0 1])))) := by
  simp [seq]

/-- What the comparison has counted. -/
theorem seq_counts (rd rs1 rs2 : Reg) (hReady : Ready t h) :
    ∃ q, Comparing t h q (h.get rs1) (h.get rs2) ∧
    q.get gp = setIf (byteOf (h.get rs1) 0 ≠ byteOf (h.get rs2) 0) +
      setIf (byteOf (h.get rs1) 1 ≠ byteOf (h.get rs2) 1) +
      setIf (byteOf (h.get rs1) 2 ≠ byteOf (h.get rs2) 2) +
      setIf (byteOf (h.get rs1) 3 ≠ byteOf (h.get rs2) 3) ∧
    run (seq t rd rs1 rs2) h =
      run [Macro.la tp t.sameResultTable, add tp tp gp, lbuAt rd tp, lw s1 2, lw s0 1] q := by
  have hStart := comparing_start rs1 rs2 hReady
  have hFirst := hStart.check8bitSame (k := 0) (by decide) (.inl rfl)
  have hGp := hStart.differs (k := 0) (by decide) (.inl rfl)
  have h1 := hFirst.count (k := 1) (by decide)
  have h2 := h1.1.count (k := 2) (by decide)
  have h3 := h2.1.count (k := 3) (by decide)
  refine ⟨_, h3.1, ?_, ?_⟩
  · rw [h3.2, h2.2, h1.2, hGp]
  · rw [seq_split]
    simp only [run_append]

/-- The result of the comparison; `rd` is `tp` wherever it is used. -/
theorem seq_value (hReady : Ready t h) :
    (run (seq t tp rs1 rs2) h).get tp = setIf (h.get rs1 = h.get rs2) := by
  obtain ⟨q, hComp, hGp, hRun⟩ := seq_counts tp rs1 rs2 hReady
  have hSame := fun g (hg : Ready t g) c0 c1 c2 c3 => hg.sameResult c0 c1 c2 c3
  have hGp' : q.get 3#5 = _ := hGp
  have hAll : decide (h.get rs1 = h.get rs2) =
      !(decide (byteOf (h.get rs1) 0 ≠ byteOf (h.get rs2) 0) ||
        decide (byteOf (h.get rs1) 1 ≠ byteOf (h.get rs2) 1) ||
        decide (byteOf (h.get rs1) 2 ≠ byteOf (h.get rs2) 2) ||
        decide (byteOf (h.get rs1) 3 ≠ byteOf (h.get rs2) 3)) := by
    simp only [word_eq_iff, Bool.decide_and, decide_not, Bool.not_or, Bool.not_not,
      Bool.and_assoc]
  rw [hRun, hAll]
  simp [get_set, hGp', hSame, hComp.ready]

/-- What a comparison uses: also the array. -/
theorem seq_touches (hReady : Ready t h) : Touches [tp, gp]
    (fun x => InScratch h x ∨ InArray t x) h (run (seq t tp rs1 rs2) h) := by
  obtain ⟨q, hComp, -, hRun⟩ := seq_counts tp rs1 rs2 hReady
  have hTail : Touches [s0, s1, tp, gp] (fun x => InScratch h x ∨ InArray t x) q
      (run [Macro.la tp t.sameResultTable, add tp tp gp, lbuAt tp tp, lw s1 2, lw s0 1] q) := by
    have hAll : Touches [s0, s1, tp, gp] (InVars [] q) q
        (run [Macro.la tp t.sameResultTable, add tp tp gp, lbuAt tp tp, lw s1 2, lw s0 1] q) :=
      run_touches (by decide) (by simp)
    exact hAll.mono (List.Subset.refl _) fun x hx => (List.not_mem_nil hx.2).elim
  have hBoth := hComp.touches.trans hTail
  rw [hRun]
  refine (hBoth.restored (.inr ?_)).restored (.inr ?_)
  · simp [get_set, var, hComp.savedS0]
  · simp [get_set, var, hComp.savedS1]

end Equal

end Riscv32.Minirv
