import Riscv32.Minirv.Access

/-!
# Every line on minirv

What the assembler makes of a line does what the line does, up to `tp`, `gp`,
the variables and the working array.

There are two kinds of condition.  The tables have to stand in memory, out of the
way of what the macros write (`Ready`).  And a line has to suit its macro: `Sound`
lists, line by line, which registers the macro has no room for, which addresses
must be even for an indirect jump, and that a byte is not read out of the macros'
own variables.  It is what the lemmas of the macros ask for; where the assembler
checks a condition and rejects the line, it is not listed.

`expand_line` is the result, for every line that is accepted.
-/

namespace Riscv32.Minirv

open Isa Program Macro

/-! ## Results -/

section Results

variable {t : Symbols} {h h' : Hart} {rd rs1 rs2 : Reg} {v : Word} {area : Word → Prop}
  {vars : List Nat} {ls : List Line}

/-- The result of a macro, by its value and by what it touches. -/
theorem Touches.result (hTouch : Touches [rd, tp, gp] area h h')
    (hValue : rd ≠ 0#5 → rd ≠ 4#5 → rd ≠ 3#5 → h'.get rd = v) :
    Touches [tp, gp] area (h.set rd v) h' where
  pc := hTouch.pc.trans (pc_set ..).symm
  get r hr := by
    obtain ⟨hTp, hGp⟩ : r ≠ 4#5 ∧ r ≠ 3#5 := by simpa using hr
    rw [get_set]
    split
    · next hEq =>
        obtain ⟨rfl, hZero⟩ := hEq
        exact hValue hZero hTp hGp
    · next hNe =>
        by_cases hSame : r = rd
        · subst hSame
          obtain rfl : r = 0#5 := by
            by_contra hZero
            exact hNe ⟨rfl, hZero⟩
          rw [get_zero, get_zero]
        · exact hTouch.get r (by simp [hSame, hTp, hGp])
  mem a ha := (hTouch.mem a ha).trans (congrFun (mem_set ..).symm a)

/-- The result of a macro that writes a few variables only. -/
theorem Touches.done (hTouch : Touches [rd, tp, gp] (InVars vars h) h h')
    (hValue : rd ≠ 0#5 → rd ≠ 4#5 → rd ≠ 3#5 → h'.get rd = v) :
    Touches [tp, gp] (Volatile t h) (h.set rd v) h' :=
  (hTouch.volatile (List.Subset.refl _)).result hValue

/-- An operation on an immediate puts it into `tp` first. -/
theorem imm_line {f : Word → Word → Word} {imm : BitVec 12} (hReady : Ready t h)
    (hTp : rd = 0#5 ∨ rs1 ≠ 4#5)
    (hOp : ∀ g, Ready t g → Touches [tp, gp] (Volatile t g) (g.set rd (f (g.get rs1) (g.get tp)))
      (run ls g)) :
    Touches [tp, gp] (Volatile t h) (h.set rd (f (h.get rs1) (imm.signExtend 32)))
      (run (li tp imm :: ls) h) := by
  have hLi : act (li tp imm) h = h.set tp (imm.signExtend 32) := by simp [li]
  have hNext := hOp (h.set tp (imm.signExtend 32)) (by simpa using hReady)
  rw [run_cons, hLi]
  have hWide : ∀ a, Volatile t (h.set tp (imm.signExtend 32)) a → Volatile t h a := fun a ha => by
    simpa [Volatile] using ha
  refine Touches.trans ?_ (hNext.mono (List.Subset.refl _) hWide)
  refine ⟨by simp only [pc_set], fun r hr => ?_, fun a _ => by simp only [mem_set]⟩
  obtain ⟨hNe, -⟩ : r ≠ 4#5 ∧ r ≠ 3#5 := by simpa using hr
  rcases hTp with rfl | hTp
  · simp [get_set, hNe]
  · simp [get_set, hNe, hTp]

/-- A logic operation on registers, with its table. -/
theorem logic_line {lut : Word} {op : Byte → Byte → Byte} {f : Word → Word → Word}
    (hReady : Ready t h) (hLogic : logic lut rd rs1 rs2 = some ls)
    (hLut : ∀ g, Ready t g → LogicTable g lut op)
    (hOp : ∀ a b, ∀ k < 4, byteOf (f a b) k = op (byteOf a k) (byteOf b k)) :
    Touches [tp, gp] (Volatile t h) (h.set rd (f (h.get rs1) (h.get rs2))) (run ls h) := by
  obtain ⟨rfl, rfl⟩ | ⟨hr, hSp, hGp, hTp, -, rfl⟩ := logic_cases hLogic
  · exact .refl
  · refine Touches.done ((logicLines_touches hSp).mono (by simp) fun _ => id) fun _ _ _ => ?_
    exact logicLines_value hReady hr hSp hTp hLut (hOp _ _)

end Results

/-! ## Requirements -/

/-- What the macro of a line asks for besides what the assembler rejects. -/
def Sound (h : Hart) (next : Word) : Line → Prop
  | .load .lb rd rs1 imm => rd ≠ sp ∧ ¬ InScratch h (h.get rs1 + imm.signExtend 32)
  | .load .lh rd rs1 imm | .load .lhu rd rs1 imm => rd ≠ sp ∧ rs1 ≠ tp ∧ rs1 ≠ gp ∧
      ¬ InScratch h (h.get rs1 + imm.signExtend 32) ∧
      ¬ InScratch h (h.get rs1 + imm.signExtend 32 + 1#32)
  | .store .sh rs1 _ _ => rs1 ≠ tp
  | .opImm .slti rd rs1 _ | .opImm .sltiu rd rs1 _ => rd ≠ sp ∧ rs1 ≠ tp
  | .shiftImm _ rd _ _ => rd ≠ sp
  | .op .sub rd rs1 _ => rd ≠ sp ∧ rs1 ≠ gp ∧ rs1 ≠ tp
  | .op .slt rd _ _ | .op .sltu rd _ _ | .op .sll rd _ _ | .op .srl rd _ _ | .op .sra rd _ _ =>
      rd ≠ sp
  | .not rd _ | .sltz rd _ => rd ≠ sp
  -- `s0` gets its old value back.
  | .seqz rd _ => rd ≠ sp ∧ rd ≠ s0
  | .branch _ _ rs2 target => rs2 ≠ gp ∧ Even target ∧ Even next
  | .jal _ target => Even target
  | _ => True

section Lines

variable {t : Symbols} {h : Hart} {next : Word} {ls : List Line} {rd rs rs1 rs2 : Reg}
  (hReady : Ready t h)
include hReady

theorem slt_line (hSp : rd ≠ sp) : Touches [tp, gp] (Volatile t h)
    (h.set rd (setIf ((h.get rs1).toInt < (h.get rs2).toInt))) (run (slt t rd rs1 rs2) h) :=
  (sltTemplate_touches hReady hSp).done fun hr _ _ => slt_value hReady hr

theorem sltu_line (hSp : rd ≠ sp) : Touches [tp, gp] (Volatile t h)
    (h.set rd (setIf ((h.get rs1).toNat < (h.get rs2).toNat))) (run (sltu t rd rs1 rs2) h) :=
  (sltTemplate_touches hReady hSp).done fun hr _ _ => sltu_value hReady hr

/-- The four shifts to the right, by register or by amount. -/
theorem shiftRight_line (hSp : rd ≠ sp) (amount : Amount) (hAmount : amount.value h < 32)
    (isArith : Bool) : Touches [tp, gp] (Volatile t h)
      (h.set rd (if isArith then shiftRightArith (h.get rs1) (amount.value h)
        else shiftRightLogical (h.get rs1) (amount.value h)))
      (run (shiftRightTemplate t rd rs1 amount isArith) h) :=
  (shiftRight_touches hReady hSp hAmount isArith).done fun hr hTp _ =>
    shiftRight_value hReady hr hTp hAmount isArith

/-- An operation on two registers. -/
theorem op_line {f : RegOp} (hSound : Sound h next (.op f rd rs1 rs2))
    (hExp : expand t next (.op f rd rs1 rs2) = some ls) :
    Touches [tp, gp] (Volatile t h) (h.set rd (f.value (h.get rs1) (h.get rs2))) (run ls h) := by
  have hLow : ∀ r, (Amount.reg r).value h < 32 := fun r => by
    rw [Macro.Amount.value]
    exact Nat.mod_lt _ (by decide)
  cases f with
  | add =>
      obtain rfl := Option.some.inj hExp
      rw [run_cons, run_nil, act_add]
      exact .refl
  | sub =>
      obtain rfl := Option.some.inj hExp
      obtain ⟨hSp, hGp, hTp⟩ := hSound
      exact (sub_touches hSp).done fun hr _ _ => sub_value hReady hr hGp hTp
  | sll =>
      obtain rfl := Option.some.inj hExp
      obtain ⟨hValue, hTouch⟩ := sll_spec hReady hSound
      exact hTouch.done fun hr _ _ => hValue hr
  | slt =>
      obtain rfl := Option.some.inj hExp
      exact slt_line hReady hSound
  | sltu =>
      obtain rfl := Option.some.inj hExp
      exact sltu_line hReady hSound
  | srl =>
      obtain rfl := Option.some.inj hExp
      exact shiftRight_line hReady hSound (.reg rs2) (hLow rs2) false
  | sra =>
      obtain rfl := Option.some.inj hExp
      exact shiftRight_line hReady hSound (.reg rs2) (hLow rs2) true
  | and => exact logic_line hReady hExp (fun g hg => hg.and8Table) fun a b k _ => byteOf_and a b k
  | or => exact logic_line hReady hExp (fun g hg => hg.or8Table) fun a b k _ => byteOf_or a b k
  | xor => exact logic_line hReady hExp (fun g hg => hg.xor8Table) fun a b k _ => byteOf_xor a b k
  | _ => cases hExp

/-- A logic operation on an immediate. -/
theorem logicImm_line {lut : Word} {op : Byte → Byte → Byte} {f : Word → Word → Word}
    {imm : BitVec 12} (hLogic : (logic lut rd rs1 tp).map (li tp imm :: ·) = some ls)
    (hLut : ∀ g, Ready t g → LogicTable g lut op)
    (hOp : ∀ a b, ∀ k < 4, byteOf (f a b) k = op (byteOf a k) (byteOf b k)) :
    Touches [tp, gp] (Volatile t h) (h.set rd (f (h.get rs1) (imm.signExtend 32)))
      (run ls h) := by
  obtain ⟨ls', hMap, rfl⟩ := Option.map_eq_some_iff.mp hLogic
  refine imm_line hReady ?_ fun g hg => logic_line hg hMap hLut hOp
  obtain ⟨hZero, -⟩ | ⟨-, -, -, -, hTp, -⟩ := logic_cases hMap
  · exact .inl hZero
  · exact .inr hTp

/-- An operation on a register and an immediate. -/
theorem opImm_line {f : ImmOp} {imm : BitVec 12} (hSound : Sound h next (.opImm f rd rs1 imm))
    (hExp : expand t next (.opImm f rd rs1 imm) = some ls) :
    Touches [tp, gp] (Volatile t h) (h.set rd (f.value (h.get rs1) (imm.signExtend 32)))
      (run ls h) := by
  cases f with
  | addi =>
      obtain rfl := Option.some.inj hExp
      rw [run_cons, run_nil, act_addi]
      exact .refl
  | slti =>
      obtain rfl := Option.some.inj hExp
      obtain ⟨hSp, hTp⟩ := hSound
      exact imm_line (f := fun a b => setIf (a.toInt < b.toInt)) hReady (.inr hTp)
        fun g hg => slt_line hg hSp
  | sltiu =>
      obtain rfl := Option.some.inj hExp
      obtain ⟨hSp, hTp⟩ := hSound
      exact imm_line (f := fun a b => setIf (a.toNat < b.toNat)) hReady (.inr hTp)
        fun g hg => sltu_line hg hSp
  | andi =>
      exact logicImm_line hReady hExp (fun g hg => hg.and8Table) fun a b k _ => byteOf_and a b k
  | ori =>
      exact logicImm_line hReady hExp (fun g hg => hg.or8Table) fun a b k _ => byteOf_or a b k
  | xori =>
      exact logicImm_line hReady hExp (fun g hg => hg.xor8Table) fun a b k _ => byteOf_xor a b k

/-- A shift by an amount in the line. -/
theorem shiftImm_line {f : ShiftOp} {shamt : BitVec 5}
    (hSound : Sound h next (.shiftImm f rd rs1 shamt))
    (hExp : expand t next (.shiftImm f rd rs1 shamt) = some ls) :
    Touches [tp, gp] (Volatile t h) (h.set rd (f.value (h.get rs1) shamt.toNat)) (run ls h) := by
  cases f with
  | slli =>
      obtain rfl := Option.some.inj hExp
      exact (slli_touches hSound).done fun hr _ _ => slli_value hr
  | srli =>
      obtain rfl := Option.some.inj hExp
      exact shiftRight_line hReady hSound (.imm shamt.toNat) shamt.isLt false
  | srai =>
      obtain rfl := Option.some.inj hExp
      exact shiftRight_line hReady hSound (.imm shamt.toNat) shamt.isLt true

theorem not_line (hSp : rd ≠ sp) : Touches [tp, gp] (Volatile t h) (h.set rd (~~~h.get rs))
    (run (Macro.not t rd rs) h) :=
  (not_touches hSp).done fun hr _ _ => not_value hReady hr

/-- `seqz` into another register than `s0`. -/
theorem seqz_line (hSp : rd ≠ sp) (hS0 : rd ≠ s0) :
    Touches [tp, gp] (Volatile t h) (h.set rd (setIf (h.get rs = 0))) (run (seqz t rd rs) h) :=
  (seqz_touches hSp).done fun hr _ _ => seqz_value hReady hr hS0

omit hReady in
theorem sltz_line (hSp : rd ≠ sp) : Touches [tp, gp] (Volatile t h)
    (h.set rd (setIf ((h.get rs).toInt < 0))) (run (msb rd rs) h) := by
  have hSp' : ¬ 2#5 = rd := fun hEq => hSp hEq.symm
  have hTouch : Touches [rd] (InVars [6] h) h (run (msb rd rs) h) :=
    run_touches (by simp [hSp']) (by simp [msb, getbyte, slliShort])
  refine Touches.done (hTouch.mono (by simp) fun _ => id) fun hr _ _ => ?_
  rw [run_msb hr hSp, get_set_self _ _ _ hr, signBit]

/-! ## Memory -/

/-- A load; the base loads are lines of their own. -/
theorem load_line {f : LoadOp} {imm : BitVec 12} (hSound : Sound h next (.load f rd rs1 imm))
    (hExp : expand t next (.load f rd rs1 imm) = some ls) : Touches [tp, gp] (Volatile t h)
      (h.set rd (f.value h.mem (h.get rs1 + imm.signExtend 32))) (run ls h) := by
  cases f with
  | lw =>
      obtain rfl := Option.some.inj hExp
      rw [run_cons, run_nil, act_lw_at]
      exact .refl
  | lbu =>
      obtain rfl := Option.some.inj hExp
      rw [run_cons, run_nil, act_lbu_at, ← lbu_byte]
      exact .refl
  | lb =>
      obtain rfl := Option.some.inj hExp
      have hSpec := lb_spec hReady hSound.1 hSound.2
      exact hSpec.2.done fun hr hTp _ => hSpec.1 hr hTp
  | lh =>
      obtain ⟨hSp, hTp, hGp, hApart, hApart'⟩ := hSound
      rw [expand, Option.ite_none_left_eq_some] at hExp
      obtain rfl := Option.some.inj hExp.2
      have hSpec := lh_spec hReady hSp hTp hGp hExp.1 hApart hApart'
      exact hSpec.2.done fun hr _ hGpd => hSpec.1 hr hGpd
  | lhu =>
      obtain ⟨hSp, hTp, -, hApart, hApart'⟩ := hSound
      rw [expand, Option.ite_none_left_eq_some] at hExp
      obtain rfl := Option.some.inj hExp.2
      have hSpec := lhu_spec hSp hTp hExp.1 hApart hApart'
      exact hSpec.2.done fun hr hTpd _ => hSpec.1 hr hTpd

omit hReady in
/-- A store; only `sh` is a macro. -/
theorem store_line {f : StoreOp} {imm : BitVec 12} (hSound : Sound h next (.store f rs1 rs2 imm))
    (hExp : expand t next (.store f rs1 rs2 imm) = some ls) : Touches [tp, gp] (Volatile t h)
      { h with mem := storeBytes h.mem (h.get rs1 + imm.signExtend 32) f.bytes (h.get rs2) }
      (run ls h) := by
  cases f with
  | sw =>
      obtain rfl := Option.some.inj hExp
      exact .refl
  | sb =>
      obtain rfl := Option.some.inj hExp
      exact .refl
  | sh =>
      rw [expand, Option.ite_none_left_eq_some] at hExp
      obtain rfl := Option.some.inj hExp.2
      exact (sh_touches hSound hExp.1).mono (List.Subset.refl _) fun _ => .inl

/-! ## Jumps -/

omit hReady in
/-- A branch whose condition has been found. -/
theorem Finds.branch {c taken : Bool} {target : Word} (hFinds : Finds t c ls h) (high : Bool)
    (hTaken : taken = (c == high)) (hTarget : Even target) (hNext : Even next) :
    Touches [tp, gp] (Volatile t h) (goto h (if taken then target else next))
      (run (ls ++ branchResolve target high next) h) := by
  have hPick := hFinds.resolve high hTarget hNext
  simpa only [hTaken, beq_iff_eq] using hPick

/-- A branch, with the condition its macro looks for. -/
theorem branch_line {f : BranchOp} {target : Word}
    (hSound : Sound h next (.branch f rs1 rs2 target))
    (hExp : expand t next (.branch f rs1 rs2 target) = some ls) : Touches [tp, gp] (Volatile t h)
      (goto h (if f.taken (h.get rs1) (h.get rs2) then target else next)) (run ls h) := by
  obtain ⟨hGp, hTarget, hNext⟩ := hSound
  cases f with
  | beq =>
      obtain rfl := Option.some.inj hExp
      exact (finds_same hReady).branch true (by simp [BranchOp.taken]) hTarget hNext
  | bne =>
      obtain rfl := Option.some.inj hExp
      exact (finds_same hReady).branch false (by simp [BranchOp.taken]) hTarget hNext
  | bltu =>
      obtain rfl := Option.some.inj hExp
      exact (finds_sltu hReady).branch true (by simp [BranchOp.taken]) hTarget hNext
  | bgeu =>
      obtain rfl := Option.some.inj hExp
      exact (finds_sltu hReady).branch false (by rw [Bool.eq_iff_iff]; simp [BranchOp.taken])
        hTarget hNext
  | blt =>
      obtain rfl := Option.some.inj hExp
      by_cases hTo : rs2 = zero
      · subst hTo
        rw [blt, if_pos rfl]
        exact finds_msb.branch true (by simp [BranchOp.taken]) hTarget hNext
      · by_cases hFrom : rs1 = zero
        · subst hFrom
          rw [blt, if_neg hTo, if_pos rfl]
          exact (finds_notPositive hReady hGp).branch false
            (by rw [Bool.eq_iff_iff]; simp [BranchOp.taken]) hTarget hNext
        · rw [blt, if_neg hTo, if_neg hFrom]
          exact (finds_slt hReady).branch true (by simp [BranchOp.taken]) hTarget hNext
  | bge =>
      obtain rfl := Option.some.inj hExp
      by_cases hFrom : rs1 = zero
      · subst hFrom
        rw [bge, if_pos rfl]
        exact (finds_notPositive hReady hGp).branch true (by simp [BranchOp.taken]) hTarget hNext
      · rw [bge, if_neg hFrom]
        exact (finds_slt hReady).branch false (by rw [Bool.eq_iff_iff]; simp [BranchOp.taken])
          hTarget hNext

omit hReady in
/-- A jump with its link, through `tp`. -/
theorem jal_line {target : Word} (hTarget : Even target) : Touches [tp, gp] (Volatile t h)
    (goto (h.set rd h.pc) target) (run (jal rd target) h) := by
  have hEven : target &&& ~~~1#32 = target := hTarget
  unfold jal
  split
  · next hZero =>
      subst hZero
      rw [run_cons, run_cons, run_nil, act_la, act_jr, get_set_self _ _ _ (by decide), hEven]
      exact (Touches.set (by simp) target).goto target
  · next hZero =>
      have hJump : run [Macro.la rd target, .jalr rd rd 0] h = goto (h.set rd h.pc) target := by
        have hBase : (h.set rd target).get rd + (0 : BitVec 12).signExtend 32 = target := by
          rw [get_set_self _ _ _ hZero, show (0 : BitVec 12).signExtend 32 = 0#32 by decide,
            BitVec.add_zero]
        rw [run_cons, run_cons, run_nil, act_la, act, Line.exec, pc_set, hBase, set_set, hEven]
      rw [hJump]
      exact .refl

end Lines

/-! ## Lines in general -/

section General

variable {t : Symbols} {h : Hart} {next : Word} {l : Line} {ls : List Line}

/-- Where a line stands does not matter to its effect. -/
theorem exec_goto (pc : Word) : l.exec next (goto h pc) = l.exec next h := by
  cases l <;> simp only [Line.exec, set_goto, goto_goto, get_goto, mem_goto] <;> rfl

theorem sound_goto (pc : Word) (hSound : Sound h next l) : Sound (goto h pc) next l := by
  cases l with
  | load f | store f | opImm f | op f => cases f <;> exact hSound
  | _ => exact hSound

theorem run_single : run [l] (goto h next) = l.exec next h := by
  rw [run_cons, run_nil, act, pc_goto, exec_goto]

/-- **The macro of a line does what the line does**, a jump to the address after
it included. -/
theorem expand_line (hReady : Ready t h) (hSound : Sound h next l)
    (hExp : expand t next l = some ls) :
    Touches [tp, gp] (Volatile t h) (l.exec next h) (run ls (goto h next)) := by
  have hThere : Ready t (goto h next) := ⟨hReady.tables, hReady.scratch, hReady.array⟩
  replace hSound := sound_goto next hSound
  cases l with
  | load f rd rs1 imm =>
      rw [Line.exec, ← set_goto]
      exact load_line hThere hSound hExp
  | store f rs1 rs2 imm => exact store_line (h := goto h next) hSound hExp
  | opImm f rd rs1 imm =>
      rw [Line.exec, ← set_goto]
      exact opImm_line hThere hSound hExp
  | shiftImm f rd rs1 shamt =>
      rw [Line.exec, ← set_goto]
      exact shiftImm_line hThere hSound hExp
  | op f rd rs1 rs2 =>
      rw [Line.exec, ← set_goto]
      exact op_line hThere hSound hExp
  | not rd rs =>
      obtain rfl := Option.some.inj hExp
      rw [Line.exec, ← set_goto]
      exact not_line hThere hSound
  | seqz rd rs =>
      obtain rfl := Option.some.inj hExp
      rw [Line.exec, ← set_goto]
      exact seqz_line hThere hSound.1 hSound.2
  | sltz rd rs =>
      obtain rfl := Option.some.inj hExp
      rw [Line.exec, ← set_goto]
      exact sltz_line (h := goto h next) hSound
  | branch f rs1 rs2 target => exact branch_line hThere hSound hExp
  | jal rd target =>
      obtain rfl := Option.some.inj hExp
      rw [Line.exec]
      have hJump : Touches [tp, gp] (Volatile t h) _ (run (jal rd target) (goto h next)) :=
        jal_line (h := goto h next) hSound
      rwa [set_goto, goto_goto, pc_goto] at hJump
  | lui | la | jalr =>
      obtain rfl := Option.some.inj hExp
      rw [run_single]
      exact .refl

end General

end Riscv32.Minirv
