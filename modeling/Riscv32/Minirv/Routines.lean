import Riscv32.Libgcc.Native
import Riscv32.Minirv.Assemble

/-!
# Arithmetic on minirv

A minirv program links the routines of libgcc for multiplication and division.
They work on registers alone, so what they do natively they do on minirv.

`OnRegisters` is the property of a line that makes this work: it has nothing to do
with memory, the stack pointer, `tp` and `gp`, and so does not notice what the
macros change.  `routine_refines` is the general statement, for any routine and
any program that contains it.

`div_minirv` and `mul_minirv` are the results, for all operands.
-/

namespace Riscv32.Minirv

open Isa Program Libgcc

/-! ## Lines on registers -/

section Lines

/-- A register the macros keep. -/
def Own (r : Reg) : Prop := r ≠ tp ∧ r ≠ gp

instance (r : Reg) : Decidable (Own r) := inferInstanceAs (Decidable (_ ∧ _))

/-- The line has nothing to do with memory, the stack pointer, `tp` and `gp`. -/
def OnRegisters : Line → Prop
  | .opImm _ rd rs1 _ | .shiftImm _ rd rs1 _ | .not rd rs1 | .sltz rd rs1 | .jalr rd rs1 _ =>
      rd ≠ sp ∧ Own rs1
  | .op _ rd rs1 rs2 => rd ≠ sp ∧ Own rs1 ∧ Own rs2
  | .seqz rd rs => rd ≠ sp ∧ rd ≠ s0 ∧ Own rs
  | .lui rd _ | .la rd _ => rd ≠ sp
  | .branch _ rs1 rs2 target => Own rs1 ∧ Own rs2 ∧ Even target
  | .jal rd target => rd ≠ sp ∧ Even target
  | .load .. | .store .. => False

variable {t : Symbols} {h h' : Hart} {next : Word} {l : Line} {area : Word → Prop}

/-- Such a line suits its macro. -/
theorem OnRegisters.sound (hOn : OnRegisters l) (hNext : Even next) : Sound h next l := by
  cases l with
  | load | store => exact hOn.elim
  | opImm f rd rs1 imm => cases f <;> first | exact ⟨hOn.1, hOn.2.1⟩ | trivial
  | op f rd rs1 rs2 =>
      cases f <;> first | exact ⟨hOn.1, hOn.2.1.2, hOn.2.1.1⟩ | exact hOn.1 | trivial
  | seqz => exact ⟨hOn.1, hOn.2.1⟩
  | branch => exact ⟨hOn.2.1.2, hOn.2.2, hNext⟩
  | jal => exact hOn.2
  | shiftImm | not | sltz => exact hOn.1
  | lui | la | jalr => trivial

/-- A result and a place to go to in both of two machines. -/
theorem Touches.both (hTouch : Touches [tp, gp] area h h') (rd : Reg) (v pc : Word) :
    Touches [tp, gp] area (Program.goto (h.set rd v) pc) (Program.goto (h'.set rd v) pc) := by
  refine ⟨rfl, fun r hr => ?_, fun a ha => ?_⟩
  · rw [get_goto, get_goto, get_set, get_set]
    split
    · rfl
    · exact hTouch.get r hr
  · rw [mem_goto, mem_goto, mem_set, mem_set]
    exact hTouch.mem a ha

/-- The registers of the routine are not touched. -/
theorem Touches.own (hTouch : Touches [tp, gp] area h h') {r : Reg} (hr : Own r) :
    h'.get r = h.get r :=
  hTouch.get r (by simpa [Own] using hr)

/-- Such a line does the same on machines that differ in the rest. -/
theorem OnRegisters.exec_congr (hOn : OnRegisters l) (hTouch : Touches [tp, gp] area h h') :
    Touches [tp, gp] area (l.exec next h) (l.exec next h') := by
  cases l with
  | load | store => exact hOn.elim
  | opImm f rd rs1 imm | shiftImm f rd rs1 imm | not rd rs1 | sltz rd rs1 | jalr rd rs1 imm =>
      rw [Line.exec, Line.exec, hTouch.own hOn.2]
      exact hTouch.both ..
  | op f rd rs1 rs2 =>
      rw [Line.exec, Line.exec, hTouch.own hOn.2.1, hTouch.own hOn.2.2]
      exact hTouch.both ..
  | seqz rd rs =>
      rw [Line.exec, Line.exec, hTouch.own hOn.2.2]
      exact hTouch.both ..
  | lui | la | jal => exact hTouch.both ..
  | branch f rs1 rs2 target =>
      rw [Line.exec, Line.exec, hTouch.own hOn.1, hTouch.own hOn.2.1]
      exact hTouch.goto _

/-- Such a line writes one register and jumps. -/
theorem OnRegisters.exec_eq (hOn : OnRegisters l) :
    ∃ rd v pc, rd ≠ sp ∧ l.exec next h = goto (h.set rd v) pc := by
  cases l with
  | load | store => exact hOn.elim
  | branch f rs1 rs2 target => exact ⟨zero, 0, _, by decide, rfl⟩
  | lui | la => exact ⟨_, _, _, hOn, rfl⟩
  | _ => exact ⟨_, _, _, hOn.1, rfl⟩

end Lines

/-! ## Programs on registers -/

section Programs

variable {t : Symbols} {code base : Code} {prog : Image} {Q : Hart → Prop} {h : Hart}
  {loc : Nat → Word} {lines : List Line}

/-- The machine `g'` keeps up with `g`, both on their way from `h`. -/
structure KeepsUp (t : Symbols) (h g g' : Hart) : Prop where
  touches : Touches [tp, gp] (Volatile t h) g g'
  sp : g'.get sp = h.get sp
  ready : Ready t g'

/-- The machine keeps up over one line. -/
theorem KeepsUp.step {g g' g'' : Hart} {l : Line} {next : Word} (hKeeps : KeepsUp t h g g')
    (hOn : OnRegisters l) (hNext : Touches [tp, gp] (Volatile t g') (l.exec next g') g'') :
    KeepsUp t h (l.exec next g) g'' := by
  obtain ⟨rd, v, pc, hRd, hExec⟩ := hOn.exec_eq
  have hArea : ∀ a, Volatile t g' a → Volatile t h a := fun a ha => by
    rwa [Volatile, InScratch, hKeeps.sp] at ha
  constructor
  case touches =>
    exact (hOn.exec_congr hKeeps.touches).trans (hNext.mono (List.Subset.refl _) hArea)
  case sp =>
    rw [hNext.get _ (by decide), hExec, get_goto, get_set, if_neg fun hEq => hRd hEq.1.symm,
      hKeeps.sp]
  case ready => exact hKeeps.ready.volatile hRd (hExec ▸ hNext)

/-- A program on registers does not mind what becomes of the rest. -/
theorem volatile_of_registers
    (hCode : ∀ a l next, code a = some (l, next) → OnRegisters l ∧ Even next)
    (hReady : Ready t h) (hRun : Inevitable (Steps (lineStep code)) Q h) :
    Inevitable (volatileStep t code)
      (fun h' => ∃ g, Q g ∧ Touches [tp, gp] (Volatile t h) g h') h := by
  have hSim : Inevitable (volatileStep t code) (fun h' => ∃ g, Q g ∧ KeepsUp t h g h') h := by
    refine hRun.transfer (R := KeepsUp t h) ?_ ⟨.refl, rfl, hReady⟩
    rintro g g' hKeeps ⟨s, hStep⟩
    obtain ⟨⟨l, next⟩, hAt, rfl⟩ := Option.map_eq_some_iff.mp hStep
    obtain ⟨hOn, hEven⟩ := hCode _ _ _ hAt
    have hAt' : code g'.pc = some (l, next) := hKeeps.touches.pc ▸ hAt
    exact volatile_line hKeeps.ready hAt' (hOn.sound hEven) fun g'' hNext =>
      .here ⟨_, hStep, hKeeps.step hOn hNext⟩
  refine hSim.mono ?_
  rintro h' ⟨g, hQ, hKeeps⟩
  exact ⟨g, hQ, hKeeps.touches⟩

/-- The part of a program that a routine takes. -/
def partOf (code : Code) (loc : Nat → Word) (n : Nat) : Code := fun a =>
  if ∃ i, i < n ∧ loc i = a then code a else none

/-- The part holds the routine. -/
theorem partOf_installed (hIn : Installed code loc lines) :
    Installed (partOf code loc lines.length) loc lines := fun i hi => by
  rw [partOf, if_pos ⟨i, hi, rfl⟩, hIn i hi]

/-- And nothing else. -/
theorem partOf_some (hIn : Installed code loc lines) {a next : Word} {l : Line}
    (hAt : partOf code loc lines.length a = some (l, next)) :
    code a = some (l, next) ∧ l ∈ lines ∧ ∃ i, next = loc i := by
  unfold partOf at hAt
  split at hAt
  · next hSome =>
      obtain ⟨i, hi, rfl⟩ := hSome
      obtain ⟨rfl, rfl⟩ := Prod.mk.inj (Option.some.inj ((hIn i hi).symm.trans hAt))
      exact ⟨hAt, List.getElem_mem hi, i + 1, rfl⟩
  · cases hAt

/-- **Routines on minirv**: what a routine on registers comes to natively, it comes
to on minirv, up to `tp`, `gp`, the variables and the working array. -/
theorem routine_refines (hAsm : Assembled t code base prog) (hIn : Installed code loc lines)
    (hOn : ∀ l ∈ lines, OnRegisters l) (hEven : ∀ i, Even (loc i)) (hReady : Ready t h)
    (hRun : ∀ code, Installed code loc lines → Inevitable (Steps (lineStep code)) Q h) :
    Inevitable (Steps (instStep prog))
      (fun h' => ∃ g, Q g ∧ Touches [tp, gp] (Volatile t h) g h') h := by
  have hPart := hRun _ (partOf_installed hIn)
  have hVolatile := volatile_of_registers (fun a l next hAt => by
    obtain ⟨-, hMem, i, rfl⟩ := partOf_some hIn hAt
    exact ⟨hOn l hMem, hEven i⟩) hReady hPart
  exact native_refines hAsm.native hAsm.near (lines_refine
    (fun a l next hAt => hAsm.expanded a l next (partOf_some hIn hAt).1) hVolatile)

end Programs

/-! ## Multiplication and division -/

/-- A routine has returned to its caller with a value. -/
structure ReturnedOn (t : Symbols) (v : Word) (h h' : Hart) : Prop where
  pc : h'.pc = h.get ra &&& ~~~1#32
  value : h'.get a0 = v
  get : ∀ r, r ∉ tp :: gp :: divRegs → h'.get r = h.get r
  mem : ∀ a, ¬ Volatile t h a → h'.mem a = h.mem a

section Routines

variable {t : Symbols} {code base : Code} {prog : Image} {h h' g : Hart} {loc : Nat → Word}
  {v : Word}

theorem Returned.on (hDone : Returned v h g) (hTouch : Touches [tp, gp] (Volatile t h) g h') :
    ReturnedOn t v h h' where
  pc := hTouch.pc.trans hDone.pc
  value := (hTouch.get a0 (by decide)).trans hDone.value
  get r hr := by
    obtain ⟨hTp, hGp, hRegs⟩ : r ≠ tp ∧ r ≠ gp ∧ r ∉ divRegs := by
      simpa only [List.mem_cons, not_or] using hr
    exact (hTouch.own ⟨hTp, hGp⟩).trans (hDone.keeps.get r hRegs)
  mem a ha := (hTouch.mem a ha).trans (congrFun hDone.keeps.mem a)

/-- The routines of `div.S` work on registers. -/
theorem div_on_registers (hEven : ∀ i, Even (loc i)) : ∀ l ∈ div loc, OnRegisters l := by
  simp [div, OnRegisters, Own, hEven]

theorem muldi3_on_registers (hEven : ∀ i, Even (loc i)) : ∀ l ∈ muldi3 loc, OnRegisters l := by
  simp [muldi3, OnRegisters, Own, hEven]

variable (hAsm : Assembled t code base prog) (hEven : ∀ i, Even (loc i)) (hReady : Ready t h)
include hAsm hEven hReady

/-- **Division on minirv**: from the entry of a routine every run of the base
instructions comes back to the caller with what the instruction of the M extension
would have given. -/
theorem div_minirv (hIn : Installed code loc (div loc)) {f : RegOp} {i : Nat}
    (hEntry : divEntry f = some i) (hPc : h.pc = loc i) : Inevitable (Steps (instStep prog))
      (ReturnedOn t (f.value (h.get a0) (h.get a1)) h) h := by
  refine (routine_refines hAsm hIn (div_on_registers hEven) hEven hReady
    fun _ hIn' => div_routine hIn' hEven hEntry hPc).mono ?_
  rintro h' ⟨g, hDone, hTouch⟩
  exact Returned.on hDone hTouch

/-- **Multiplication on minirv.** -/
theorem mul_minirv (hIn : Installed code loc (muldi3 loc)) (hPc : h.pc = loc 0) :
    Inevitable (Steps (instStep prog)) (ReturnedOn t (h.get a0 * h.get a1) h) h := by
  refine (routine_refines hAsm hIn (muldi3_on_registers hEven) hEven hReady
    fun _ hIn' => mulsi3_returns hIn' hPc).mono ?_
  rintro h' ⟨g, hDone, hTouch⟩
  have hKeeps : Keeps divRegs h g := hDone.keeps.mono (by decide)
  exact Returned.on ⟨hDone.pc, hKeeps, hDone.product⟩ hTouch

end Routines

/-! ## Calls -/

/-- Where the lines of `__mulsi3` come to stand on minirv. -/
def mulLoc : Nat → Word := tableLoc (startsOf sampleSymbols (muldi3 fun _ => 0))

def mulMacros : List (List Line) := macrosOf sampleSymbols mulLoc (muldi3 mulLoc)

theorem mul_fits : Fits sampleSymbols (muldi3 mulLoc) mulMacros mulLoc :=
  fits_of_accepted (by decide +kernel) (by decide +kernel) (by decide +kernel)

/-- Where those of `div.S` do. -/
def divLoc : Nat → Word := tableLoc (startsOf sampleSymbols (div fun _ => 0))

def divMacros : List (List Line) := macrosOf sampleSymbols divLoc (div divLoc)

/-- The routines are accepted. -/
theorem div_fits : Fits sampleSymbols (div divLoc) divMacros divLoc :=
  fits_of_accepted (by decide +kernel) (by decide +kernel) (by decide +kernel)

/-- A call with minus seven and two. -/
def sampleCall (pc : Word) : Hart where
  x r := if r = 2#5 then 0x80200000 else if r = 10#5 then -7 else if r = 11#5 then 2
    else 0x80000100
  mem := memoryOf (rodata sampleSymbols)
  pc := pc

theorem sampleCall_ready (pc : Word) : Ready sampleSymbols (sampleCall pc) :=
  ⟨sample_ready.tables, sample_ready.scratch, sample_ready.array⟩

theorem div_minirv_seven :
    RegOp.rem.value ((sampleCall (divLoc 33)).get a0) ((sampleCall (divLoc 33)).get a1) = -1 ∧
      Inevitable (Steps (instStep (wideImage divMacros.flatten)))
        (ReturnedOn sampleSymbols
          (RegOp.rem.value ((sampleCall (divLoc 33)).get a0) ((sampleCall (divLoc 33)).get a1))
          (sampleCall (divLoc 33))) (sampleCall (divLoc 33)) :=
  ⟨by decide, div_minirv div_fits.assembled (tableLoc_even _) (sampleCall_ready _)
    div_fits.installed rfl rfl⟩

theorem mul_minirv_seven :
    (sampleCall (mulLoc 0)).get a0 * (sampleCall (mulLoc 0)).get a1 = -14 ∧
      Inevitable (Steps (instStep (wideImage mulMacros.flatten)))
        (ReturnedOn sampleSymbols
          ((sampleCall (mulLoc 0)).get a0 * (sampleCall (mulLoc 0)).get a1)
          (sampleCall (mulLoc 0))) (sampleCall (mulLoc 0)) :=
  ⟨by decide, mul_minirv mul_fits.assembled (tableLoc_even _) (sampleCall_ready _)
    mul_fits.installed rfl⟩

end Riscv32.Minirv
