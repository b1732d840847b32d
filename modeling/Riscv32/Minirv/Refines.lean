import Riscv32.Minirv.Line

/-!
# Programs on minirv

A program is assembled with the macros: its lines are replaced one by one, and
what results is assembled natively.  The macros change `tp`, `gp`, the variables
and the working array at any line, so what is asked of the program is that it
comes to its end whatever becomes of these.

`volatileStep` is a program on such a machine.  It takes a step only where the
macro of the line is right, that is, where `Ready` and `Sound` hold; so a program
whose runs come to their end there has met these conditions at every line it
executed.

## Main results

* `lines_refine` — the macros keep what a program does.
* `minirv_refines` — so does the image, which has base instructions only.
* `seqz_right_iff` — into `s0` the macro of `seqz` is right only where the result
  was there before.
-/

namespace Riscv32.Minirv

open Isa Program Macro

/-! ## The lines of a macro -/

/-- The base instructions. -/
def Known : Inst → Prop
  | .op .add .. | .opImm .addi .. | .lui .. | .load .lw .. | .load .lbu .. | .store .sw .. |
    .store .sb .. | .jalr .. => True
  | _ => False

/-- A line of such instructions that does not jump. -/
def Plain : Line → Prop
  | .op .add .. | .opImm .addi .. | .lui .. | .la .. | .load .lw .. | .load .lbu .. |
    .store .sw .. | .store .sb .. => True
  | _ => False

/-- Plain lines and a jump at most at the end. -/
def Shaped (ls : List Line) : Prop :=
  ∃ pre last, ls = pre ++ last ∧ (∀ l ∈ pre, Plain l) ∧
    (last = [] ∨ ∃ rd rs1 imm, last = [.jalr rd rs1 imm])

section Shapes

variable {t : Symbols} {next : Word} {l : Line} {ls : List Line} {rd rs rs1 rs2 : Reg} {n : Nat}

/-- A macro that does not jump. -/
theorem Shaped.of_plain (hPlain : ∀ l ∈ ls, Plain l) : Shaped ls :=
  ⟨ls, [], (List.append_nil ls).symm, hPlain, .inl rfl⟩

/-- A macro that jumps at its end. -/
theorem Shaped.of_jump {pre : List Line} {imm : BitVec 12} (hPlain : ∀ l ∈ pre, Plain l) :
    Shaped (pre ++ [.jalr rd rs1 imm]) :=
  ⟨pre, [.jalr rd rs1 imm], rfl, hPlain, .inr ⟨rd, rs1, imm, rfl⟩⟩

section Plain

variable {imm : BitVec 12} {symbol : Word} {imm20 : BitVec 20}

@[simp] theorem plain_add : Plain (.op .add rd rs1 rs2) := trivial
@[simp] theorem plain_addi : Plain (.opImm .addi rd rs1 imm) := trivial
@[simp] theorem plain_lui : Plain (.lui rd imm20) := trivial
@[simp] theorem plain_la : Plain (.la rd symbol) := trivial
@[simp] theorem plain_lw : Plain (.load .lw rd rs1 imm) := trivial
@[simp] theorem plain_lbu : Plain (.load .lbu rd rs1 imm) := trivial
@[simp] theorem plain_sw : Plain (.store .sw rs1 rs2 imm) := trivial
@[simp] theorem plain_sb : Plain (.store .sb rs1 rs2 imm) := trivial

end Plain

/-- The macros are plain lines, one lemma each. -/
theorem plain_slliShort : ∀ l ∈ slliShort rd rs1 n, Plain l := by
  unfold slliShort
  split
  · split <;> simp
  · intro l hl
    rcases List.mem_cons.mp hl with rfl | hRest
    · simp
    · rw [List.eq_of_mem_replicate hRest]
      simp

theorem plain_logic {lut : Word} (hLogic : logic lut rd rs1 rs2 = some ls) :
    ∀ l ∈ ls, Plain l := by
  obtain ⟨-, rfl⟩ | ⟨-, -, -, -, -, rfl⟩ := logic_cases hLogic
  · simp
  · simp [logicLines, logic8ByteInternal]

theorem plain_slt {lut : Word} : ∀ l ∈ sltTemplate t lut rd rs1 rs2, Plain l := by
  simp [sltTemplate, msb, getbyte, slliShort, sub, Macro.not, notByte]

theorem plain_sh {imm : BitVec 12} : ∀ l ∈ sh rs rs1 imm, Plain l := by
  simp [sh, getbyte]

theorem plain_slli : ∀ l ∈ slli rd rs1 n, Plain l := by
  unfold slli
  split
  · simpa [or_imp, forall_and] using plain_slliShort (n := n - 24)
  · split
    · simpa [sh, getbyte, or_imp, forall_and] using plain_slliShort (n := n - 16)
    · exact plain_slliShort

theorem plain_shiftRight {amount : Amount} {isArith : Bool} :
    ∀ l ∈ shiftRightTemplate t rd rs1 amount isArith, Plain l := by
  unfold shiftRightTemplate
  split
  · cases isArith <;> simp [getbyte, slliShort]
  · cases isArith <;> cases amount <;>
      simp [slliShort, getShiftByteInTp, combineLow, amountRow, shiftRow, getshamt]

theorem plain_seqz : ∀ l ∈ seqz t rd rs1, Plain l := by
  simp [seqz, Macro.check8bit0]

theorem plain_same : ∀ l ∈ sameTp t rs1 rs2, Plain l := by
  unfold sameTp
  split
  · exact plain_seqz
  · split
    · exact plain_seqz
    · simp [seq, check8bitSame]

theorem plain_msb : ∀ l ∈ msb rd rs1, Plain l := by
  simp [msb, getbyte, slliShort]

theorem plain_notPositive : ∀ l ∈ notPositiveTp t rs2, Plain l := by
  simp [notPositiveTp, msb, getbyte, slliShort]

/-- A branch is plain up to its jump. -/
theorem shaped_resolve {target label : Word} (hPlain : ∀ l ∈ ls, Plain l) (high : Bool) :
    Shaped (ls ++ branchResolve target high label) := by
  have hSplit : ls ++ branchResolve target high label =
      (ls ++ resolveLines target high label) ++ [jr tp] := by
    simp [branchResolve, resolveLines]
  rw [hSplit]
  refine .of_jump fun l hl => ?_
  rcases List.mem_append.mp hl with hIn | hIn
  · exact hPlain l hIn
  · have hRest : ∀ l ∈ resolveLines target high label, Plain l := by
      cases high <;> simp [resolveLines, slliShort]
    exact hRest l hIn

theorem shaped_branch {f : BranchOp} {target : Word}
    (hExp : expand t next (.branch f rs1 rs2 target) = some ls) : Shaped ls := by
  cases f with
  | beq | bne =>
      obtain rfl := Option.some.inj hExp
      exact shaped_resolve plain_same _
  | bltu | bgeu =>
      obtain rfl := Option.some.inj hExp
      exact shaped_resolve plain_slt _
  | blt =>
      obtain rfl := Option.some.inj hExp
      unfold blt
      split
      · exact shaped_resolve plain_msb _
      · split
        · exact shaped_resolve plain_notPositive _
        · exact shaped_resolve plain_slt _
  | bge =>
      obtain rfl := Option.some.inj hExp
      unfold bge
      split
      · exact shaped_resolve plain_notPositive _
      · exact shaped_resolve plain_slt _

theorem plain_load {f : LoadOp} {imm : BitVec 12}
    (hExp : expand t next (.load f rd rs1 imm) = some ls) : ∀ l ∈ ls, Plain l := by
  cases f with
  | lw | lbu =>
      obtain rfl := Option.some.inj hExp
      simp
  | lb =>
      obtain rfl := Option.some.inj hExp
      simpa [lb, srai, or_imp, forall_and] using plain_shiftRight
  | lh =>
      rw [expand, Option.ite_none_left_eq_some] at hExp
      obtain rfl := Option.some.inj hExp.2
      simpa [lh, srai, or_imp, forall_and] using plain_shiftRight
  | lhu =>
      rw [expand, Option.ite_none_left_eq_some] at hExp
      obtain rfl := Option.some.inj hExp.2
      simp [lhu]

theorem plain_store {f : StoreOp} {imm : BitVec 12}
    (hExp : expand t next (.store f rs1 rs2 imm) = some ls) : ∀ l ∈ ls, Plain l := by
  cases f with
  | sw | sb =>
      obtain rfl := Option.some.inj hExp
      simp
  | sh =>
      rw [expand, Option.ite_none_left_eq_some] at hExp
      obtain rfl := Option.some.inj hExp.2
      exact plain_sh

theorem plain_opImm {f : ImmOp} {imm : BitVec 12}
    (hExp : expand t next (.opImm f rd rs1 imm) = some ls) : ∀ l ∈ ls, Plain l := by
  cases f with
  | addi =>
      obtain rfl := Option.some.inj hExp
      simp
  | slti | sltiu =>
      obtain rfl := Option.some.inj hExp
      simpa [slt, sltu] using plain_slt
  | andi | ori | xori =>
      obtain ⟨ls', hMap, rfl⟩ := Option.map_eq_some_iff.mp hExp
      simpa using plain_logic hMap

theorem plain_op {f : RegOp} (hExp : expand t next (.op f rd rs1 rs2) = some ls) :
    ∀ l ∈ ls, Plain l := by
  cases f with
  | and | or | xor => exact plain_logic hExp
  | add =>
      obtain rfl := Option.some.inj hExp
      simp
  | sub =>
      obtain rfl := Option.some.inj hExp
      simp [sub, Macro.not, notByte]
  | slt | sltu =>
      obtain rfl := Option.some.inj hExp
      exact plain_slt
  | sll =>
      obtain rfl := Option.some.inj hExp
      simp [sll, shiftRow, getshamt, getShiftByteInTp, slliShort, sh, getbyte]
  | srl | sra =>
      obtain rfl := Option.some.inj hExp
      exact plain_shiftRight
  | _ => cases hExp

/-- What the assembler makes of a line: base instructions, of which only the last
may jump. -/
theorem expand_shaped (hExp : expand t next l = some ls) : Shaped ls := by
  cases l with
  | load => exact .of_plain (plain_load hExp)
  | store => exact .of_plain (plain_store hExp)
  | opImm => exact .of_plain (plain_opImm hExp)
  | op => exact .of_plain (plain_op hExp)
  | shiftImm f rd rs1 shamt =>
      cases f with
      | slli =>
          obtain rfl := Option.some.inj hExp
          exact .of_plain plain_slli
      | srli | srai =>
          obtain rfl := Option.some.inj hExp
          exact .of_plain plain_shiftRight
  | not rd rs =>
      obtain rfl := Option.some.inj hExp
      exact .of_plain (by simp [Macro.not, notByte])
  | seqz rd rs =>
      obtain rfl := Option.some.inj hExp
      exact .of_plain plain_seqz
  | sltz rd rs =>
      obtain rfl := Option.some.inj hExp
      exact .of_plain plain_msb
  | lui | la =>
      obtain rfl := Option.some.inj hExp
      exact .of_plain (by simp)
  | branch => exact shaped_branch hExp
  | jal rd target =>
      obtain rfl := Option.some.inj hExp
      unfold jal
      split
      · exact Shaped.of_jump (List.forall_mem_singleton.mpr plain_la)
      · exact Shaped.of_jump (List.forall_mem_singleton.mpr plain_la)
  | jalr rd rs1 imm =>
      obtain rfl := Option.some.inj hExp
      exact ⟨[], _, rfl, fun _ hl => (List.not_mem_nil hl).elim, .inr ⟨rd, rs1, imm, rfl⟩⟩

end Shapes

/-! ## Programs -/

/-- The lines stand in the program from `a` on, and `b` comes after them. -/
def Laid (code : Code) : Word → List Line → Word → Prop
  | a, [], b => a = b
  | a, l :: ls, b => ∃ c, code a = some (l, c) ∧ Laid code c ls b

/-- The image is what the assembler makes of the program `code` with the macros:
`base` holds the lines of the macros. -/
structure Assembled (t : Symbols) (code base : Code) (prog : Image) : Prop where
  expanded : ∀ a l next, code a = some (l, next) →
    ∃ ls, expand t next l = some ls ∧ Laid base a ls next
  lines : ∀ b l' next', base b = some (l', next') →
    ∃ a l next ls, code a = some (l, next) ∧ expand t next l = some ls ∧ l' ∈ ls
  native : Realises prog Line.native base
  image : ∀ b i, prog b = some i →
    ∃ a l next, base a = some (l, next) ∧ i ∈ l.native a

/-- A step of a program on a machine that lets `tp`, `gp`, the variables and the
working array change at any line.  It is taken only where the tables stand in
memory, apart from the variables and the working array (`Ready`), and the line
suits its macro (`Sound`); elsewhere the program is stuck, and nothing is claimed
about its image. -/
def volatileStep (t : Symbols) (code : Code) (h h' : Hart) : Prop :=
  Ready t h ∧ ∃ l next, code h.pc = some (l, next) ∧ Sound h next l ∧
    Touches [tp, gp] (Volatile t h) (l.exec next h) h'

section Running

variable {t : Symbols} {code base : Code} {prog : Image} {Q : Hart → Prop} {h : Hart}

/-- Where a plain line leads does not matter to what it does. -/
theorem plain_goto {l : Line} (hPlain : Plain l) (b c : Word) :
    goto (l.exec c h) b = act l (goto h b) := by
  rw [act, pc_goto, exec_goto]
  cases l with
  | load | store | opImm | op | lui | la => rfl
  | _ => exact hPlain.elim

/-- A step of the program, from what every outcome of it comes to. -/
theorem volatile_line {l : Line} {next : Word} (hReady : Ready t h)
    (hAt : code h.pc = some (l, next)) (hSound : Sound h next l)
    (hRest : ∀ h', Touches [tp, gp] (Volatile t h) (l.exec next h) h' →
      Inevitable (volatileStep t code) Q h') : Inevitable (volatileStep t code) Q h := by
  refine .next ⟨_, hReady, l, next, hAt, hSound, .refl⟩ ?_
  rintro h' ⟨-, l', next', hAt', -, hTouch⟩
  obtain ⟨rfl, rfl⟩ := Prod.mk.inj (Option.some.inj (hAt.symm.trans hAt'))
  exact hRest h' hTouch

/-- The machine stays ready behind a line that does not write `sp`. -/
theorem Ready.volatile {h' : Hart} {rd : Reg} {v next : Word} (hReady : Ready t h) (hRd : rd ≠ sp)
    (hTouch : Touches [tp, gp] (Volatile t h) (goto (h.set rd v) next) h') : Ready t h' := by
  have hSet := (ready_set hRd v).mpr hReady
  have hThere : Ready t (goto (h.set rd v) next) := ⟨hSet.tables, hSet.scratch, hSet.array⟩
  refine hThere.frame (hTouch.mono (List.Subset.refl _) fun a ha => ?_) (by decide)
  rwa [InScratch, get_goto, get_set, if_neg fun hEq => hRd hEq.1.symm]

/-- Lines that are installed are laid. -/
theorem laid_installed {loc : Nat → Word} {lines : List Line} (pre ls post : List Line)
    (hIn : Installed code loc lines) (hSplit : lines = pre ++ (ls ++ post)) :
    Laid code (loc pre.length) ls (loc (pre.length + ls.length)) := by
  induction ls generalizing pre with
  | nil => exact rfl
  | cons l ls ih =>
      have hAt : lines[pre.length]? = some l := by simp [hSplit]
      obtain ⟨hLt, hGet⟩ := List.getElem?_eq_some_iff.mp hAt
      refine ⟨loc (pre.length + 1), by rw [hIn _ hLt, hGet], ?_⟩
      have hRest := ih (pre ++ [l]) (by simp [hSplit])
      rw [List.length_append, List.length_singleton, Nat.add_right_comm] at hRest
      exact hRest

/-- The lines of a macro run to the end. -/
theorem Laid.runs {ls : List Line} {b : Word} (hLaid : Laid base h.pc ls b) (hShaped : Shaped ls)
    (hRest : Inevitable (Steps (lineStep base)) Q (run ls (goto h b))) :
    Inevitable (Steps (lineStep base)) Q h := by
  obtain ⟨pre, last, rfl, hPlain, hLast⟩ := hShaped
  induction pre generalizing h with
  | nil =>
      rw [List.nil_append] at hLaid hRest
      obtain rfl | ⟨rd, rs1, imm, rfl⟩ := hLast
      · obtain rfl : h.pc = b := hLaid
        exact hRest
      · obtain ⟨c, hAt, rfl⟩ := hLaid
        rw [run_single] at hRest
        exact .eval (by rw [lineStep, hAt]; rfl) hRest
  | cons l pre ih =>
      obtain ⟨c, hAt, hTail⟩ := hLaid
      have hFirst := hPlain l List.mem_cons_self
      have hPc : (l.exec c h).pc = c := by
        cases l with
        | load | store | opImm | op | lui | la => rfl
        | _ => exact hFirst.elim
      refine .eval (t := l.exec c h) (by rw [lineStep, hAt]; rfl) ?_
      refine ih (hPc.symm ▸ hTail) ?_ fun l' hl' => hPlain l' (List.mem_cons_of_mem _ hl')
      rw [plain_goto hFirst]
      simpa using hRest

/-- **The macros keep what a program does.** -/
theorem lines_refine (hExp : ∀ a l next, code a = some (l, next) →
    ∃ ls, expand t next l = some ls ∧ Laid base a ls next)
    (hRun : Inevitable (volatileStep t code) Q h) : Inevitable (Steps (lineStep base)) Q h := by
  have hSim : Inevitable (Steps (lineStep base)) (fun h' => ∃ s, Q s ∧ s = h') h := by
    refine hRun.transfer (R := Eq) ?_ rfl
    rintro s _ rfl ⟨s', hReady, l, next, hAt, hSound, -⟩
    obtain ⟨ls, hLs, hLaid⟩ := hExp _ _ _ hAt
    exact hLaid.runs (expand_shaped hLs)
      (.here ⟨_, ⟨hReady, l, next, hAt, hSound, expand_line hReady hSound hLs⟩, rfl⟩)
  refine hSim.mono fun h' ht => ?_
  obtain ⟨s, hQ, rfl⟩ := ht
  exact hQ

/-- The lines of macros are base instructions, or an indirect jump. -/
theorem Assembled.plain_or_jump (hAsm : Assembled t code base prog) {a : Word} {l : Line}
    {next : Word} (hAt : base a = some (l, next)) :
    Plain l ∨ ∃ rd rs1 imm, l = .jalr rd rs1 imm := by
  obtain ⟨_, _, _, ls, -, hExp, hMem⟩ := hAsm.lines _ _ _ hAt
  obtain ⟨pre, last, rfl, hPlain, hLast⟩ := expand_shaped hExp
  rcases List.mem_append.mp hMem with hPre | hEnd
  · exact .inl (hPlain l hPre)
  · obtain rfl | ⟨rd, rs1, imm, rfl⟩ := hLast
    · cases hEnd
    · exact .inr ⟨rd, rs1, imm, List.mem_singleton.mp hEnd⟩

/-- So none of them is out of reach of its target. -/
theorem Assembled.near (hAsm : Assembled t code base prog) (a : Word) (l : Line) (next : Word)
    (hAt : base a = some (l, next)) : l.Near a := by
  obtain hPlain | ⟨rd, rs1, imm, rfl⟩ := hAsm.plain_or_jump hAt
  · cases l with
    | branch | jal => exact hPlain.elim
    | _ => trivial
  · trivial

/-- A plain line is assembled to base instructions. -/
theorem known_of_plain {l : Line} {i : Inst} {pc : Word} (hPlain : Plain l)
    (hi : i ∈ l.native pc) : Known i := by
  cases l with
  | load f | store f | opImm f | op f =>
      obtain rfl := List.mem_singleton.mp hi
      cases f <;> first | exact hPlain.elim | trivial
  | lui =>
      obtain rfl := List.mem_singleton.mp hi
      trivial
  | la rd symbol =>
      obtain rfl | rfl : i = _ ∨ i = _ := by simpa [Line.native, Program.la] using hi
      · trivial
      · trivial
  | _ => exact hPlain.elim

/-- **Programs on minirv**: what the assembler makes of a program consists of base
instructions, and what the program comes to whatever becomes of `tp`, `gp`, the
variables and the working array, every run of these instructions comes to.

The runs of the program have to meet two conditions at every line they execute,
as steps of `volatileStep`.  `Ready`: the tables of `gen-lut` stand in memory, apart
from the seven words below the stack pointer and from the working array.  `Sound`:
the result does not go to `sp` (nor to `s0` for `seqz`), the first source of `sub`,
`sh`, `lh`, `lhu`, `slti` and `sltiu` is not `tp` and that of `sub`, `lh` and `lhu`
not `gp`, the second source of a branch is not `gp`, the addresses of a branch and
of a jump are even, and `lb`, `lh` and `lhu` read no byte of those seven words. -/
theorem minirv_refines (hAsm : Assembled t code base prog)
    (hRun : Inevitable (volatileStep t code) Q h) :
    (∀ b i, prog b = some i → Known i) ∧ Inevitable (Steps (instStep prog)) Q h := by
  refine ⟨fun b i hi => ?_, ?_⟩
  · obtain ⟨a, l, next, hAt, hMem⟩ := hAsm.image b i hi
    obtain hPlain | ⟨rd, rs1, imm, rfl⟩ := hAsm.plain_or_jump hAt
    · exact known_of_plain hPlain hMem
    · obtain rfl := List.mem_singleton.mp hMem
      trivial
  · exact native_refines hAsm.native hAsm.near (lines_refine hAsm.expanded hRun)

end Running

/-! ## A sample -/

/-- Addresses for the tables, apart from each other. -/
def sampleSymbols : Symbols where
  sameResultTable := 0x80001000
  check8bit0Table := 0x80002000
  slt1Table := 0x80003000
  sltu1Table := 0x80004000
  or1Table := 0x80005000
  logicShiftTable := 0x80010000
  checkSameArray := 0x80100000

theorem sample_before : (rodata sampleSymbols).Pairwise Before := by
  simp [rodata, sampleSymbols, Before, length_sameResult, length_check8bit0,
    length_slt1, length_sltu1, length_or1, length_lut]

theorem sample_fit : ∀ p ∈ rodata sampleSymbols, p.2.length ≤ 4294967296 := by
  simp [rodata, sampleSymbols, length_sameResult, length_check8bit0,
    length_slt1, length_sltu1, length_or1, length_lut]

/-- `a1` holds minus one. -/
def sampleHart : Hart where
  x r := if r = 2#5 then 0x80200000 else if r = 11#5 then -1 else 0
  mem := memoryOf (rodata sampleSymbols)
  pc := flatLoc 0

theorem inTables_sample {a : Word} : InTables sampleSymbols a ↔
    (a - 0x80001000#32).toNat < 8 ∨ (a - 0x80002000#32).toNat < 256 ∨
      (a - 0x80003000#32).toNat < 8 ∨ (a - 0x80004000#32).toNat < 8 ∨
      (a - 0x80005000#32).toNat < 4 ∨ (a - 0x80010000#32).toNat < 294912 := by
  simp [InTables, rodata, sampleSymbols, length_sameResult, length_check8bit0,
    length_slt1, length_sltu1, length_or1, length_lut]

theorem sample_ready : Ready sampleSymbols sampleHart where
  tables p hp i b hb := memoryOf_at sample_before sample_fit hp hb
  scratch a ha := by
    have hIn : (a - 0x801fffe4#32).toNat < 28 := ha
    rw [inTables_sample, InArray, show sampleSymbols.checkSameArray = 0x80100000#32 from rfl]
    bv_omega
  array a ha := by
    have hIn : (a - 0x80100000#32).toNat < 256 := ha
    rw [inTables_sample]
    bv_omega

/-- The sign of `a1`, times eight. -/
def sampleCode : Code := fun a =>
  if a = 0#32 then some (.sltz a0 a1, 20#32)
  else if a = 20#32 then some (.shiftImm .slli a0 a0 3#5, 32#32)
  else none

/-- What the macros make of it. -/
def sampleLines : List Line := msb a0 a1 ++ slli a0 a0 3

theorem sample_installed : Installed (flatCode sampleLines) flatLoc sampleLines :=
  flatCode_installed (by decide)

theorem sample_assembled : Assembled sampleSymbols sampleCode (flatCode sampleLines)
    (flatImage sampleLines) where
  expanded a l next hAt := by
    unfold sampleCode at hAt
    split at hAt
    · next hFirst =>
        obtain ⟨rfl, rfl⟩ := Prod.mk.inj (Option.some.inj hAt)
        rw [hFirst]
        exact ⟨_, rfl, laid_installed [] _ _ sample_installed rfl⟩
    · split at hAt
      · next hSecond =>
          obtain ⟨rfl, rfl⟩ := Prod.mk.inj (Option.some.inj hAt)
          rw [hSecond]
          exact ⟨_, rfl, laid_installed (msb a0 a1) _ [] sample_installed
            (by rw [List.append_nil]; rfl)⟩
      · cases hAt
  lines b l' next' hAt := by
    obtain ⟨i, hi, -, hLine, -⟩ := flatCode_some hAt
    have hMem : l' ∈ sampleLines := hLine ▸ List.getElem_mem hi
    rcases List.mem_append.mp hMem with hFirst | hSecond
    · exact ⟨0#32, _, _, _, rfl, rfl, hFirst⟩
    · exact ⟨20#32, _, _, _, rfl, rfl, hSecond⟩
  native := flatImage_realises (by
    simp [sampleLines, msb, slli, getbyte, slliShort, List.replicate, Line.native])
  image b i hi := by
    obtain ⟨⟨l, next⟩, hAt, hHead⟩ := Option.bind_eq_some_iff.mp hi
    exact ⟨b, l, next, hAt, List.mem_of_mem_head? hHead⟩

/-- Whatever becomes of `tp` and `gp`. -/
theorem sample_run : Inevitable (volatileStep sampleSymbols sampleCode)
    (fun h => h.pc = 32#32 ∧ h.get a0 = 8#32) sampleHart := by
  refine volatile_line sample_ready rfl (show a0 ≠ sp by decide) fun h' hFirst => ?_
  have hPc : h'.pc = 20#32 := hFirst.pc
  have hA0 : h'.get a0 = 1#32 := hFirst.get a0 (by decide)
  have hAt : sampleCode h'.pc = some (.shiftImm .slli a0 a0 3#5, 32#32) := by
    rw [hPc]
    rfl
  refine volatile_line (sample_ready.volatile (by decide) hFirst) hAt
    (show a0 ≠ sp by decide) fun h'' hSecond => ?_
  refine .here ⟨hSecond.pc, ?_⟩
  rw [hSecond.get a0 (by decide), Line.exec, get_goto, get_set_self _ _ _ (by decide), hA0]
  decide

/-- The sample comes to 8 in `a0`, on every run. -/
theorem minirv_refines_sign : (∀ b i, flatImage sampleLines b = some i → Known i) ∧
    Inevitable (Steps (instStep (flatImage sampleLines)))
      (fun h => h.pc = 32#32 ∧ h.get a0 = 8#32) sampleHart :=
  minirv_refines sample_assembled sample_run

/-! ## The exception -/

/-- **`seqz` loses `s0`**: the macro gives `s0` its old value back after the result
is written, so into `s0` the result is right only where it was there before. -/
theorem seqz_right_iff {t : Symbols} {h : Hart} {rd rs : Reg} (hReady : Ready t h)
    (hZero : rd ≠ zero) (hSp : rd ≠ sp) :
    (run (seqz t rd rs) h).get rd = setIf (h.get rs = 0) ↔
      rd ≠ s0 ∨ h.get s0 = setIf (h.get rs = 0) := by
  by_cases hS0 : rd = s0
  · subst hS0
    rw [seqz_s0 hSp]
    exact ⟨.inr, fun hOr => hOr.resolve_left fun hNe => hNe rfl⟩
  · exact ⟨fun _ => .inl hS0, fun _ => seqz_value hReady hZero hS0⟩

theorem seqz_right_iff_sample :
    (run (seqz sampleSymbols s0 a0) sampleHart).get s0 ≠ setIf (sampleHart.get a0 = 0) := by
  rw [Ne, seqz_right_iff sample_ready (by decide) (by decide)]
  decide

end Riscv32.Minirv
