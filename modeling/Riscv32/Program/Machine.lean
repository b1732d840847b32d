import Riscv32.Isa.Arith
import Riscv32.Program.Line

/-!
# Assembled programs

The instructions of a program in memory, and what it means that they realise an
assembly source.  A line that is a single instruction is assembled natively;
branches and jumps take their offset from where they stand, `la` becomes the two
halves of the address.

The image is a partial map from addresses to instructions, executed by the
specification in an environment where every access completes (`instStep`).
`Realises` is the contract between source and image: the instructions of a line
stand from its address on, up to that of the next line.

## Main results

* `native_line` — what the instructions of one line do is what the line does.
* `native_refines` — whatever every run of the source comes to, every run of the
  image comes to.
* `flatImage_realises` — the layout with four bytes a line is such an image.
-/

namespace Riscv32.Program

open Isa Data

/-! ## The machine -/

/-- The instructions of a program by address. -/
abbrev Image := Word → Option Inst

/-- Memory that answers every access. -/
def flat : Env := ⟨fun _ _ => true, fun _ _ => true, fun _ => true⟩

/-- The machine takes a step. -/
def instStep (prog : Image) (h : Hart) : Option Hart :=
  (prog h.pc).bind fun i => (exec flat i h).toOption

/-- The instructions stand one after the other from `a` on. -/
def Placed (prog : Image) : Word → List Inst → Prop
  | _, [] => True
  | a, i :: is => prog a = some i ∧ Placed prog (a + 4) is

/-- The address after `n` instructions. -/
def after (a : Word) (n : Nat) : Word := a + BitVec.ofNat 32 (4 * n)

@[simp] theorem after_zero (a : Word) : after a 0 = a := BitVec.add_zero a

/-- The first instruction, and those behind it. -/
theorem after_succ (a : Word) (n : Nat) : after a (n + 1) = after (a + 4) n := by
  unfold after
  rw [BitVec.add_assoc, Nat.mul_succ, Nat.add_comm, BitVec.ofNat_add]
  rfl

section Running

variable {prog : Image} {Q : Hart → Prop} {h h' : Hart} {a : Word}

/-- Two stretches of a placed program are placed. -/
theorem Placed.append {is is' : List Inst} (hPlaced : Placed prog a (is ++ is')) :
    Placed prog a is ∧ Placed prog (after a is.length) is' := by
  induction is generalizing a with
  | nil => exact ⟨trivial, by simpa using hPlaced⟩
  | cons i is ih =>
      obtain ⟨hHead, hTail⟩ := hPlaced
      obtain ⟨hLeft, hRight⟩ := ih hTail
      exact ⟨⟨hHead, hLeft⟩, by rwa [List.length_cons, after_succ]⟩

/-- One instruction of a program in memory. -/
theorem Placed.step {i : Inst} {is : List Inst} (hPlaced : Placed prog a (i :: is))
    (hPc : h.pc = a) (hExec : exec flat i h = .ok h')
    (hRest : Inevitable (Steps (instStep prog)) Q h') :
    Inevitable (Steps (instStep prog)) Q h := by
  refine .eval ?_ hRest
  rw [instStep, hPc, hPlaced.1]
  exact congrArg Except.toOption hExec

end Running

/-- The instructions in memory are those that `asm` makes of the lines. -/
def Realises (prog : Image) (asm : Word → Line → List Inst) (code : Code) : Prop :=
  ∀ a l next, code a = some (l, next) →
    Placed prog a (asm a l) ∧ next = after a (asm a l).length

/-! ## Symbols -/

/-- `%hi(symbol)`. -/
def hi (symbol : Word) : BitVec 20 := (symbol + 0x800#32).extractLsb' 12 20

/-- `%lo(symbol)`. -/
def lo (symbol : Word) : BitVec 12 := symbol.extractLsb' 0 12

/-- The two halves of a symbol make it up again. -/
theorem hi_add_lo (symbol : Word) :
    (hi symbol ++ 0#12 : Word) + (lo symbol).signExtend 32 = symbol := by
  apply BitVec.eq_of_toNat_eq
  have hSym := symbol.isLt
  have hHi : (hi symbol ++ 0#12 : Word).toNat =
      (symbol.toNat + 0x800) % 4294967296 / 4096 * 4096 := by
    have hLt : (symbol.toNat + 0x800) % 4294967296 / 4096 < 1048576 := by omega
    rw [BitVec.toNat_append, hi, BitVec.extractLsb'_toNat, Nat.shiftRight_eq_div_pow,
      Nat.shiftLeft_eq, BitVec.toNat_add]
    simp only [BitVec.toNat_ofNat, Nat.zero_mod, Nat.or_zero]
    rw [Nat.mod_eq_of_lt hLt]
  have hLo : (lo symbol).toNat = symbol.toNat % 4096 := by
    rw [lo, BitVec.extractLsb'_toNat, Nat.shiftRight_zero]
  rw [BitVec.toNat_add, hHi, BitVec.toNat_signExtend, BitVec.msb_eq_decide,
    BitVec.toNat_setWidth, hLo]
  by_cases hUp : 2048 ≤ symbol.toNat % 4096
  · simp [hUp]
    omega
  · simp [hUp]
    omega

/-- `la rd, symbol` in two instructions. -/
def la (rd : Reg) (symbol : Word) : List Inst :=
  [.lui rd (hi symbol), .opImm .addi rd rd (lo symbol)]

section Running

variable {prog : Image} {Q : Hart → Prop} {h : Hart} {a : Word}

theorem set_set (rd : Reg) (v w : Word) : (h.set rd v).set rd w = h.set rd w := by
  unfold Hart.set
  by_cases hrd : rd = 0
  · simp [hrd]
  · simp only [if_neg hrd, Hart.mk.injEq, and_self, and_true]
    funext s
    by_cases hs : s = rd <;> simp [hs]

/-- The specification's step to the next instruction, as a jump. -/
theorem next_eq (h : Hart) : h.next = goto h (h.pc + 4) := rfl

/-- The two instructions of `la` leave the symbol in the register. -/
theorem Placed.la {rd : Reg} {symbol : Word} (is : List Inst)
    (hPlaced : Placed prog a (Program.la rd symbol ++ is)) (hPc : h.pc = a)
    (hRest : Inevitable (Steps (instStep prog)) Q (goto (h.set rd symbol) (after a 2))) :
    Inevitable (Steps (instStep prog)) Q h := by
  refine hPlaced.step hPc rfl (Placed.step hPlaced.2 ?_ rfl ?_)
  · rw [pc_set, next_eq, hPc]
    rfl
  · have hPc' : h.pc + 4 + 4 = after a 2 := by
      rw [hPc, BitVec.add_assoc]
      rfl
    convert hRest using 1
    simp only [next_eq, set_goto, pc_goto, goto_goto, set_set, get_goto, hPc']
    by_cases hrd : rd = 0
    · simp [hrd]
    · rw [get_set_self _ _ _ hrd, ImmOp.value, hi_add_lo]

end Running

/-! ## Native assembly -/

/-- The instructions of a line that stands at `pc`. -/
def Line.native (pc : Word) : Line → List Inst
  | .load f rd rs1 imm => [.load f rd rs1 imm]
  | .store f rs1 rs2 imm => [.store f rs1 rs2 imm]
  | .opImm f rd rs1 imm => [.opImm f rd rs1 imm]
  | .shiftImm f rd rs1 shamt => [.shiftImm f rd rs1 shamt]
  | .op f rd rs1 rs2 => [.op f rd rs1 rs2]
  | .not rd rs => [.opImm .xori rd rs (-1)]
  | .seqz rd rs => [.opImm .sltiu rd rs 1]
  | .sltz rd rs => [.op .slt rd rs zero]
  | .lui rd imm => [.lui rd imm]
  | .la rd symbol => Program.la rd symbol
  | .branch f rs1 rs2 target => [.branch f rs1 rs2 ((target - pc).setWidth 13)]
  | .jal rd target => [.jal rd ((target - pc).setWidth 21)]
  | .jalr rd rs1 imm => [.jalr rd rs1 imm]

/-- The target of the line is within reach of its offset. -/
def Line.Near (pc : Word) : Line → Prop
  | .branch _ _ _ target => ((target - pc).setWidth 13).signExtend 32 = target - pc
  | .jal _ target => ((target - pc).setWidth 21).signExtend 32 = target - pc
  | _ => True

section Native

variable {prog : Image} {code : Code} {Q : Hart → Prop} {h : Hart}

/-- The instructions of a line that is assembled natively do what the line does. -/
theorem native_line {l : Line} (hPlaced : Placed prog h.pc (l.native h.pc)) (hNear : l.Near h.pc)
    (hRest : Inevitable (Steps (instStep prog)) Q
      (l.exec (after h.pc (l.native h.pc).length) h)) :
    Inevitable (Steps (instStep prog)) Q h := by
  have hNext : after h.pc 1 = h.pc + 4 := rfl
  have hBack : ∀ t : Word, h.pc + (t - h.pc) = t := fun t => by
    rw [BitVec.add_comm, BitVec.sub_add_cancel]
  cases l with
  | la rd symbol =>
      exact Placed.la [] hPlaced rfl hRest
  | branch f rs1 rs2 target =>
      refine Placed.step hPlaced rfl ?_ hRest
      simp only [exec, Line.exec, Line.native, List.length_singleton, hNext]
      split
      · rw [hNear, hBack]
        rfl
      · rfl
  | jal rd target =>
      refine Placed.step hPlaced rfl ?_ hRest
      simp only [exec, Line.exec, Line.native, List.length_singleton, hNext]
      rw [hNear, hBack]
      rfl
  | jalr rd rs1 imm => exact Placed.step hPlaced rfl rfl hRest
  | store f rs1 rs2 imm => exact Placed.step hPlaced rfl rfl hRest
  | not rd rs =>
      refine Placed.step hPlaced rfl (congrArg Except.ok ?_) hRest
      rw [ImmOp.value, show (-1 : BitVec 12).signExtend 32 = BitVec.allOnes 32 by decide,
        BitVec.xor_allOnes, Line.exec, ← set_goto]
      rfl
  | seqz rd rs =>
      refine Placed.step hPlaced rfl (congrArg Except.ok ?_) hRest
      have hOne : ImmOp.sltiu.value (h.get rs) ((1 : BitVec 12).signExtend 32) =
          setIf (h.get rs = 0) := by
        have hIff : (h.get rs).toNat < ((1 : BitVec 12).signExtend 32).toNat ↔ h.get rs = 0 := by
          rw [show ((1 : BitVec 12).signExtend 32).toNat = 1 by decide, Nat.lt_one_iff,
            toNat_eq_zero_iff]
        simp only [ImmOp.value, hIff]
      rw [hOne, Line.exec, ← set_goto]
      rfl
  | load | opImm | shiftImm | op | sltz | lui =>
      exact Placed.step hPlaced rfl (congrArg Except.ok (set_goto ..)) hRest

/-- **Native assembly keeps what a program does**: whatever every run of the
assembly source comes to, every run of its instructions comes to. -/
theorem native_refines (hReal : Realises prog Line.native code)
    (hNear : ∀ a l next, code a = some (l, next) → l.Near a)
    (hRun : Inevitable (Steps (lineStep code)) Q h) : Inevitable (Steps (instStep prog)) Q h := by
  have hSim : Inevitable (Steps (instStep prog)) (fun t => ∃ s, Q s ∧ s = t) h := by
    refine hRun.transfer (R := Eq) ?_ rfl
    rintro s _ rfl ⟨s', hStep⟩
    obtain ⟨p, hAt, rfl⟩ := Option.map_eq_some_iff.mp hStep
    obtain ⟨hPlaced, hNext⟩ := hReal s.pc p.1 p.2 hAt
    refine native_line hPlaced (hNear _ _ _ hAt) (.here ⟨_, hStep, ?_⟩)
    rw [← hNext]
  refine hSim.mono fun t ht => ?_
  obtain ⟨s, hQ, rfl⟩ := ht
  exact hQ

end Native

/-! ## A layout

Lines of one instruction each, from address zero on. -/

/-- The mask of an indirect jump leaves even addresses alone. -/
theorem and_not_one {x : Word} (hEven : x.toNat % 2 = 0) : x &&& ~~~1#32 = x := by
  apply BitVec.eq_of_getLsbD_eq
  intro j hj
  have hMask : ∀ j < 32, (~~~1#32).getLsbD j = decide (j ≠ 0) := by decide
  rw [BitVec.getLsbD_and, hMask j hj]
  cases j with
  | zero =>
      have hLow : x.getLsbD 0 = false := by
        rw [BitVec.getLsbD, Nat.testBit_zero, hEven]
        rfl
      rw [hLow, Bool.false_and]
  | succ j => simp

section Layout

variable (lines : List Line)

/-- A layout with four bytes a line. -/
def flatLoc (i : Nat) : Word := BitVec.ofNat 32 (4 * i)

def flatCode : Code := fun a =>
  if a.toNat % 4 = 0 then lines[a.toNat / 4]?.map fun l => (l, a + 4) else none

def flatImage : Image := fun a => (flatCode lines a).bind fun p => (p.1.native a).head?

instance (pc : Word) (l : Line) : Decidable (l.Near pc) := by
  cases l <;> unfold Line.Near <;> infer_instance

/-- Every line stands where an indirect jump can go. -/
theorem flatLoc_even (i : Nat) : flatLoc i &&& ~~~1#32 = flatLoc i := by
  refine and_not_one ?_
  rw [flatLoc, BitVec.toNat_ofNat]
  omega

variable {lines}

theorem flatCode_installed (hFit : 4 * lines.length ≤ 4294967296) :
    Installed (flatCode lines) flatLoc lines := by
  intro i hi
  have hAt : (flatLoc i).toNat = 4 * i := by
    rw [flatLoc, BitVec.toNat_ofNat]
    omega
  have hNext : flatLoc i + 4 = flatLoc (i + 1) := by
    rw [flatLoc, flatLoc, Nat.mul_succ, BitVec.ofNat_add]
    rfl
  rw [flatCode, hAt, if_pos (by omega), show 4 * i / 4 = i by omega, List.getElem?_eq_getElem hi,
    Option.map_some, hNext]

/-- A line of the program, by its address. -/
theorem flatCode_some {a : Word} {l : Line} {next : Word}
    (hAt : flatCode lines a = some (l, next)) :
    ∃ i, ∃ h : i < lines.length, a = flatLoc i ∧ lines[i] = l ∧ next = a + 4 := by
  unfold flatCode at hAt
  split at hAt
  · next hAligned =>
      obtain ⟨l', hGet, hEq⟩ := Option.map_eq_some_iff.mp hAt
      obtain ⟨hLt, hLine⟩ := List.getElem?_eq_some_iff.mp hGet
      obtain ⟨rfl, rfl⟩ := Prod.mk.inj hEq
      refine ⟨a.toNat / 4, hLt, BitVec.eq_of_toNat_eq ?_, hLine, rfl⟩
      rw [flatLoc, BitVec.toNat_ofNat]
      omega
  · cases hAt

theorem flatImage_realises (hOne : ∀ l ∈ lines, ∀ pc, (l.native pc).length = 1) :
    Realises (flatImage lines) Line.native (flatCode lines) := by
  intro a l next hAt
  obtain ⟨i, hi, rfl, hLine, rfl⟩ := flatCode_some hAt
  have hLen := hOne l (hLine ▸ List.getElem_mem hi) (flatLoc i)
  obtain ⟨inst, hInst⟩ := List.length_eq_one_iff.mp hLen
  refine ⟨?_, by rw [hLen]; rfl⟩
  rw [hInst]
  refine ⟨?_, trivial⟩
  rw [flatImage, hAt, Option.bind_some, hInst]
  rfl

/-- Branches within reach of their targets, for every line of the layout. -/
theorem flatCode_near (hNear : ∀ i (h : i < lines.length), lines[i].Near (flatLoc i)) {a : Word}
    {l : Line} {next : Word} (hAt : flatCode lines a = some (l, next)) : l.Near a := by
  obtain ⟨i, hi, rfl, rfl, -⟩ := flatCode_some hAt
  exact hNear i hi

end Layout

end Riscv32.Program
