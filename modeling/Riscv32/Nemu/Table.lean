import Riscv32.Isa.Rv32im
import Riscv32.Lockstep.Fields

/-!
# NEMU's pattern table against the encodings

Which lines of the table accept a word, read off its fields.  Every legal
RV32IM word has its own line and no other, except FENCE: the line named `fence`
has the function field of FENCE.I.

The fields decide: outside the system opcode a line accepts a word exactly if
they fit (`accepts_eq_fits`), and which lines fit a legal word is a finite
question about the opcode and the two function fields (`matching_of_fitting`).

`table_covers_iff` is the equivalence for every legal word; `fence_reaches_inv`
the word that has no line.
-/

namespace Riscv32.Nemu

open Riscv32.Rtl
open Riscv32.Lockstep

/-- The lines before the last that accept the word. -/
def matching (w : Word) : List Name := (instpats.dropLast.filter (·.accepts w)).map Row.name

/-- The line that `decode_exec` runs. -/
def reached (w : Word) : Option Name := (instpats.find? (·.accepts w)).map Row.name

/-- The line `n` and no other accepts the word, and the last line is not reached. -/
structure Covered (w : Word) (n : Name) : Prop where
  unique : matching w = [n]
  notInv : reached w ≠ some .inv

/-- The line of an instruction. -/
def nameOf : Isa.Inst → Name
  | .lui _ _ => .lui
  | .auipc _ _ => .auipc
  | .jal _ _ => .jal
  | .jalr _ _ _ => .jalr
  | .branch op _ _ _ =>
      match op with
      | .beq => .beq | .bne => .bne | .blt => .blt | .bge => .bge | .bltu => .bltu | .bgeu => .bgeu
  | .load op _ _ _ =>
      match op with
      | .lb => .lb | .lh => .lh | .lw => .lw | .lbu => .lbu | .lhu => .lhu
  | .store op _ _ _ =>
      match op with
      | .sb => .sb | .sh => .sh | .sw => .sw
  | .opImm op _ _ _ =>
      match op with
      | .addi => .addi | .slti => .slti | .sltiu => .sltiu | .xori => .xori | .ori => .ori
      | .andi => .andi
  | .shiftImm op _ _ _ =>
      match op with
      | .slli => .slli | .srli => .srli | .srai => .srai
  | .op op _ _ _ =>
      match op with
      | .add => .add | .sub => .sub | .sll => .sll | .slt => .slt | .sltu => .sltu | .xor => .xor
      | .srl => .srl | .sra => .sra | .or => .or | .and => .and | .mul => .mul | .mulh => .mulh
      | .mulhsu => .mulhsu | .mulhu => .mulhu | .div => .div | .divu => .divu | .rem => .rem
      | .remu => .remu
  | .fence _ _ _ => .fence
  | .ecall => .ecall
  | .ebreak => .ebreak

/-! ## Lines by fields -/

/-- The test of a line on the fields of a word outside the system opcode. -/
def fits (op : BitVec 7) (f3 : BitVec 3) (f7 : BitVec 7) (n : Name) : Bool :=
  match encOf n with
  | some (.opcode op') => op == op'
  | some (.funct3 op' f3') => op == op' && f3 == f3'
  | some (.funct7 op' f3' f7') => op == op' && f3 == f3' && f7 == f7'
  | some (.word _) => false
  | none => false

/-- The lines whose fields these are. -/
def fitting (op : BitVec 7) (f3 : BitVec 3) (f7 : BitVec 7) : List Name :=
  (instpats.dropLast.map Row.name).filter (fits op f3 f7)

/-- The lines before the last have fields; those with a whole word are system
instructions. -/
theorem enc_of_mem {r : Row} (h : r ∈ instpats.dropLast) :
    ∃ e, encOf r.name = some e ∧ patternDecode (cBytes r.pattern) = some e.pattern ∧
      ∀ v, e = .word v → Rtl.opcode v = 0b1110011#7 := by
  have hRow := List.all_eq_true.mp instpats_pattern r (List.mem_of_mem_dropLast h)
  have hName : ∀ r ∈ instpats.dropLast, r.name ≠ .inv := by decide
  simp only [Bool.and_eq_true, Bool.or_eq_true, beq_iff_eq, hName r h, false_or] at hRow
  have hEnc : ∀ n : Name, n ≠ .inv → ∃ e, encOf n = some e ∧
      ∀ v, e = .word v → Rtl.opcode v = 0b1110011#7 := by
    intro n hn
    cases n <;> first | exact absurd rfl hn | refine ⟨_, rfl, ?_⟩
    all_goals
      intro v hv
      cases hv
    all_goals decide
  obtain ⟨e, he, hWord⟩ := hEnc r.name (hName r h)
  refine ⟨e, he, ?_, hWord⟩
  rw [hRow.2, he]
  rfl

/-- Outside the system opcode a line accepts a word by its fields. -/
theorem accepts_eq_fits {r : Row} (h : r ∈ instpats.dropLast) {w : Word}
    (hOp : Rtl.opcode w ≠ 0b1110011#7) :
    r.accepts w = fits (Rtl.opcode w) (Rtl.funct3 w) (Rtl.funct7 w) r.name := by
  obtain ⟨e, he, hPat, hWord⟩ := enc_of_mem h
  have hAccepts : r.accepts w = true ↔ e.holds w := by
    unfold Row.accepts
    rw [hPat]
    exact Enc.accepts_iff
  rw [Bool.eq_iff_iff, hAccepts, fits, he]
  cases e with
  | opcode op => simp [Enc.holds]
  | funct3 op f3 => simp [Enc.holds]
  | funct7 op f3 f7 => simp [Enc.holds, and_assoc]
  | word v =>
      simp only [Enc.holds, Bool.false_eq_true, iff_false]
      rintro rfl
      exact hOp (hWord w rfl)

theorem matching_eq {w : Word} (hOp : Rtl.opcode w ≠ 0b1110011#7) :
    matching w = fitting (Rtl.opcode w) (Rtl.funct3 w) (Rtl.funct7 w) := by
  rw [matching, fitting, List.filter_map]
  congr 1
  exact List.filter_congr fun r hr => accepts_eq_fits hr hOp

/-! ## Every legal word -/

/-- A word with its own line does not reach the last one. -/
theorem covered_of_matching {w : Word} {n : Name} (h : matching w = [n]) (hn : n ≠ .inv) :
    Covered w n := by
  refine ⟨h, ?_⟩
  have hSplit : instpats = instpats.dropLast ++ [instpats.getLast (by decide)] :=
    (List.dropLast_append_getLast _).symm
  have hFirst : (instpats.dropLast.find? (·.accepts w)).map Row.name = some n := by
    rw [← List.head?_filter, ← List.head?_map]
    unfold matching at h
    rw [h]
    rfl
  obtain ⟨r, hr, hName⟩ := Option.map_eq_some_iff.1 hFirst
  rw [reached, hSplit, List.find?_append, hr]
  simp only [Option.some_or, Option.map_some, ne_eq, Option.some.injEq, hName]
  exact hn

section Fields

variable {f3 : BitVec 3} {f7 : BitVec 7}

theorem fitting_branch {op : Isa.BranchOp} (h : Isa.branchOp f3 = some op) :
    fitting 0b1100011#7 f3 f7 = [nameOf (.branch op 0 0 0)] := by
  unfold Isa.branchOp at h
  split at h <;> cases h <;> rfl

theorem fitting_load {op : Isa.LoadOp} (h : Isa.loadOp f3 = some op) :
    fitting 0b0000011#7 f3 f7 = [nameOf (.load op 0 0 0)] := by
  unfold Isa.loadOp at h
  split at h <;> cases h <;> rfl

theorem fitting_store {op : Isa.StoreOp} (h : Isa.storeOp f3 = some op) :
    fitting 0b0100011#7 f3 f7 = [nameOf (.store op 0 0 0)] := by
  unfold Isa.storeOp at h
  split at h <;> cases h <;> rfl

theorem fitting_opImm {op : Isa.ImmOp} (h : Isa.immOp f3 = some op) :
    fitting 0b0010011#7 f3 f7 = [nameOf (.opImm op 0 0 0)] := by
  unfold Isa.immOp at h
  split at h <;> cases h <;> rfl

theorem fitting_shiftImm {op : Isa.ShiftOp} (h : Isa.shiftOp f7 f3 = some op) :
    fitting 0b0010011#7 f3 f7 = [nameOf (.shiftImm op 0 0 0)] := by
  unfold Isa.shiftOp at h
  split at h <;> cases h <;> rfl

theorem fitting_op {op : Isa.RegOp} (h : Isa.regOp f7 f3 = some op) :
    fitting 0b0110011#7 f3 f7 = [nameOf (.op op 0 0 0)] := by
  unfold Isa.regOp at h
  split at h <;> cases h <;> rfl

end Fields

/-- Away from the system and the fence opcode the fields decide. -/
theorem matching_of_fitting {w : Word} {op : BitVec 7} {n : Name} (hOp : Isa.opcode w = op)
    (hSystem : op ≠ 0b1110011#7) (hFence : op ≠ 0b0001111#7)
    (h : fitting op (Isa.funct3 w) (Isa.funct7 w) = [n]) :
    matching w =
      if Isa.opcode w = 0b0001111#7 ∧ Isa.funct3 w = 0b000#3 then [] else [n] := by
  subst hOp
  rw [if_neg fun hBoth => hFence hBoth.1]
  exact (matching_eq hSystem).trans h

/-- The lines that fit a legal word. -/
theorem matching_of_decode {w : Word} {i : Isa.Inst} (h : Isa.decode w = some i) :
    matching w =
      if Isa.opcode w = 0b0001111#7 ∧ Isa.funct3 w = 0b000#3 then [] else [nameOf i] := by
  unfold Isa.decode at h
  split at h
  case h_1 hOp =>
    cases h
    exact matching_of_fitting hOp (by decide) (by decide) rfl
  case h_2 hOp =>
    cases h
    exact matching_of_fitting hOp (by decide) (by decide) rfl
  case h_3 hOp =>
    cases h
    exact matching_of_fitting hOp (by decide) (by decide) rfl
  case h_4 hOp =>
    split at h
    case isTrue hF3 =>
      cases h
      exact matching_of_fitting hOp (by decide) (by decide) (hF3.symm ▸ rfl)
    case isFalse => cases h
  case h_5 hOp =>
    obtain ⟨op, hBranch, rfl⟩ := Option.map_eq_some_iff.1 h
    exact matching_of_fitting hOp (by decide) (by decide) (fitting_branch hBranch)
  case h_6 hOp =>
    obtain ⟨op, hLoad, rfl⟩ := Option.map_eq_some_iff.1 h
    exact matching_of_fitting hOp (by decide) (by decide) (fitting_load hLoad)
  case h_7 hOp =>
    obtain ⟨op, hStore, rfl⟩ := Option.map_eq_some_iff.1 h
    exact matching_of_fitting hOp (by decide) (by decide) (fitting_store hStore)
  case h_8 hOp =>
    split at h
    case h_1 op hShift =>
      cases h
      exact matching_of_fitting hOp (by decide) (by decide) (fitting_shiftImm hShift)
    case h_2 =>
      obtain ⟨op, hImm, rfl⟩ := Option.map_eq_some_iff.1 h
      exact matching_of_fitting hOp (by decide) (by decide) (fitting_opImm hImm)
  case h_9 hOp =>
    obtain ⟨op, hReg, rfl⟩ := Option.map_eq_some_iff.1 h
    exact matching_of_fitting hOp (by decide) (by decide) (fitting_op hReg)
  case h_10 hOp =>
    split at h
    case isTrue hF3 =>
      rw [if_pos ⟨hOp, hF3⟩, matching_eq (hOp.trans_ne (by decide))]
      exact (congrArg₂ (fitting · · _) hOp hF3).trans rfl
    case isFalse => cases h
  case h_11 hOp =>
    -- The two system instructions are whole words.
    rw [if_neg fun hBoth => absurd (hOp.symm.trans hBoth.1) (by decide)]
    split at h
    case isTrue hWord =>
      cases h
      rw [hWord]
      decide +kernel
    case isFalse =>
      split at h
      case isTrue hWord =>
        cases h
        rw [hWord]
        decide +kernel
      case isFalse => cases h
  case h_12 => cases h

/-- **The table covers a legal word** exactly if it is not a FENCE. -/
theorem table_covers_iff {w : Word} {i : Isa.Inst} (h : Isa.decode w = some i) :
    Covered w (nameOf i) ↔ ¬ (Isa.opcode w = 0b0001111#7 ∧ Isa.funct3 w = 0b000#3) := by
  have hMatch := matching_of_decode h
  have hName : nameOf i ≠ .inv := by
    cases i with
    | branch op | load op | store op | opImm op | shiftImm op | op op => cases op <;> simp [nameOf]
    | lui | auipc | jal | jalr | fence | ecall | ebreak => simp [nameOf]
  constructor
  · intro hCovered hFence
    rw [if_pos hFence, hCovered.unique] at hMatch
    cases hMatch
  · intro hNot
    rw [if_neg hNot] at hMatch
    exact covered_of_matching hMatch hName

/-- `remu x5, x6, x7` is covered. -/
theorem table_covers_remu : Covered 0x027372b3#32 .remu := by
  have hDecode : Isa.decode 0x027372b3#32 = some (.op .remu 5 6 7) := by decide
  exact (table_covers_iff hDecode).2 (by decide)

/-- `fence iorw, iorw` is legal and reaches the last line. -/
theorem fence_reaches_inv :
    Isa.decode 0x0ff0000f#32 = some (.fence 0 0 0xff) ∧ matching 0x0ff0000f#32 = [] ∧
      reached 0x0ff0000f#32 = some .inv ∧ ¬ Covered 0x0ff0000f#32 .fence := by
  have hNone : matching 0x0ff0000f#32 = [] := by decide +kernel
  refine ⟨by decide, hNone, by decide +kernel, ?_⟩
  intro h
  rw [h.unique] at hNone
  cases hNone

end Riscv32.Nemu
