import Riscv32.Am.Cte
import Riscv32.Isa.Arith

/-!
# What `trap.S` does

The frame below the stack pointer takes every register but `sp`, which comes
back as the frame's end; the rest of the memory is left alone.  `mepc` goes
through the frame, where `__am_irq_handle` moves it on.

Pushing and popping are inductions over the list of registers (`runAsm_push`,
`runAsm_pop`), so the proofs do not grow with the register file.  The frame is
described by what it holds (`savedWords`) and read back with the lemmas of
`Data.Frames`.

`trap_ecall` is the result: the handler is called with the context of the yielding
code, and the hart goes on from the context it returns.
-/

namespace Riscv32.Am.Cte

open Riscv32.Data
open Riscv32.Rtl (Word)
open Riscv32.Isa (Reg Hart Env Inst)

/-! ## Words of the specification -/

theorem lw_value (mem : Bytes) (a : Word) : Isa.LoadOp.lw.value mem a = mem.loadWord a := by
  rw [Isa.LoadOp.value, ← Isa.toNat_word, BitVec.ofNat_toNat, BitVec.setWidth_eq, Bytes.loadWord]

theorem storeBytes_word (mem : Bytes) (a v : Word) :
    Isa.storeBytes mem a 4 v = mem.storeWord a v := by
  funext x
  simp only [Isa.storeBytes, Bytes.storeWord, Isa.extractLsb'_byte]

/-! ## Registers -/

section Registers

variable {h : Hart} {r s : Reg} {v : Word}

@[simp] theorem get_next : h.next.get s = h.get s := rfl

theorem get_set_self (hr : r ≠ 0) : (h.set r v).get r = v := by
  simp only [Hart.get, Hart.set, if_neg hr, if_true]

theorem get_set_ne (hs : s ≠ r) : (h.set r v).get s = h.get s := by
  unfold Hart.set
  split
  · rfl
  · simp only [Hart.get, if_neg hs]

@[simp] theorem mem_set : (h.set r v).mem = h.mem := by
  unfold Hart.set
  split <;> rfl

@[simp] theorem mem_next : h.next.mem = h.mem := rfl

end Registers

/-! ## Straight-line code -/

section Code

variable {env : Env} {c : Cpu}

theorem runAsm_nil : runAsm env [] c = some c := rfl

theorem runAsm_cons (a : Asm) (code : List Asm) :
    runAsm env (a :: code) c = (a.exec env c).bind (runAsm env code) := rfl

theorem runAsm_step {a : Asm} {code : List Asm} {c' : Cpu} (h : a.exec env c = some c') :
    runAsm env (a :: code) c = runAsm env code c' := by
  rw [runAsm_cons, h, Option.bind_some]

theorem runAsm_append (code code' : List Asm) :
    runAsm env (code ++ code') c = (runAsm env code c).bind (runAsm env code') := by
  rw [runAsm, List.foldlM_append]
  rfl

/-- A register number. -/
theorem toNat_reg {n : Nat} (h : n < 16) : (BitVec.ofNat 5 n).toNat = n := by
  rw [BitVec.toNat_ofNat]
  exact Nat.mod_eq_of_lt (by omega)

theorem reg_ne {n : Nat} {r : Reg} (h : n < 16) (hNe : n ≠ r.toNat) : BitVec.ofNat 5 n ≠ r := by
  rintro rfl
  exact hNe (toNat_reg h).symm

/-- The immediate of a slot. -/
theorem slot_imm (f : Word) {i : Nat} (h : i < 20) :
    f + (BitVec.ofNat 12 (i * xlen)).signExtend 32 = slot f i := by
  have hImm : ∀ i < 20, (BitVec.ofNat 12 (i * xlen)).signExtend 32 = BitVec.ofNat 32 (4 * i) := by
    decide
  rw [hImm i h, slot]

theorem exec_store (rs : Reg) {i : Nat} (hi : i < 20)
    (hStore : env.canStore (slot (c.hart.get sp) i) 4 = true) :
    (store rs (i * xlen)).exec env c = some { c with
      hart := { c.hart.next with
        mem := c.mem.storeWord (slot (c.hart.get sp) i) (c.hart.get rs) } } := by
  simp only [store, Asm.exec, Isa.exec, slot_imm _ hi, Isa.StoreOp.bytes, hStore, if_true,
    storeBytes_word]

theorem exec_load (rd : Reg) {i : Nat} (hi : i < 20)
    (hLoad : env.canLoad (slot (c.hart.get sp) i) 4 = true) :
    (load rd (i * xlen)).exec env c = some { c with
      hart := c.hart.next.set rd (c.mem.loadWord (slot (c.hart.get sp) i)) } := by
  simp only [load, Asm.exec, Isa.exec, slot_imm _ hi, Isa.LoadOp.bytes, hLoad, if_true, lw_value]

/-- `MAP(REGS, PUSH)`, for any registers. -/
theorem runAsm_push {ns : List Nat} (hns : ∀ n ∈ ns, n < 16)
    (hStore : ∀ i < 20, env.canStore (slot (c.hart.get sp) i) 4 = true) :
    ∃ pc, runAsm env (ns.map push) c = some { c with
      hart := { c.hart with
        pc := pc
        mem := storeFrame c.mem (c.hart.get sp)
          (ns.map fun n => (n, c.hart.get (BitVec.ofNat 5 n))) } } := by
  induction ns generalizing c with
  | nil => exact ⟨c.hart.pc, rfl⟩
  | cons n ns ih =>
      have hn := hns n (by simp)
      obtain ⟨pc, hRun⟩ := ih (c := { c with
        hart := { c.hart.next with
          mem := c.mem.storeWord (slot (c.hart.get sp) n) (c.hart.get (BitVec.ofNat 5 n)) } })
        (fun m hm => hns m (by simp [hm])) hStore
      refine ⟨pc, ?_⟩
      rw [List.map_cons, runAsm_cons, push, exec_store _ (by omega) (hStore n (by omega)),
        Option.bind_some, hRun]
      rfl

/-- `MAP(REGS, POP)`, for any registers but `zero` and `sp`. -/
theorem runAsm_pop {ns : List Nat} (hns : ∀ n ∈ ns, n < 16 ∧ n ≠ 0 ∧ n ≠ 2)
    (hLoad : ∀ i < 20, env.canLoad (slot (c.hart.get sp) i) 4 = true) :
    ∃ c', runAsm env (ns.map pop) c = some c' ∧
      (∀ r, c'.hart.get r = if r.toNat ∈ ns then
        c.mem.loadWord (slot (c.hart.get sp) r.toNat) else c.hart.get r) ∧
      c'.mem = c.mem ∧ c'.mepc = c.mepc ∧ c'.mtvec = c.mtvec := by
  induction ns generalizing c with
  | nil => exact ⟨c, rfl, by simp, rfl, rfl, rfl⟩
  | cons n ns ih =>
      obtain ⟨hn, hZero, hSp⟩ := hns n (by simp)
      have hRegZero : BitVec.ofNat 5 n ≠ 0 := reg_ne hn hZero
      have hRegSp : sp ≠ BitVec.ofNat 5 n := (reg_ne hn (r := sp) hSp).symm
      have hSame : ∀ v, (c.hart.next.set (BitVec.ofNat 5 n) v).get sp = c.hart.get sp :=
        fun v => get_set_ne hRegSp
      obtain ⟨c', hRun, hGet, hMem, hEpc, hVec⟩ := ih (c := { c with
        hart := c.hart.next.set (BitVec.ofNat 5 n) (c.mem.loadWord (slot (c.hart.get sp) n)) })
        (fun m hm => hns m (by simp [hm])) (by simpa only [hSame] using hLoad)
      simp only [hSame, Cpu.mem, mem_set, mem_next] at hGet hMem
      refine ⟨c', ?_, fun r => ?_, hMem, hEpc, hVec⟩
      · rw [List.map_cons, runAsm_cons, pop, exec_load _ (by omega) (hLoad n (by omega)),
          Option.bind_some, hRun]
      · rw [hGet r]
        by_cases hr : r.toNat ∈ ns
        · simp [hr]
        · by_cases hEq : r = BitVec.ofNat 5 n
          · simp [hEq, toNat_reg hn, get_set_self hRegZero]
          · have hNe : r.toNat ≠ n := by
              rintro rfl
              exact hEq (by simp)
            simp [hr, hNe, get_set_ne hEq]

/-- A store to the frame at `f`. -/
theorem runAsm_store (rs : Reg) {i : Nat} {f : Word} {code : List Asm} (hi : i < 20)
    (hStore : env.canStore (slot f i) 4 = true) (hSp : c.hart.get sp = f) :
    runAsm env (store rs (i * xlen) :: code) c = runAsm env code { c with
      hart := { c.hart.next with
        mem := c.mem.storeWord (slot f i) (c.hart.get rs) } } := by
  subst hSp
  exact runAsm_step (exec_store rs hi hStore)

/-- A load from the frame at `f`. -/
theorem runAsm_load (rd : Reg) {i : Nat} {f : Word} {code : List Asm} (hi : i < 20)
    (hLoad : env.canLoad (slot f i) 4 = true) (hSp : c.hart.get sp = f) :
    runAsm env (load rd (i * xlen) :: code) c = runAsm env code { c with
      hart := c.hart.next.set rd (c.mem.loadWord (slot f i)) } := by
  subst hSp
  exact runAsm_step (exec_load rd hi hLoad)

/-- The CSRs on their way to the frame. -/
theorem runAsm_saveCsrs (hStore : ∀ i < 20, env.canStore (slot (c.hart.get sp) i) 4 = true) :
    ∃ c', runAsm env [.csrr t0 .mcause, .csrr t1 .mstatus, .csrr t2 .mepc, store t0 offsetCause,
        store t1 offsetStatus, store t2 offsetEpc, mv a0 sp] c = some c' ∧
      c'.hart.get a0 = c.hart.get sp ∧
      c'.mem = storeFrame c.mem (c.hart.get sp)
        [(Member.mcause.index, c.mcause), (Member.mstatus.index, c.mstatus),
          (Member.mepc.index, c.mepc)] ∧
      c'.mtvec = c.mtvec := by
  obtain ⟨hCause, hStatus, hEpc⟩ := offsets_members
  rw [hCause, hStatus, hEpc, runAsm_step rfl, runAsm_step rfl, runAsm_step rfl,
    runAsm_store t0 (by decide) (hStore Member.mcause.index (by decide)),
    runAsm_store t1 (by decide) (hStore Member.mstatus.index (by decide)),
    runAsm_store t2 (by decide) (hStore Member.mepc.index (by decide)),
    runAsm_step rfl]
  refine ⟨_, rfl, ?_, rfl, rfl⟩
  · rw [get_set_self (by decide)]
    exact BitVec.add_zero _
  · rfl
  · rfl
  · rfl

/-- The CSRs on their way back. -/
theorem runAsm_restoreCsrs {f : Word} (hA0 : c.hart.get a0 = f)
    (hLoad : ∀ i < 20, env.canLoad (slot f i) 4 = true) :
    ∃ c', runAsm env [mv sp a0, load t1 offsetStatus, load t2 offsetEpc, .csrw .mstatus t1,
        .csrw .mepc t2] c = some c' ∧
      c'.hart.get sp = f ∧ c'.mem = c.mem ∧
      c'.mepc = c.mem.loadWord (slot f Member.mepc.index) ∧ c'.mtvec = c.mtvec := by
  have hSp : (c.hart.next.set sp (c.hart.get a0 + 0)).get sp = f := by
    rw [get_set_self (by decide), hA0]
    exact BitVec.add_zero f
  obtain ⟨-, hStatus, hEpc⟩ := offsets_members
  rw [hStatus, hEpc, runAsm_step rfl,
    runAsm_load t1 (by decide) (hLoad Member.mstatus.index (by decide)),
    runAsm_load t2 (by decide) (hLoad Member.mepc.index (by decide)), runAsm_step rfl,
    runAsm_step rfl]
  · refine ⟨_, rfl, hSp, rfl, rfl, rfl⟩
  · exact hSp
  · exact hSp

theorem exec_addiSp (imm : Int) : (addiSp imm).exec env c = some { c with
    hart := c.hart.next.set sp (c.hart.get sp + (BitVec.ofInt 12 imm).signExtend 32) } := rfl

/-- What `asmSave` stores. -/
def savedWords (c : Cpu) : List (Nat × Word) :=
  (regs.map fun n => (n, c.hart.get (BitVec.ofNat 5 n))) ++
    [(Member.mcause.index, c.mcause), (Member.mstatus.index, c.mstatus),
      (Member.mepc.index, c.mepc)]

/-- The context of the running code. -/
def frameOf (c : Cpu) : Word := c.hart.get sp - BitVec.ofNat 32 sizeofContext

theorem regs_ne_sp : ∀ n ∈ regs, BitVec.ofNat 5 n ≠ sp := by decide

/-- Everything up to the call of `__am_irq_handle`. -/
theorem runAsm_save (hStore : ∀ i < 20, env.canStore (slot (frameOf c) i) 4 = true) :
    ∃ c', runAsm env asmSave c = some c' ∧ c'.hart.get a0 = frameOf c ∧
      c'.mem = storeFrame c.mem (frameOf c) (savedWords c) ∧ c'.mtvec = c.mtvec := by
  have hImm : (BitVec.ofInt 12 (-contextSize)).signExtend 32 = -BitVec.ofNat 32 sizeofContext := by
    decide
  let c₁ : Cpu := { c with hart := c.hart.next.set sp (frameOf c) }
  have hSp : c₁.hart.get sp = frameOf c := get_set_self (by decide)
  have hAddi : (addiSp (-contextSize)).exec env c = some c₁ := by
    rw [exec_addiSp, hImm, ← BitVec.sub_eq_add_neg]
    rfl
  have hRegs : (regs.map fun n => (n, c₁.hart.get (BitVec.ofNat 5 n))) =
      regs.map fun n => (n, c.hart.get (BitVec.ofNat 5 n)) := by
    refine List.map_congr_left fun n hn => ?_
    rw [show c₁.hart.get (BitVec.ofNat 5 n) = c.hart.get (BitVec.ofNat 5 n) from
      get_set_ne (regs_ne_sp n hn)]
  have hMem : c₁.mem = c.mem := mem_set
  obtain ⟨pc, hPush⟩ := runAsm_push (c := c₁) (show ∀ n ∈ regs, n < 16 by decide)
    (hSp.symm ▸ hStore)
  rw [hSp, hRegs, hMem] at hPush
  let c₂ : Cpu := { c₁ with
    hart := { c₁.hart with
      pc := pc
      mem := storeFrame c.mem (frameOf c)
        (regs.map fun n => (n, c.hart.get (BitVec.ofNat 5 n))) } }
  have hStore₂ : ∀ i < 20, env.canStore (slot (c₂.hart.get sp) i) 4 = true := hSp.symm ▸ hStore
  obtain ⟨c', hRun, hA0, hStored, hVec⟩ := runAsm_saveCsrs hStore₂
  refine ⟨c', ?_, hA0.trans hSp, ?_, hVec⟩
  · rw [asmSave, runAsm_step hAddi, runAsm_append, hPush, Option.bind_some, hRun]
  · rw [hStored, savedWords, storeFrame_append]
    exact congrArg (storeFrame _ · _) hSp

/-- The hart goes on from the context at `f`. -/
structure ResumedFrom (mem : Bytes) (f : Word) (c : Cpu) : Prop where
  gpr : ∀ n ∈ regs, c.hart.get (BitVec.ofNat 5 n) = mem.loadWord (member f (.gpr n))
  sp : c.hart.get sp = f + BitVec.ofNat 32 sizeofContext
  pc : c.hart.pc = mem.loadWord (member f .mepc)
  mem : c.mem = mem

/-- Everything behind the call. -/
theorem runAsm_restore {f : Word} (hA0 : c.hart.get a0 = f)
    (hLoad : ∀ i < 20, env.canLoad (slot f i) 4 = true) :
    ∃ c', runAsm env asmRestore c = some c' ∧ ResumedFrom c.mem f c' ∧ c'.mtvec = c.mtvec := by
  have hImm : (BitVec.ofInt 12 contextSize).signExtend 32 = BitVec.ofNat 32 sizeofContext := by
    decide
  obtain ⟨c₁, hCsrs, hSp, hMem, hEpc, hVec⟩ := runAsm_restoreCsrs hA0 hLoad
  obtain ⟨c₂, hPop, hGet, hMem₂, hEpc₂, hVec₂⟩ := runAsm_pop (c := c₁)
    (show ∀ n ∈ regs, n < 16 ∧ n ≠ 0 ∧ n ≠ 2 by decide) (hSp.symm ▸ hLoad)
  rw [hSp, hMem] at hGet
  have hSp₂ : c₂.hart.get sp = f := by rw [hGet sp, if_neg (by decide), hSp]
  rw [asmRestore, runAsm_append, hCsrs, Option.bind_some, runAsm_append, hPop, Option.bind_some,
    runAsm_step (exec_addiSp _), hImm, hSp₂, runAsm_step rfl, runAsm_nil]
  refine ⟨_, rfl, ⟨fun n hn => ?_, get_set_self (h := c₂.hart.next) (by decide),
    hEpc₂.trans hEpc, mem_set.trans (hMem₂.trans hMem)⟩, hVec₂.trans hVec⟩
  have hReg : (BitVec.ofNat 5 n).toNat = n := toNat_reg ((show ∀ n ∈ regs, n < 16 by decide) n hn)
  have hKept := hGet (BitVec.ofNat 5 n)
  rw [hReg, if_pos hn] at hKept
  exact (get_set_ne (regs_ne_sp n hn)).trans hKept

end Code

/-! ## A yield -/

section Yield

variable {env : Env} {c : Cpu}

/-- The memory `user_handler` is called with when `c` yields. -/
def yieldMem (c : Cpu) : Bytes :=
  (storeFrame c.mem (frameOf c) (savedWords c.ecall)).storeWord (member (frameOf c) .mepc)
    (c.hart.pc + 4)

/-- A context does not wrap around. -/
def Placed (f : Word) : Prop := f.toNat + 4 * 20 ≤ 4294967296

theorem savedWords_lt : ∀ w ∈ savedWords c, w.1 < 20 := by
  intro w hw
  rw [savedWords, List.mem_append] at hw
  rcases hw with hw | hw
  · obtain ⟨n, hn, rfl⟩ := List.mem_map.1 hw
    exact (show ∀ n ∈ regs, n < 20 by decide) n hn
  · revert w
    simp [Member.index, nrRegs]

theorem savedWords_nodup : ((savedWords c).map Prod.fst).Nodup := by
  have hFst : (savedWords c).map Prod.fst = regs ++ [16, 17, 18] := by
    simp [savedWords, Function.comp_def, Member.index]
  rw [hFst]
  decide

/-- Outside the context nothing changes. -/
theorem yieldMem_outside (hPlaced : Placed (frameOf c)) {x : Word}
    (hx : ¬ InRange (frameOf c) (4 * 20) x) : yieldMem c x = c.mem x := by
  have hSlot : (slot (frameOf c) 18).toNat = (frameOf c).toNat + 4 * 18 :=
    toNat_slot hPlaced (by decide)
  have hFit : (slot (frameOf c) 18).toNat + 4 ≤ 4294967296 := by
    unfold Placed at hPlaced
    omega
  rw [yieldMem, member, show Member.mepc.index = 18 from rfl,
    storeWord_outside hFit fun hIn => hx (inRange_of_slot hPlaced (by decide) hIn)]
  exact storeFrame_outside hPlaced savedWords_lt hx

theorem yieldMem_gpr (hPlaced : Placed (frameOf c)) {n : Nat} (hn : n ∈ regs) :
    (yieldMem c).loadWord (member (frameOf c) (.gpr n)) = c.hart.get (BitVec.ofNat 5 n) := by
  have hLt : n < 16 := (show ∀ n ∈ regs, n < 16 by decide) n hn
  have hNe : n ≠ Member.mepc.index := by
    simp only [Member.index, nrRegs]
    omega
  rw [yieldMem, member, member, loadWord_storeWord_slot hPlaced (by decide)
    (show (Member.gpr n).index < 20 by simp only [Member.index]; omega) hNe]
  exact loadWord_storeFrame_of_mem hPlaced savedWords_lt savedWords_nodup
    (List.mem_append_left _ (List.mem_map.2 ⟨n, hn, rfl⟩))

theorem yieldMem_mepc : (yieldMem c).loadWord (member (frameOf c) .mepc) = c.hart.pc + 4 := by
  rw [yieldMem, loadWord_storeWord]

/-- **A yield through `trap.S`**: the handler is called with the context of the
yielding code, and the hart goes on from the context it returns. -/
theorem trap_ecall (userHandler : Handler) (hPlaced : Placed (frameOf c))
    (hStore : ∀ i < 20, env.canStore (slot (frameOf c) i) 4 = true) :
    ∃ h : Hart, h.mem = yieldMem c ∧ ∀ r, userHandler .yield (frameOf c) h = r →
      r.context ≠ 0 → (∀ i < 20, env.canLoad (slot r.context i) 4 = true) →
      ∃ c', trap env (some userHandler) c.ecall = some c' ∧
        ResumedFrom r.hart.mem r.context c' ∧ c'.mtvec = c.mtvec := by
  have hStore' : ∀ i < 20, env.canStore (slot (frameOf c.ecall) i) 4 = true := hStore
  obtain ⟨c₁, hSave, hA0, hMem, hVec⟩ := runAsm_save hStore'
  have hSaved : ∀ {i v}, (i, v) ∈ savedWords c.ecall →
      c₁.mem.loadWord (slot (frameOf c) i) = v := by
    intro i v hMem'
    rw [hMem]
    exact loadWord_storeFrame_of_mem hPlaced savedWords_lt savedWords_nodup hMem'
  have hCause : c₁.mem.loadWord (member (frameOf c) .mcause) = 11 :=
    hSaved (List.mem_append_right _ (List.mem_cons_self ..))
  have hEpc : c₁.mem.loadWord (member (frameOf c) .mepc) = c.hart.pc :=
    hSaved (List.mem_append_right _ (by simp [Cpu.ecall]))
  have hEvent : irqEvent (frameOf c) c₁.mem = (.yield, yieldMem c) := by
    rw [irqEvent, if_pos hCause, hEpc, hMem]
    rfl
  refine ⟨{ c₁.hart with mem := yieldMem c }, rfl, fun r hCall hNull hLoad => ?_⟩
  have hIrq : irqHandle (some userHandler) c₁.hart = some (r.hart.set a0 r.context) := by
    have hFrame : c₁.hart.get a0 = frameOf c := hA0
    simp only [irqHandle, hFrame, hEvent, hCall, if_neg hNull]
  have hA0' : ({ c₁ with hart := r.hart.set a0 r.context } : Cpu).hart.get a0 = r.context :=
    get_set_self (by decide)
  obtain ⟨c', hRestore, hResumed, hVec'⟩ := runAsm_restore hA0' hLoad
  refine ⟨c', ?_, ?_, hVec'.trans hVec⟩
  · simp only [trap, hSave, hIrq, hRestore, bind, Option.bind]
  · have hHandled : Cpu.mem { c₁ with hart := r.hart.set a0 r.context } = r.hart.mem := mem_set
    rwa [hHandled] at hResumed

end Yield

end Riscv32.Am.Cte
