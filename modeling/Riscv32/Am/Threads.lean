import Mathlib.Logic.Function.Basic
import Riscv32.Am.Trap

/-!
# Threads on their own stacks

Threads that `kcontext` creates on disjoint stacks, and what a yield hands on.
While a thread waits, its context lies in its own stack and says how it goes on;
from there up its stack is live.  Whatever else runs writes elsewhere, so the
context is found as it was left when a handler returns it.

A run is any interleaving of steps: the running thread computes, creates a thread,
or yields (`Step`).  The handler is arbitrary, up to the room that C code needs on
a stack; how a stopped thread goes on is recorded in the thread (`Resume`) and
compared with what its context says (`Represented`).

## Main results

* `Reachable.good` — the contexts of waiting threads, in every state of a run.
* `context_switches_preserve` — every thread goes on where it stopped.
-/

namespace Riscv32.Am.Cte

open Riscv32.Data
open Riscv32.Rtl (Word)
open Riscv32.Isa (Reg Hart Env)

/-! ## Threads -/

/-- How a thread goes on: behind the `ecall` at `pc` it yielded with, or at its
entry. -/
inductive Resume
  | yielded (gpr : Nat → Word) (pc : Word)
  | created (entry arg stop : Word)

/-- The hart goes on so. -/
def Resume.Holds : Resume → Cpu → Prop
  | yielded gpr pc, c =>
      (∀ n, 1 ≤ n → n < nrRegs → c.hart.get (BitVec.ofNat 5 n) = gpr n) ∧ c.hart.pc = pc + 4
  | created entry arg stop, c =>
      c.hart.pc = entry ∧ c.hart.get a0 = arg ∧ c.hart.get sp = stop

variable {env : Env}

def Area.Apart (a b : Area env) : Prop :=
  a.stop.toNat ≤ b.start.toNat ∨ b.stop.toNat ≤ a.start.toNat

/-- A thread; `context` and `resume` are those of its last stop. -/
structure Thread (env : Env) where
  stack : Area env
  context : Word
  resume : Resume

/-- The part of a waiting thread's stack that is in use. -/
def Thread.Live (t : Thread env) (a : Word) : Prop :=
  t.context.toNat ≤ a.toNat ∧ a.toNat < t.stack.stop.toNat

/-- Nothing in use by a thread of the table changes. -/
def Keeps (table : Nat → Option (Thread env)) (mem mem' : Bytes) : Prop :=
  ∀ k t, table k = some t → ∀ a, t.Live a → mem' a = mem a

/-- The hart, the threads and which of them runs. -/
structure Sys (env : Env) where
  cpu : Cpu
  threads : Nat → Option (Thread env)
  running : Nat

namespace Sys

/-- The threads that wait. -/
def waiting (s : Sys env) : Nat → Option (Thread env) := Function.update s.threads s.running none

/-- The running thread `t` as its `ecall` stops it. -/
def park (s : Sys env) (t : Thread env) : Thread env :=
  { t with
    context := frameOf s.cpu
    resume := .yielded (fun n => s.cpu.hart.get (BitVec.ofNat 5 n)) s.cpu.hart.pc }

/-- A call of `kcontext`. -/
def create (s : Sys env) (k : Nat) (kstack : Area env) (entry arg : Word) : Sys env :=
  { s with
    cpu := { s.cpu with
      hart := { s.cpu.hart with mem := (kcontext s.cpu.mem kstack.stop entry arg).2 } }
    threads := Function.update s.threads k (some
      { stack := kstack
        context := (kcontext s.cpu.mem kstack.stop entry arg).1
        resume := .created entry arg kstack.stop }) }

/-- The threads while the handler runs. -/
def parked (s : Sys env) (t : Thread env) : Nat → Option (Thread env) :=
  Function.update s.threads s.running (some (s.park t))

end Sys

/-- A yield of `t` whose handler returns the context of `u`.  The stack has room
for the context, and below it, or outside all stacks, is where C code writes. -/
structure Switches (s : Sys env) (t : Thread env) (userHandler : Handler) (j : Nat)
    (u : Thread env) : Prop where
  current : s.threads s.running = some t
  room : t.stack.start.toNat + sizeofContext ≤ (s.cpu.hart.get sp).toNat
  below : (s.cpu.hart.get sp).toNat ≤ t.stack.stop.toNat
  next : s.parked t j = some u
  handler : ∀ h : Hart, h.mem = yieldMem s.cpu →
    (userHandler .yield (frameOf s.cpu) h).context = u.context ∧
      Keeps (s.parked t) (yieldMem s.cpu) (userHandler .yield (frameOf s.cpu) h).hart.mem

/-- The running thread computes, creates a thread, or yields. -/
inductive Step (asmTrap : Word) (s : Sys env) : Sys env → Prop
  | work (cpu : Cpu) (hVec : cpu.mtvec = s.cpu.mtvec)
      (hKeeps : Keeps s.waiting s.cpu.mem cpu.mem) : Step asmTrap s { s with cpu := cpu }
  | create (k : Nat) (kstack : Area env) (entry arg : Word) (hFree : s.threads k = none)
      (hRoom : kstack.start.toNat + sizeofContext ≤ kstack.stop.toNat)
      (hApart : ∀ j t, s.threads j = some t → kstack.Apart t.stack) :
      Step asmTrap s (s.create k kstack entry arg)
  | yield (t : Thread env) (userHandler : Handler) (j : Nat) (u : Thread env) (cpu : Cpu)
      (hSwitch : Switches s t userHandler j u)
      (hTrap : takeTrap env asmTrap (some userHandler) s.cpu = some cpu) :
      Step asmTrap s { cpu := cpu, threads := s.parked t, running := j }

/-- After `cte_init` the boot code runs on its own stack. -/
def boot (asmTrap : Word) (c : Cpu) (stack : Area env) : Sys env where
  cpu := cteInit asmTrap c
  threads := Function.update (fun _ => none) 0 (some ⟨stack, 0, .created 0 0 0⟩)
  running := 0

inductive Reachable (asmTrap : Word) : Sys env → Prop
  | boot (c : Cpu) (stack : Area env) : Reachable asmTrap (boot asmTrap c stack)
  | step {s s' : Sys env} (h : Reachable asmTrap s) (hStep : Step asmTrap s s') :
      Reachable asmTrap s'

/-! ## Contexts of waiting threads -/

/-- The words of a context that say how its thread goes on. -/
def Resume.Stored (mem : Bytes) (f : Word) : Resume → Prop
  | yielded gpr pc =>
      (∀ n ∈ regs, mem.loadWord (member f (.gpr n)) = gpr n) ∧
        gpr 2 = f + BitVec.ofNat 32 sizeofContext ∧ mem.loadWord (member f .mepc) = pc + 4
  | created entry arg stop =>
      mem.loadWord (member f .mepc) = entry ∧ mem.loadWord (member f (.gpr 10)) = arg ∧
        stop = f + BitVec.ofNat 32 sizeofContext

/-- The context of a waiting thread. -/
structure Represented (mem : Bytes) (t : Thread env) : Prop where
  start_le : t.stack.start.toNat ≤ t.context.toNat
  le_stop : t.context.toNat + sizeofContext ≤ t.stack.stop.toNat
  stored : t.resume.Stored mem t.context

section Represented

variable {mem mem' : Bytes} {t : Thread env}

/-- A thread goes on as its context says. -/
theorem Represented.holds (h : Represented mem t) {c : Cpu}
    (hResumed : ResumedFrom mem t.context c) : t.resume.Holds c := by
  have hStored := h.stored
  cases hResume : t.resume with
  | yielded gpr pc =>
      rw [hResume] at hStored
      obtain ⟨hGpr, hSp, hPc⟩ := hStored
      refine ⟨fun n hPos hLt => ?_, hResumed.pc.trans hPc⟩
      by_cases hTwo : n = 2
      · rw [hTwo, hSp]
        exact hResumed.sp
      · have hMem : n ∈ regs := (show ∀ n < 16, 1 ≤ n → n ≠ 2 → n ∈ regs by decide) n hLt hPos hTwo
        exact (hResumed.gpr n hMem).trans (hGpr n hMem)
  | created entry arg stop =>
      rw [hResume] at hStored
      obtain ⟨hPc, hArg, hStop⟩ := hStored
      exact ⟨hResumed.pc.trans hPc, (hResumed.gpr 10 (by decide)).trans hArg,
        hResumed.sp.trans hStop.symm⟩

theorem Represented.placed (h : Represented mem t) : Placed t.context := by
  have hStop := t.stack.stop.isLt
  have hFit : t.context.toNat + 80 ≤ t.stack.stop.toNat := h.le_stop
  unfold Placed
  omega

theorem Represented.loadWord (h : Represented mem t) (hLive : ∀ a, t.Live a → mem' a = mem a)
    {m : Member} (hm : m.index < 20) :
    mem'.loadWord (member t.context m) = mem.loadWord (member t.context m) := by
  have hSlot : (member t.context m).toNat = t.context.toNat + 4 * m.index :=
    toNat_slot h.placed hm
  have hFit : t.context.toNat + 80 ≤ t.stack.stop.toNat := h.le_stop
  have hStop := t.stack.stop.isLt
  refine loadWord_of_agree (by omega) fun x hx => hLive x ?_
  unfold InRange at hx
  unfold Thread.Live
  omega

/-- What is live says how the thread goes on. -/
theorem Represented.keep (h : Represented mem t) (hLive : ∀ a, t.Live a → mem' a = mem a) :
    Represented mem' t := by
  refine ⟨h.start_le, h.le_stop, ?_⟩
  have hStored := h.stored
  cases hResume : t.resume with
  | yielded gpr pc =>
      rw [hResume] at hStored
      obtain ⟨hGpr, hSp, hPc⟩ := hStored
      refine ⟨fun n hn => ?_, hSp, (h.loadWord hLive (by decide)).trans hPc⟩
      have hLt : n < 20 := (show ∀ n ∈ regs, n < 20 by decide) n hn
      exact (h.loadWord (m := .gpr n) hLive hLt).trans (hGpr n hn)
  | created entry arg stop =>
      rw [hResume] at hStored
      obtain ⟨hPc, hArg, hStop⟩ := hStored
      exact ⟨(h.loadWord hLive (by decide)).trans hPc, (h.loadWord hLive (by decide)).trans hArg,
        hStop⟩

/-- What is live lies in the stack. -/
theorem Represented.inStack (h : Represented mem t) {a : Word} (ha : t.Live a) :
    t.stack.start.toNat ≤ a.toNat ∧ a.toNat < t.stack.stop.toNat :=
  ⟨Nat.le_trans h.start_le ha.1, ha.2⟩

/-- The slots of a context are in main memory. -/
theorem mapped_slot {f : Word} (hStart : t.stack.start.toNat ≤ f.toNat)
    (hStop : f.toNat + sizeofContext ≤ t.stack.stop.toNat) {i : Nat} (hi : i < 20) :
    env.canLoad (slot f i) 4 = true ∧ env.canStore (slot f i) 4 = true := by
  have hFit : f.toNat + 80 ≤ t.stack.stop.toNat := hStop
  have hLt := t.stack.stop.isLt
  have hSlot := toNat_slot (f := f) (n := 20) (by omega) hi
  exact t.stack.mapped _ 4 (by omega) (by omega)

end Represented

/-! ## Runs -/

/-- What holds between the steps of a run. -/
structure Good (asmTrap : Word) (s : Sys env) : Prop where
  vector : s.cpu.mtvec = asmTrap
  running : ∃ t, s.threads s.running = some t
  apart : ∀ j k t u, j ≠ k → s.threads j = some t → s.threads k = some u →
    t.stack.Apart u.stack
  waiting : ∀ k t, s.waiting k = some t → Represented s.cpu.mem t

section Steps

variable {asmTrap : Word} {s : Sys env} {t u : Thread env} {userHandler : Handler} {j k : Nat}

theorem Area.Apart.symm {a b : Area env} (h : a.Apart b) : b.Apart a := Or.symm h

theorem waiting_eq_some : s.waiting k = some t ↔ k ≠ s.running ∧ s.threads k = some t := by
  by_cases hk : k = s.running
  · simp [Sys.waiting, hk]
  · simp [Sys.waiting, hk]

theorem parked_eq_some (h : s.parked t k = some u) :
    (k = s.running ∧ u = s.park t) ∨ (k ≠ s.running ∧ s.threads k = some u) := by
  by_cases hk : k = s.running
  · subst hk
    rw [Sys.parked, Function.update_self] at h
    exact .inl ⟨rfl, (Option.some.inj h).symm⟩
  · rw [Sys.parked, Function.update_of_ne hk] at h
    exact .inr ⟨hk, h⟩

theorem create_eq_some {kstack : Area env} {entry arg : Word}
    (h : (s.create k kstack entry arg).threads j = some t) :
    (j = k ∧ t = ⟨kstack, (kcontext s.cpu.mem kstack.stop entry arg).1,
        .created entry arg kstack.stop⟩) ∨ (j ≠ k ∧ s.threads j = some t) := by
  by_cases hj : j = k
  · subst hj
    exact .inl ⟨rfl, Option.some.inj (h.symm.trans (Function.update_self ..))⟩
  · exact .inr ⟨hj, (Function.update_of_ne hj _ _).symm.trans h⟩

/-- A context below `top`. -/
theorem toNat_below {top : Word} (h : sizeofContext ≤ top.toNat) :
    (top - BitVec.ofNat 32 sizeofContext).toNat + sizeofContext = top.toNat := by
  have hRoom : 80 ≤ top.toNat := h
  have hTop := top.isLt
  change (top - 80#32).toNat + 80 = _
  rw [BitVec.toNat_sub]
  change (4294967296 - 80 + top.toNat) % 4294967296 + 80 = _
  omega

theorem placed_below {top : Word} (h : sizeofContext ≤ top.toNat) :
    Placed (top - BitVec.ofNat 32 sizeofContext) := by
  have hNat : (top - BitVec.ofNat 32 sizeofContext).toNat + 80 = top.toNat := toNat_below h
  have hTop := top.isLt
  unfold Placed
  omega

/-! ### `kcontext` -/

section Kcontext

variable {mem : Bytes} {kstack : Area env} {entry arg : Word}

theorem toNat_kcontext (hRoom : kstack.start.toNat + sizeofContext ≤ kstack.stop.toNat) :
    (kcontext mem kstack.stop entry arg).1.toNat + sizeofContext = kstack.stop.toNat :=
  toNat_below (Nat.le_of_add_left_le hRoom)

theorem placed_kcontext (hRoom : kstack.start.toNat + sizeofContext ≤ kstack.stop.toNat) :
    Placed (kcontext mem kstack.stop entry arg).1 :=
  placed_below (Nat.le_of_add_left_le hRoom)

/-- A new thread's context. -/
theorem represented_kcontext (hRoom : kstack.start.toNat + sizeofContext ≤ kstack.stop.toNat) :
    Represented (kcontext mem kstack.stop entry arg).2
      { stack := kstack
        context := (kcontext mem kstack.stop entry arg).1
        resume := .created entry arg kstack.stop } := by
  have hNat : (kcontext mem kstack.stop entry arg).1.toNat + sizeofContext = kstack.stop.toNat :=
    toNat_kcontext hRoom
  have hPlaced : Placed (kcontext mem kstack.stop entry arg).1 := placed_kcontext hRoom
  refine ⟨by simp only; omega, hNat.le, ?_, ?_, ?_⟩
  · exact loadWord_storeFrame_of_mem hPlaced (by simp [Member.index, nrRegs])
      (by simp [Member.index, nrRegs]) (by simp)
  · exact loadWord_storeFrame_of_mem hPlaced (by simp [Member.index, nrRegs])
      (by simp [Member.index, nrRegs]) (by simp)
  · exact (BitVec.sub_add_cancel kstack.stop (BitVec.ofNat 32 sizeofContext)).symm

/-- Only the new stack is written. -/
theorem kcontext_outside (hRoom : kstack.start.toNat + sizeofContext ≤ kstack.stop.toNat)
    {a : Word} (ha : ¬ (kstack.start.toNat ≤ a.toNat ∧ a.toNat < kstack.stop.toNat)) :
    (kcontext mem kstack.stop entry arg).2 a = mem a := by
  have hNat : (kcontext mem kstack.stop entry arg).1.toNat + 80 = kstack.stop.toNat :=
    toNat_kcontext hRoom
  have hRoom' : kstack.start.toNat + 80 ≤ kstack.stop.toNat := hRoom
  have hPlaced : Placed (kcontext mem kstack.stop entry arg).1 := placed_kcontext hRoom
  refine storeFrame_outside hPlaced (by simp [Member.index, nrRegs]) ?_
  unfold InRange
  omega

end Kcontext

/-! ### Each step -/

theorem good_work (hGood : Good asmTrap s) {cpu : Cpu} (hVec : cpu.mtvec = s.cpu.mtvec)
    (hKeeps : Keeps s.waiting s.cpu.mem cpu.mem) : Good asmTrap { s with cpu := cpu } where
  vector := hVec.trans hGood.vector
  running := hGood.running
  apart := hGood.apart
  waiting k t hk := (hGood.waiting k t hk).keep (hKeeps k t hk)

theorem good_create (hGood : Good asmTrap s) {kstack : Area env} {entry arg : Word}
    (hFree : s.threads k = none)
    (hRoom : kstack.start.toNat + sizeofContext ≤ kstack.stop.toNat)
    (hApart : ∀ j t, s.threads j = some t → kstack.Apart t.stack) :
    Good asmTrap (s.create k kstack entry arg) where
  vector := hGood.vector
  running := by
    obtain ⟨t, ht⟩ := hGood.running
    have hNe : s.running ≠ k := by
      rintro rfl
      rw [hFree] at ht
      cases ht
    exact ⟨t, (Function.update_of_ne hNe _ _).trans ht⟩
  apart i j t u hij ht hu := by
    rcases create_eq_some ht with ⟨rfl, rfl⟩ | ⟨-, ht'⟩
    · rcases create_eq_some hu with ⟨rfl, -⟩ | ⟨-, hu'⟩
      · exact absurd rfl hij
      · exact hApart j u hu'
    · rcases create_eq_some hu with ⟨rfl, rfl⟩ | ⟨-, hu'⟩
      · exact (hApart i t ht').symm
      · exact hGood.apart i j t u hij ht' hu'
  waiting i t hi := by
    obtain ⟨hRun, ht⟩ := waiting_eq_some.1 hi
    rcases create_eq_some ht with ⟨rfl, rfl⟩ | ⟨-, ht⟩
    · exact represented_kcontext hRoom
    · have hOld := hGood.waiting i t (waiting_eq_some.2 ⟨hRun, ht⟩)
      refine hOld.keep fun a ha => kcontext_outside hRoom fun hIn => ?_
      have hStack := hOld.inStack ha
      rcases hApart i t ht with h | h <;> omega

section Switch

variable (h : Switches s t userHandler j u)
include h

theorem Switches.toNat_frameOf :
    (frameOf s.cpu).toNat + sizeofContext = (s.cpu.hart.get sp).toNat :=
  toNat_below (Nat.le_of_add_left_le h.room)

theorem Switches.placed : Placed (frameOf s.cpu) := placed_below (Nat.le_of_add_left_le h.room)

/-- When the handler is called, the yielding thread's context is there too. -/
theorem Switches.represented (hGood : Good asmTrap s) {v : Thread env}
    (hv : s.parked t k = some v) : Represented (yieldMem s.cpu) v := by
  have hNat := h.toNat_frameOf
  have hRoom := h.room
  have hBelow := h.below
  rcases parked_eq_some hv with ⟨rfl, rfl⟩ | ⟨hRun, hOther⟩
  · refine ⟨by simp only [Sys.park]; omega, by simp only [Sys.park]; omega, ?_, ?_, yieldMem_mepc⟩
    · exact fun n hn => yieldMem_gpr h.placed hn
    · exact (BitVec.sub_add_cancel (s.cpu.hart.get sp) (BitVec.ofNat 32 sizeofContext)).symm
  · have hOld := hGood.waiting k v (waiting_eq_some.2 ⟨hRun, hOther⟩)
    refine hOld.keep fun a ha => yieldMem_outside h.placed fun hIn => ?_
    have hStack := hOld.inStack ha
    have hIn' : (frameOf s.cpu).toNat ≤ a.toNat ∧
        a.toNat < (frameOf s.cpu).toNat + sizeofContext := hIn
    rcases hGood.apart k s.running v t hRun hOther h.current with hApart | hApart <;> omega

/-- Everything a yield hands over: the hart goes on as `u` does, and no waiting
thread has lost its context. -/
theorem Switches.spec (hGood : Good asmTrap s) :
    ∃ cpu, takeTrap env asmTrap (some userHandler) s.cpu = some cpu ∧ u.resume.Holds cpu ∧
      cpu.mtvec = asmTrap ∧ ∀ k v, s.parked t k = some v → Represented cpu.mem v := by
  have hNat := h.toNat_frameOf
  have hRoom := h.room
  have hBelow := h.below
  have hStore : ∀ i < 20, env.canStore (slot (frameOf s.cpu) i) 4 = true :=
    fun i hi => (mapped_slot (t := t) (by omega) (by omega) hi).2
  obtain ⟨hart, hMem, hTrap⟩ := trap_ecall userHandler h.placed hStore
  obtain ⟨hContext, hKeeps⟩ := h.handler hart hMem
  -- the handler leaves every context as it is
  have hContexts : ∀ k v, s.parked t k = some v →
      Represented (userHandler .yield (frameOf s.cpu) hart).hart.mem v :=
    fun k v hv => (h.represented hGood hv).keep (hKeeps k v hv)
  have hNext := hContexts j u h.next
  have hNull : u.context ≠ 0 := by
    intro hZero
    have hPos := u.stack.start_pos
    have hStart := hNext.start_le
    rw [hZero] at hStart
    exact absurd hStart (Nat.not_le.2 hPos)
  obtain ⟨cpu, hRun, hResumed, hVec⟩ := hTrap _ rfl (hContext ▸ hNull) (hContext ▸
    fun i hi => (mapped_slot hNext.start_le hNext.le_stop hi).1)
  rw [hContext] at hResumed
  refine ⟨cpu, ?_, hNext.holds hResumed, hVec.trans hGood.vector, ?_⟩
  · rw [takeTrap, if_pos (show s.cpu.ecall.hart.pc = asmTrap from hGood.vector), hRun]
  · rw [hResumed.mem]
    exact hContexts

end Switch

theorem good_yield (hGood : Good asmTrap s) (h : Switches s t userHandler j u) {cpu : Cpu}
    (hTrap : takeTrap env asmTrap (some userHandler) s.cpu = some cpu) :
    Good asmTrap { cpu := cpu, threads := s.parked t, running := j } := by
  obtain ⟨cpu', hTrap', -, hVec, hContexts⟩ := h.spec hGood
  rw [hTrap'] at hTrap
  cases hTrap
  -- the stacks are those of before
  have hStack : ∀ {k v}, s.parked t k = some v → ∃ w, s.threads k = some w ∧ w.stack = v.stack := by
    intro k v hv
    rcases parked_eq_some hv with ⟨rfl, rfl⟩ | ⟨-, hv⟩
    · exact ⟨t, h.current, rfl⟩
    · exact ⟨v, hv, rfl⟩
  exact {
    vector := hVec
    running := ⟨u, h.next⟩
    apart := fun i k v w hik hv hw => by
      obtain ⟨v', hv', hEq⟩ := hStack hv
      obtain ⟨w', hw', hEq'⟩ := hStack hw
      rw [← hEq, ← hEq']
      exact hGood.apart i k v' w' hik hv' hw'
    waiting := fun k v hv => hContexts k v (waiting_eq_some.1 hv).2 }

theorem good_boot (c : Cpu) (stack : Area env) : Good asmTrap (boot asmTrap c stack) := by
  -- there is no thread but the running one
  have hOnly : ∀ {k t}, (boot asmTrap c stack).threads k = some t → k = 0 := by
    intro k t ht
    by_contra hNe
    simp [boot, Function.update_of_ne hNe] at ht
  exact {
    vector := rfl
    running := ⟨⟨stack, 0, .created 0 0 0⟩, by simp [boot]⟩
    apart := fun j k t u hjk ht hu => absurd ((hOnly ht).trans (hOnly hu).symm) hjk
    waiting := fun k t hk => absurd (hOnly (waiting_eq_some.1 hk).2) (waiting_eq_some.1 hk).1 }

end Steps

theorem Reachable.good {asmTrap : Word} {s : Sys env} (h : Reachable asmTrap s) :
    Good asmTrap s := by
  induction h with
  | boot c stack => exact good_boot c stack
  | step _ hStep ih =>
      cases hStep with
      | work cpu hVec hKeeps => exact good_work ih hVec hKeeps
      | create k kstack entry arg hFree hRoom hApart => exact good_create ih hFree hRoom hApart
      | yield t userHandler j u cpu hSwitch hTrap => exact good_yield ih hSwitch hTrap

/-- **Context switches preserve every thread**: in every state of every run, a
yield whose handler returns the context of `u` ends with the hart going on as
`u` stopped, or as it was created. -/
theorem context_switches_preserve {asmTrap : Word} {s : Sys env} (hReach : Reachable asmTrap s)
    {t u : Thread env} {userHandler : Handler} {j : Nat}
    (hSwitch : Switches s t userHandler j u) :
    ∃ cpu, takeTrap env asmTrap (some userHandler) s.cpu = some cpu ∧ u.resume.Holds cpu := by
  obtain ⟨cpu, hTrap, hHolds, -, -⟩ := hSwitch.spec hReach.good
  exact ⟨cpu, hTrap, hHolds⟩

/-! ## Two threads -/

/-- All memory is there. -/
def flatEnv : Env := ⟨fun _ _ => true, fun _ _ => true, fun _ => true⟩

def stackAt (start stop : Word) (hPos : 0 < start.toNat) (hLe : start.toNat ≤ stop.toNat) :
    Area flatEnv := ⟨start, stop, hPos, hLe, fun _ _ _ _ => ⟨rfl, rfl⟩⟩

/-- The boot code, whose registers hold their numbers, has created a thread. -/
def twoThreads : Sys flatEnv :=
  (boot 0x80000100 ⟨⟨fun r => if r = 2 then 0x80002000 else r.setWidth 32, fun _ => 0, 0x80000200⟩,
    0, 0, 0, 0⟩ (stackAt 0x80001000 0x80002000 (by decide) (by decide))).create 1
    (stackAt 0x80003000 0x80004000 (by decide) (by decide)) 0x80000300 7

def bootThread : Thread flatEnv :=
  ⟨stackAt 0x80001000 0x80002000 (by decide) (by decide), 0, .created 0 0 0⟩

def newThread : Thread flatEnv :=
  ⟨stackAt 0x80003000 0x80004000 (by decide) (by decide), 0x80003fb0,
    .created 0x80000300 7 0x80004000⟩

theorem twoThreads_reachable : Reachable 0x80000100 twoThreads := by
  refine .step (.boot _ _) (.create 1 _ _ _ ?_ (by decide) ?_)
  · simp [boot]
  · intro j t ht
    by_cases hj : j = 0
    · subst hj
      simp only [boot, Function.update_self, Option.some.injEq] at ht
      rw [← ht]
      exact .inr (by decide)
    · simp [boot, Function.update_of_ne hj] at ht

/-- The boot code yields to the thread, or to itself. -/
theorem twoThreads_switches :
    Switches twoThreads bootThread (fun _ _ h => ⟨0x80003fb0, h⟩) 1 newThread ∧
      Switches twoThreads bootThread (fun _ c h => ⟨c, h⟩) 0 (twoThreads.park bootThread) := by
  have hCurrent : twoThreads.threads twoThreads.running = some bootThread := by
    simp [twoThreads, Sys.create, boot, bootThread]
  refine ⟨⟨hCurrent, by decide, by decide, ?_, fun h hMem => ⟨rfl, ?_⟩⟩,
    ⟨hCurrent, by decide, by decide, Function.update_self .., fun h hMem => ⟨rfl, ?_⟩⟩⟩
  · rfl
  · intro k t _ a _
    rw [hMem]
  · intro k t _ a _
    rw [hMem]

/-- The new thread starts at its entry, the boot code goes on behind its `ecall`. -/
theorem context_switches_preserve_two :
    (∃ cpu, takeTrap flatEnv 0x80000100 (some fun _ _ h => ⟨0x80003fb0, h⟩) twoThreads.cpu =
        some cpu ∧
      cpu.hart.pc = 0x80000300 ∧ cpu.hart.get a0 = 7 ∧ cpu.hart.get sp = 0x80004000) ∧
    ∃ cpu, takeTrap flatEnv 0x80000100 (some fun _ c h => ⟨c, h⟩) twoThreads.cpu = some cpu ∧
      cpu.hart.get 8 = 8 ∧ cpu.hart.get sp = 0x80002000 ∧ cpu.hart.pc = 0x80000204 := by
  obtain ⟨hNew, hSelf⟩ := twoThreads_switches
  obtain ⟨cpu, hTrap, hPc, hArg, hSp⟩ := context_switches_preserve twoThreads_reachable hNew
  obtain ⟨cpu', hTrap', hGpr, hPc'⟩ := context_switches_preserve twoThreads_reachable hSelf
  exact ⟨⟨cpu, hTrap, hPc, hArg, hSp⟩, cpu', hTrap', hGpr 8 (by decide) (by decide),
    hGpr 2 (by decide) (by decide), hPc'⟩

end Riscv32.Am.Cte
