import Riscv32.Sdb.BigStep
import Riscv32.Sdb.Watchpoint
import Riscv32.Nemu.Devices

/-!
# Inspecting the machine

The commands `p`, `w` and `x` and the watchpoint check of `trace_and_difftest`,
on the machine with its devices.  A dereference goes the way a guest load
goes: at a device address it runs the device's callback and sets
`is_skip_ref`, which the next instruction's `difftest_step` takes for its own.

A session is a run of `Action`s, the guest's instructions and the host's devices
among them.  `Quiet` asks of an action that what it evaluates dereferences guest
memory only; `Harmless` is what is wanted of an inspection.

## Main results

* `expr_frame`, `expr_skips` — an evaluation inside guest memory changes nothing,
  and one that leaves it sets `is_skip_ref`.
* `run_harmless` — every action of a quiet run is harmless.
* `inspection_harmless` — the same, with the exact condition for one evaluation.
-/

namespace Riscv32.Sdb

open Riscv32.Rtl Riscv32.Nemu

variable {δ ρ : Type}

/-- What NEMU's `eval` reads: `cpu` and `vaddr_read`. -/
def nemuTarget (cfg : Config δ) : Target (Sys δ) where
  pc s := s.pc
  gpr s i := s.gpr (BitVec.ofNat 5 i)
  load addr s :=
    match s.vaddrRead cfg addr 4 with
    | some r => .ok r
    | none => .error .access

/-- The machine, the reference and the watchpoints. -/
structure Debugger (δ ρ : Type) where
  sys : Sys δ
  ref : ρ
  pool : WpPool

/-- What happens between two prompts: commands, one instruction with its
`difftest_step`, the watchpoint check behind it, and what the host does to the
devices and to `nemu_state`. -/
inductive Action (δ : Type)
  | p (e : List Char)
  | w (e : List Char)
  | x (n : Nat) (e : List Char)
  | d (num : BitVec 32)
  | instr
  | watch
  | host (dev : δ) (state : RunState)

namespace Debugger

/-- `expr(e, &success)` in a command. -/
def inspect (cfg : Config δ) (s : Sys δ) (e : List Char) : Option (Word × Sys δ) :=
  match expr (nemuTarget cfg) e false s with
  | .ok r => some (r.1.1, r.2)
  | .error _ => none

/-- The loop of `cmd_x`: four reads a word. -/
def scanMemory (cfg : Config δ) : Nat → Word → Sys δ → Option (Sys δ)
  | 0, _, s => some s
  | n + 1, addr, s =>
    if 0x80000000#32 ≤ addr ∧ addr ≤ 0x81ffffff#32 then do
      let (_, s) ← s.vaddrRead cfg addr 4
      let (_, s) ← s.vaddrRead cfg addr 4
      let (_, s) ← s.vaddrRead cfg addr 4
      let (_, s) ← s.vaddrRead cfg addr 4
      scanMemory cfg n (addr + 4) s
    else none

/-- One instruction of `execute` up to the watchpoints: the debugger it leaves,
the guest addresses it accessed and whether its registers were checked. -/
def instr (cfg : Config δ) (ref : Ref ρ) (d : Debugger δ ρ) :
    Option (Debugger δ ρ × List Word × Bool) :=
  if d.sys.state = .running then do
    let (s, addrs) ← d.sys.execOnce cfg
    let (s, r, checked) ← s.difftestStep ref d.ref s.pc
    some ({ d with sys := s, ref := r }, addrs, checked)
  else none

/-- What the check does with a watchpoint and its present value. -/
def recordValue (d : Debugger δ ρ) (n : Fin nrWp) (val : Word) : Debugger δ ρ :=
  if val ≠ (d.pool.wpPool n).lastVal then
    { d with
      pool := d.pool.set n { d.pool.wpPool n with lastVal := val }
      sys := { d.sys with state := .stop } }
  else d

/-- The watchpoint loop of `trace_and_difftest`, with `fuel` turns to go. -/
def watchLoop (cfg : Config δ) : Nat → WpPtr → Debugger δ ρ → Option (Debugger δ ρ)
  | 0, _, _ => none
  | _ + 1, none, d => some d
  | fuel + 1, some n, d =>
    match inspect cfg d.sys (d.pool.wpPool n).addrExpr with
    | none => none
    | some (val, s) =>
      let d := { d with sys := s }.recordValue n val
      watchLoop cfg fuel (d.pool.next n) d

/-- One action; `none` if it does not return. -/
def step (cfg : Config δ) (ref : Ref ρ) (d : Debugger δ ρ) : Action δ → Option (Debugger δ ρ)
  | .p e => (inspect cfg d.sys e).map fun r => { d with sys := r.2 }
  | .w e => do
    let (val, s) ← inspect cfg d.sys e
    let pool ← d.pool.cmdW e val
    some { d with sys := s, pool := pool }
  | .x n e => do
    let (addr, s) ← inspect cfg d.sys e
    let s ← scanMemory cfg n addr s
    some { d with sys := s }
  | .d num => (d.pool.cmdD num).map fun pool => { d with pool := pool }
  | .instr => (d.instr cfg ref).map fun r => r.1
  | .watch => watchLoop cfg (nrWp + 1) d.pool.head d
  | .host dev state => some { d with sys := { d.sys with dev := dev, state := state } }

/-- A sequence of actions. -/
def run (cfg : Config δ) (ref : Ref ρ) (d : Debugger δ ρ) (acts : List (Action δ)) :
    Option (Debugger δ ρ) :=
  acts.foldlM (step cfg ref) d

end Debugger

/-! ## Which inspections stay in guest memory -/

/-- `e` dereferences guest memory only. -/
def MemoryOnly (cfg : Config δ) (s : Sys δ) (e : List Char) : Prop :=
  ∀ a ∈ derefs (nemuTarget cfg) e s, readable cfg.build a = true

/-- Every expression of the watchpoint loop does when it is evaluated. -/
def WatchQuiet (cfg : Config δ) : Nat → WpPtr → Debugger δ ρ → Prop
  | 0, _, _ => True
  | _ + 1, none, _ => True
  | fuel + 1, some n, d =>
    MemoryOnly cfg d.sys (d.pool.wpPool n).addrExpr ∧
      ∀ val s, Debugger.inspect cfg d.sys (d.pool.wpPool n).addrExpr = some (val, s) →
        let d := { d with sys := s }.recordValue n val
        WatchQuiet cfg fuel (d.pool.next n) d

/-- The expressions an action evaluates dereference guest memory only. -/
def Quiet (cfg : Config δ) (d : Debugger δ ρ) : Action δ → Prop
  | .p e | .w e | .x _ e => MemoryOnly cfg d.sys e
  | .watch => WatchQuiet cfg (nrWp + 1) d.pool.head d
  | .d _ | .instr | .host _ _ => True

/-- Every action of a run is quiet in the state it starts in. -/
def QuietRun (cfg : Config δ) (ref : Ref ρ) : Debugger δ ρ → List (Action δ) → Prop
  | _, [] => True
  | d, a :: acts => Quiet cfg d a ∧ ∀ d', d.step cfg ref a = some d' → QuietRun cfg ref d' acts

/-- A device answers at `a`. -/
def IsDevice (cfg : Config δ) (a : Word) : Prop :=
  readable cfg.build a = false ∧ ∃ map ∈ cfg.maps, map.inside a = true

/-- Inspections leave the machine alone; an instruction goes unchecked only if it
accessed a device or halted. -/
def Harmless (cfg : Config δ) (ref : Ref ρ) (d d' : Debugger δ ρ) : Action δ → Prop
  | .p _ | .w _ | .x _ _ => d'.sys = d.sys
  | .watch => d'.sys = { d.sys with state := d'.sys.state }
  | .instr => ∀ addrs, d.instr cfg ref = some (d', addrs, false) →
      (∃ a ∈ addrs, IsDevice cfg a) ∨ d'.sys.state ≠ .running
  | .d _ | .host _ _ => True

/-- The flags of `dut.c` as they start out. -/
def Clear (s : Sys δ) : Prop := s.isSkipRef = false ∧ s.skipDutNrInst = 0

/-! ## Accesses -/

section Access

variable {cfg : Config δ} {s s' : Sys δ} {addr v : Word} {len : Nat}

/-- The state after a device access. -/
def Sys.touched (s : Sys δ) (dev : δ) : Sys δ := { s.difftestSkipRef with dev := dev }

theorem invokeCallback_spec {map : IOMap δ} {offset : Word} {isWrite : Bool}
    (h : s.invokeCallback map offset len isWrite = some s') :
    ∃ dev, s' = { s with dev := dev } := by
  unfold Sys.invokeCallback at h
  split at h
  · cases h
    exact ⟨s.dev, rfl⟩
  · obtain ⟨dev, -, rfl⟩ := Option.map_eq_some_iff.1 h
    exact ⟨dev, rfl⟩

/-- The device that answers, if one does. -/
theorem findMapidByAddr_spec {map : IOMap δ} (h : s.findMapidByAddr cfg addr = (some map, s')) :
    (∃ map ∈ cfg.maps, map.inside addr = true) ∧ s' = s.difftestSkipRef := by
  unfold Sys.findMapidByAddr at h
  split at h
  case h_1 found hFind =>
    cases h
    have hInside := List.find?_some hFind
    exact ⟨⟨_, List.mem_of_find?_eq_some hFind, hInside⟩, rfl⟩
  case h_2 => cases h

theorem vaddrRead_spec (h : s.vaddrRead cfg addr len = some (v, s')) :
    (readable cfg.build addr = true ∧ s' = s) ∨
      (IsDevice cfg addr ∧ ∃ dev, s' = Sys.touched s dev) := by
  unfold Sys.vaddrRead at h
  split at h
  case isTrue hMem =>
    cases h
    exact .inl ⟨hMem, rfl⟩
  case isFalse hMem =>
    unfold Sys.mmioRead at h
    split at h
    case h_1 => cases h
    case h_2 map s₁ hFind =>
      obtain ⟨hMap, rfl⟩ := findMapidByAddr_spec hFind
      obtain ⟨s₂, hCall, hEq⟩ := Option.map_eq_some_iff.1 h
      cases hEq
      obtain ⟨dev, rfl⟩ := invokeCallback_spec hCall
      exact .inr ⟨⟨by simpa using hMem, hMap⟩, dev, rfl⟩

theorem vaddrWrite_spec {data : Word} (h : s.vaddrWrite cfg addr len data = some s') :
    (∃ pmem, s' = { s with pmem := pmem }) ∨
      (IsDevice cfg addr ∧ ∃ dev, s' = Sys.touched s dev) := by
  unfold Sys.vaddrWrite at h
  split at h
  case isTrue =>
    cases h
    exact .inl ⟨_, rfl⟩
  case isFalse =>
    split at h
    case isTrue => cases h
    case isFalse hMem =>
      unfold Sys.mmioWrite at h
      split at h
      case h_1 => cases h
      case h_2 map s₁ hFind =>
        obtain ⟨hMap, rfl⟩ := findMapidByAddr_spec hFind
        obtain ⟨dev, rfl⟩ := invokeCallback_spec h
        exact .inr ⟨⟨by simpa using hMem, hMap⟩, dev, rfl⟩

theorem load_spec (h : (nemuTarget cfg).load addr s = .ok (v, s')) :
    (readable cfg.build addr = true ∧ s' = s) ∨
      (IsDevice cfg addr ∧ ∃ dev, s' = Sys.touched s dev) := by
  simp only [nemuTarget] at h
  split at h
  case h_1 r hRead =>
    cases h
    exact vaddrRead_spec hRead
  case h_2 => cases h

end Access

/-! ## One evaluation -/

section Evaluation

variable {cfg : Config δ} {s s' : Sys δ} {e : List Char} {b : Bool} {r : Word × Bool}

/-- An evaluation inside guest memory changes nothing. -/
theorem expr_frame (h : expr (nemuTarget cfg) e b s = .ok (r, s')) (hMem : MemoryOnly cfg s e) :
    s' = s := by
  refine derefs_invariant
    (I := fun s₁ l => (∀ a ∈ l, readable cfg.build a = true) → s₁ = s) h ?_ (fun _ => rfl) hMem
  intro addr v s₁ s₂ l hLoad hI hAll
  have hAddr := hAll addr (by simp)
  rcases load_spec hLoad with ⟨-, rfl⟩ | ⟨⟨hDev, -⟩, -⟩
  · exact hI fun a ha => hAll a (by simp [ha])
  · rw [hAddr] at hDev
    cases hDev

/-- One that leaves it sets `is_skip_ref`. -/
theorem expr_skips (h : expr (nemuTarget cfg) e b s = .ok (r, s')) :
    s'.isSkipRef = true ∨ MemoryOnly cfg s e := by
  refine derefs_invariant
    (I := fun s₁ l => s₁.isSkipRef = true ∨ ∀ a ∈ l, readable cfg.build a = true) h ?_
    (.inr (by simp))
  intro addr v s₁ s₂ l hLoad hI
  rcases load_spec hLoad with ⟨hAddr, rfl⟩ | ⟨-, dev, rfl⟩
  · rcases hI with hSkip | hAll
    · exact .inl hSkip
    · refine .inr fun a ha => ?_
      rcases List.mem_append.1 ha with ha | ha
      · exact hAll a ha
      · exact List.mem_singleton.1 ha ▸ hAddr
  · exact .inl rfl

theorem expr_unchanged_iff (hSkip : s.isSkipRef = false)
    (h : expr (nemuTarget cfg) e b s = .ok (r, s')) : s' = s ↔ MemoryOnly cfg s e := by
  constructor
  · rintro rfl
    rcases expr_skips h with h' | h'
    · rw [hSkip] at h'
      cases h'
    · exact h'
  · exact expr_frame h

theorem inspect_frame {val : Word} (h : Debugger.inspect cfg s e = some (val, s'))
    (hMem : MemoryOnly cfg s e) : s' = s := by
  unfold Debugger.inspect at h
  split at h
  case h_1 r hExpr =>
    cases h
    exact expr_frame hExpr hMem
  case h_2 => cases h

end Evaluation

/-! ## Instructions -/

section Instr

variable {cfg : Config δ} {s s' : Sys δ}

/-- The flags mark only what the addresses `addrs` or a halt explain. -/
def Explained (cfg : Config δ) (s : Sys δ) (addrs : List Word) : Prop :=
  s.skipDutNrInst = 0 ∧
    (s.isSkipRef = true → (∃ a ∈ addrs, IsDevice cfg a) ∨ s.state ≠ .running)

theorem explained_of_clear (h : Clear s) : Explained cfg s [] := by
  refine ⟨h.2, fun hSkip => ?_⟩
  rw [h.1] at hSkip
  cases hSkip

theorem Explained.append {addrs more : List Word} (h : Explained cfg s addrs) :
    Explained cfg s (addrs ++ more) := by
  refine ⟨h.1, fun hSkip => ?_⟩
  rcases h.2 hSkip with ⟨a, ha, hDev⟩ | hState
  · exact .inl ⟨a, by simp [ha], hDev⟩
  · exact .inr hState

theorem explained_touched {addrs : List Word} {addr : Word} (hDev : IsDevice cfg addr) (dev : δ) :
    Explained cfg (Sys.touched s dev) (addrs ++ [addr]) :=
  ⟨rfl, fun _ => .inl ⟨addr, by simp, hDev⟩⟩

theorem explained_read {addrs : List Word} {addr v : Word} {len : Nat}
    (h : Explained cfg s addrs) (hRead : s.vaddrRead cfg addr len = some (v, s')) :
    Explained cfg s' (addrs ++ [addr]) := by
  rcases vaddrRead_spec hRead with ⟨-, rfl⟩ | ⟨hDev, dev, rfl⟩
  · exact h.append
  · exact explained_touched hDev dev

theorem explained_write {addrs : List Word} {addr data : Word} {len : Nat}
    (h : Explained cfg s addrs) (hWrite : s.vaddrWrite cfg addr len data = some s') :
    Explained cfg s' (addrs ++ [addr]) := by
  rcases vaddrWrite_spec hWrite with ⟨pmem, rfl⟩ | ⟨hDev, dev, rfl⟩
  · exact Explained.append h
  · exact explained_touched hDev dev

/-- `set_nemu_state` explains the flag it sets. -/
theorem explained_setMachine {addrs : List Word} {m : Machine} (h : Explained cfg s addrs) :
    Explained cfg (s.setMachine m) addrs := by
  cases hState : m.nemuState with
  | running => simpa [Sys.setMachine, hState, Explained] using h
  | ended pc ret => exact ⟨by simp [Sys.setMachine, hState, Sys.difftestSkipRef],
      fun _ => .inr (by simp [Sys.setMachine, hState])⟩
  | aborted pc => exact ⟨by simp [Sys.setMachine, hState, Sys.difftestSkipRef],
      fun _ => .inr (by simp [Sys.setMachine, hState])⟩

theorem read_pc {addr v : Word} {len : Nat} (h : s.vaddrRead cfg addr len = some (v, s')) :
    s'.pc = s.pc := by
  rcases vaddrRead_spec h with ⟨-, rfl⟩ | ⟨-, dev, rfl⟩ <;> rfl

theorem explained_execBody {addrs more : List Word} {o : Operand} {name : Name} {dnpc : Word}
    (h : Explained cfg s addrs) (hBody : s.execBody cfg o name = some (s', dnpc, more)) :
    Explained cfg s' (addrs ++ more) := by
  unfold Sys.execBody at hBody
  split at hBody
  case h_1 len f =>
    obtain ⟨⟨v, s₁⟩, hRead, hEq⟩ := Option.map_eq_some_iff.1 hBody
    cases hEq
    exact explained_setMachine (explained_read h hRead)
  case h_2 len =>
    obtain ⟨s₁, hWrite, hEq⟩ := Option.map_eq_some_iff.1 hBody
    cases hEq
    exact explained_write h hWrite
  case h_3 =>
    split at hBody
    case isTrue =>
      obtain ⟨⟨v₁, s₁⟩, hRead₁, hBody⟩ := Option.bind_eq_some_iff.1 hBody
      obtain ⟨⟨v₂, s₂⟩, hRead₂, hBody⟩ := Option.bind_eq_some_iff.1 hBody
      obtain ⟨⟨m, dnpc⟩, -, hBody⟩ := Option.bind_eq_some_iff.1 hBody
      cases hBody
      have hAfter := explained_setMachine (m := m) (explained_read (explained_read h hRead₁) hRead₂)
      simp only [List.append_assoc, List.singleton_append] at hAfter
      have hPc₁ := read_pc hRead₁
      have hPc₂ := read_pc hRead₂
      rw [hPc₁] at hAfter hPc₂
      rw [hPc₂]
      exact hAfter
    case isFalse =>
      obtain ⟨⟨m, dnpc⟩, -, hBody⟩ := Option.bind_eq_some_iff.1 hBody
      cases hBody
      rw [List.append_nil]
      exact explained_setMachine h

theorem explained_execOnce {addrs : List Word} (h : Clear s)
    (hExec : s.execOnce cfg = some (s', addrs)) : Explained cfg s' addrs := by
  obtain ⟨⟨inst, s₁⟩, hRead, hExec⟩ := Option.bind_eq_some_iff.1 hExec
  have hFetch : Explained cfg s₁ [s₁.pc] := by
    rw [read_pc hRead]
    exact explained_read (explained_of_clear h) hRead
  dsimp only at hExec
  split at hExec
  case h_1 =>
    cases hExec
    exact hFetch
  case h_2 row hRow =>
    obtain ⟨⟨s₂, dnpc, more⟩, hBody, hEq⟩ := Option.bind_eq_some_iff.1 hExec
    cases hEq
    have hAfter := explained_execBody hFetch hBody
    exact hAfter

/-- `difftest_step` clears the flags, and skips the check only if they were set. -/
theorem difftestStep_spec {ref : Ref ρ} {r r' : ρ} {npc : Word} {checked : Bool}
    (hDut : s.skipDutNrInst = 0) (h : s.difftestStep ref r npc = some (s', r', checked)) :
    Clear s' ∧ (checked = false → s.isSkipRef = true ∧ s'.state = s.state) := by
  unfold Sys.difftestStep at h
  rw [if_neg (by omega)] at h
  split at h
  case isTrue hSkip =>
    cases h
    exact ⟨⟨rfl, hDut⟩, fun _ => ⟨hSkip, rfl⟩⟩
  case isFalse hSkip =>
    cases h
    refine ⟨?_, fun hFalse => by cases hFalse⟩
    unfold Sys.checkregs
    split
    · exact ⟨by simpa using hSkip, hDut⟩
    · exact ⟨by simpa using hSkip, hDut⟩

end Instr

/-! ## Runs -/

section Runs

variable {cfg : Config δ} {ref : Ref ρ} {d d' : Debugger δ ρ}

theorem instr_harmless {addrs : List Word} {checked : Bool} (hClear : Clear d.sys)
    (h : d.instr cfg ref = some (d', addrs, checked)) :
    Clear d'.sys ∧
      (checked = false → (∃ a ∈ addrs, IsDevice cfg a) ∨ d'.sys.state ≠ .running) := by
  unfold Debugger.instr at h
  split at h
  case isFalse => cases h
  case isTrue hRun =>
    obtain ⟨⟨s₁, addrs₁⟩, hExec, h⟩ := Option.bind_eq_some_iff.1 h
    obtain ⟨⟨s₂, r, checked₂⟩, hStep, h⟩ := Option.bind_eq_some_iff.1 h
    cases h
    have hExplained := explained_execOnce hClear hExec
    obtain ⟨hClear', hSkipped⟩ := difftestStep_spec hExplained.1 hStep
    refine ⟨hClear', fun hChecked => ?_⟩
    obtain ⟨hSkip, hState⟩ := hSkipped hChecked
    rw [hState]
    exact hExplained.2 hSkip

/-- `PMEM_LEFT` to `PMEM_RIGHT` is guest memory in every build. -/
theorem readable_of_pmem (b : Build) {addr : Word}
    (h : 0x80000000#32 ≤ addr ∧ addr ≤ 0x81ffffff#32) : readable b addr = true := by
  have hPmem : inPmem addr = true := by
    have hLt := addr.isLt
    simp only [BitVec.le_def, BitVec.toNat_ofNat] at h
    simp only [inPmem, within, BitVec.ult, decide_eq_true_eq, BitVec.toNat_sub, BitVec.toNat_ofNat]
    omega
  cases b <;> simp [readable, hPmem]

theorem scanMemory_frame {n : Nat} {addr : Word} {s s' : Sys δ}
    (h : Debugger.scanMemory cfg n addr s = some s') : s' = s := by
  induction n generalizing addr s with
  | zero =>
    cases h
    rfl
  | succ n ih =>
    unfold Debugger.scanMemory at h
    split at h
    case isFalse => cases h
    case isTrue hRange =>
      have hMem := readable_of_pmem cfg.build hRange
      have hRead {s s' : Sys δ} {v : Word} (hRead : s.vaddrRead cfg addr 4 = some (v, s')) :
          s' = s := by
        rcases vaddrRead_spec hRead with ⟨-, rfl⟩ | ⟨⟨hDev, -⟩, -⟩
        · rfl
        · rw [hMem] at hDev
          cases hDev
      obtain ⟨⟨v₁, s₁⟩, h₁, h⟩ := Option.bind_eq_some_iff.1 h
      obtain ⟨⟨v₂, s₂⟩, h₂, h⟩ := Option.bind_eq_some_iff.1 h
      obtain ⟨⟨v₃, s₃⟩, h₃, h⟩ := Option.bind_eq_some_iff.1 h
      obtain ⟨⟨v₄, s₄⟩, h₄, h⟩ := Option.bind_eq_some_iff.1 h
      rw [ih h, hRead h₄, hRead h₃, hRead h₂, hRead h₁]

theorem recordValue_sys (n : Fin nrWp) (val : Word) :
    (d.recordValue n val).sys = { d.sys with state := (d.recordValue n val).sys.state } := by
  unfold Debugger.recordValue
  split <;> rfl

/-- A turn of the loop evaluates the text of a node and records the value. -/
theorem watchLoop_some {fuel : Nat} {n : Fin nrWp}
    (h : Debugger.watchLoop cfg (fuel + 1) (some n) d = some d') :
    ∃ val s, Debugger.inspect cfg d.sys (d.pool.wpPool n).addrExpr = some (val, s) ∧
      Debugger.watchLoop cfg fuel (({ d with sys := s }.recordValue n val).pool.next n)
        ({ d with sys := s }.recordValue n val) = some d' := by
  rw [Debugger.watchLoop] at h
  split at h
  case h_1 => cases h
  case h_2 val s hInspect => exact ⟨val, s, hInspect, h⟩

theorem watchLoop_frame {fuel : Nat} {ptr : WpPtr} (hQuiet : WatchQuiet cfg fuel ptr d)
    (h : Debugger.watchLoop cfg fuel ptr d = some d') :
    d'.sys = { d.sys with state := d'.sys.state } := by
  induction fuel generalizing ptr d with
  | zero => cases h
  | succ fuel ih =>
    cases ptr with
    | none =>
      cases h
      rfl
    | some n =>
      obtain ⟨hMem, hNext⟩ := hQuiet
      obtain ⟨val, s, hInspect, hTurn⟩ := watchLoop_some h
      have hs : s = d.sys := inspect_frame hInspect hMem
      have hRest := ih (hNext val s hInspect) hTurn
      rw [hRest, recordValue_sys n val, hs]

/-- A quiet action from clear flags is harmless and leaves them clear. -/
theorem step_harmless {a : Action δ} (hClear : Clear d.sys) (hQuiet : Quiet cfg d a)
    (h : d.step cfg ref a = some d') : Harmless cfg ref d d' a ∧ Clear d'.sys := by
  cases a with
  | p e =>
    obtain ⟨⟨val, s⟩, hInspect, rfl⟩ := Option.map_eq_some_iff.1 h
    obtain rfl := inspect_frame hInspect hQuiet
    exact ⟨rfl, hClear⟩
  | w e =>
    obtain ⟨⟨val, s⟩, hInspect, h⟩ := Option.bind_eq_some_iff.1 h
    obtain ⟨pool, -, hEq⟩ := Option.bind_eq_some_iff.1 h
    cases hEq
    obtain rfl := inspect_frame hInspect hQuiet
    exact ⟨rfl, hClear⟩
  | x n e =>
    obtain ⟨⟨addr, s⟩, hInspect, h⟩ := Option.bind_eq_some_iff.1 h
    obtain ⟨s', hScan, hEq⟩ := Option.bind_eq_some_iff.1 h
    cases hEq
    obtain rfl := inspect_frame hInspect hQuiet
    have hs' := scanMemory_frame hScan
    exact ⟨hs', hs' ▸ hClear⟩
  | d num =>
    obtain ⟨pool, -, rfl⟩ := Option.map_eq_some_iff.1 h
    exact ⟨trivial, hClear⟩
  | instr =>
    obtain ⟨⟨d₁, addrs, checked⟩, hInstr, rfl⟩ := Option.map_eq_some_iff.1 h
    refine ⟨?_, (instr_harmless hClear hInstr).1⟩
    intro addrs' hInstr'
    exact (instr_harmless hClear hInstr').2 rfl
  | watch =>
    have hFrame := watchLoop_frame hQuiet h
    refine ⟨hFrame, ?_⟩
    rw [hFrame]
    exact hClear
  | host dev state =>
    cases h
    exact ⟨trivial, hClear⟩

/-- Every action of a quiet run is harmless. -/
theorem run_harmless {acts pre post : List (Action δ)} {a : Action δ} {d₁ d₂ : Debugger δ ρ}
    (hClear : Clear d.sys) (hQuiet : QuietRun cfg ref d acts) (hSplit : acts = pre ++ a :: post)
    (hPre : d.run cfg ref pre = some d₁) (hStep : d₁.step cfg ref a = some d₂) :
    Harmless cfg ref d₁ d₂ a := by
  subst hSplit
  induction pre generalizing d with
  | nil =>
    cases hPre
    exact (step_harmless hClear hQuiet.1 hStep).1
  | cons a' pre ih =>
    obtain ⟨d', hFirst, hRest⟩ := Option.bind_eq_some_iff.1 hPre
    exact ih (step_harmless hClear hQuiet.1 hFirst).2 hRest (hQuiet.2 d' hFirst)

end Runs

/-- Inspecting the machine changes it exactly where it leaves guest memory, as
long as no skip is pending; in a run whose inspections stay in guest memory,
they change nothing, and an instruction goes unchecked only if it accessed a
device itself or halted the machine. -/
theorem inspection_harmless (cfg : Config δ) (ref : Ref ρ) :
    (∀ (s s' : Sys δ) (e : List Char) (r : Word × Bool), s.isSkipRef = false →
      expr (nemuTarget cfg) e false s = .ok (r, s') → (s' = s ↔ MemoryOnly cfg s e)) ∧
    ∀ (d : Debugger δ ρ) (acts : List (Action δ)), Clear d.sys → QuietRun cfg ref d acts →
      ∀ pre a post d₁ d₂, acts = pre ++ a :: post → d.run cfg ref pre = some d₁ →
        d₁.step cfg ref a = some d₂ → Harmless cfg ref d₁ d₂ a :=
  ⟨fun _ _ _ _ hSkip h => expr_unchanged_iff hSkip h,
    fun _ _ hClear hQuiet _ _ _ _ _ hSplit hPre hStep =>
      run_harmless hClear hQuiet hSplit hPre hStep⟩

/-- `0x80000000`. -/
def pmemNumeral : Numeral where
  radix := .hex
  digits := ['8', '0', '0', '0', '0', '0', '0', '0']
  digits_ne := by decide
  digits_mem := List.forall_iff_forall_mem.1 (by decide)
  head_ne := by decide
  value_lt := by decide
  length_le := by decide

/-- `0xa0000060`. -/
def keyNumeral : Numeral where
  radix := .hex
  digits := ['a', '0', '0', '0', '0', '0', '6', '0']
  digits_ne := by decide
  digits_mem := List.forall_iff_forall_mem.1 (by decide)
  head_ne := by decide
  value_lt := by decide
  length_le := by decide

/-- One key waits in the queue. -/
def oneKey : Devices where
  keyQueue _ := 0x8001#32
  keyF := 0
  keyR := 1
  i8042DataPortBase _ := 0
  time _ := 0
  reading := 0
  rtcPortBase _ := 0
  serialBase _ := 0
  stderr := []
  vgactlPortBase _ := 0
  vmem _ := 0
  audioBase _ := 0
  sbuf _ := 0

/-- A stopped machine with a key in the queue. -/
def stoppedSys : Sys Devices where
  gpr _ := 0
  csr _ := 0
  pc := 0x80000000#32
  pmem _ := 0x13
  dev := oneKey
  isSkipRef := false
  skipDutNrInst := 0
  state := .stop

def defaultConfig : Config Devices := ⟨.plain, Devices.maps⟩

/-- A reference that never moves. -/
def stillRef : Ref Unit := ⟨id, fun _ _ r => r, fun _ _ => 0, fun _ => 0⟩

def stoppedDebugger : Debugger Devices Unit where
  sys := stoppedSys
  ref := ()
  pool := { wpPool := fun _ => default, head := none, free := none }

theorem load_pmem :
    (nemuTarget defaultConfig).load (BitVec.ofNat 32 pmemNumeral.value) stoppedSys =
      .ok (0x13131313#32, stoppedSys) := rfl

theorem pmem_memoryOnly : MemoryOnly defaultConfig stoppedSys ('*' :: pmemNumeral.text) := by
  intro a ha
  rw [derefs_star load_pmem, List.mem_singleton] at ha
  rw [ha]
  decide

theorem step_pmem : stoppedDebugger.step defaultConfig stillRef (.p ('*' :: pmemNumeral.text)) =
    some stoppedDebugger := by
  simp only [Debugger.step, Debugger.inspect]
  rw [show stoppedDebugger.sys = stoppedSys from rfl, expr_star, load_pmem]
  rfl

theorem inspection_harmless_pmem :
    Clear stoppedDebugger.sys ∧
      QuietRun defaultConfig stillRef stoppedDebugger [.p ('*' :: pmemNumeral.text)] ∧
      Harmless defaultConfig stillRef stoppedDebugger stoppedDebugger
        (.p ('*' :: pmemNumeral.text)) :=
  have hQuiet : QuietRun defaultConfig stillRef stoppedDebugger [.p ('*' :: pmemNumeral.text)] :=
    ⟨pmem_memoryOnly, fun _ _ => trivial⟩
  ⟨⟨rfl, rfl⟩, hQuiet,
    (inspection_harmless defaultConfig stillRef).2 stoppedDebugger _ ⟨rfl, rfl⟩ hQuiet [] _ [] _ _
      rfl rfl step_pmem⟩

/-- `p *0xa0000060` takes the key out of the queue and sets `is_skip_ref`. -/
theorem keyboard_inspection_changes :
    ∃ r s', expr (nemuTarget defaultConfig) ('*' :: keyNumeral.text) false stoppedSys =
        .ok (r, s') ∧
      s' ≠ stoppedSys ∧ s'.dev.keyF = 1 ∧ s'.isSkipRef = true := by
  have hLoad : ∃ v s', (nemuTarget defaultConfig).load (BitVec.ofNat 32 keyNumeral.value)
      stoppedSys = .ok (v, s') ∧ s'.dev.keyF = 1 ∧ s'.isSkipRef = true := ⟨_, _, rfl, rfl, rfl⟩
  obtain ⟨v, s', hLoad, hKey, hSkip⟩ := hLoad
  refine ⟨(v, false), s', ?_, ?_, hKey, hSkip⟩
  · rw [expr_star, hLoad]
    rfl
  · rintro rfl
    cases hSkip

end Riscv32.Sdb
