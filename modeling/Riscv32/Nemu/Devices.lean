import Riscv32.Nemu.Inst

/-!
# NEMU with devices and differential testing

`device/io/map.c`, `mmio.c` and `include/device/map.h`, the interpreter on top
of them, and `cpu/difftest/dut.c`.  `Nemu.Memory` leaves accesses outside guest
memory undefined; here they reach the device whose window holds the address,
which tells `difftest_step` to skip the instruction.  The state behind the
devices is a parameter; the keyboard, timer, serial port, screen and sound card
of `device/` are one instance of it.

The lines for loads and stores reach the devices (`memOp`); every other line is
the one of `Nemu.Inst`, run by `body` on the part of the machine it knows.
-/

namespace Riscv32.Nemu

open Riscv32.Rtl

/-! ## Devices -/

/-- `IOMap`, over the state `δ` behind the devices.  A callback gets the offset,
the length and `is_write`; `none` is a failed assertion or a panic. -/
structure IOMap (δ : Type) where
  low : Word
  high : Word
  space : δ → Pmem
  setSpace : Pmem → δ → δ
  callback : Option (Word → Nat → Bool → δ → Option δ)

/-- `map_inside`. -/
def IOMap.inside {δ : Type} (map : IOMap δ) (addr : Word) : Bool :=
  decide (map.low ≤ addr) && decide (addr ≤ map.high)

/-- `nemu_state.state`. -/
inductive RunState
  | running | stop | ended | abort | quit
deriving DecidableEq, Repr

/-- The machine with its devices and the flags of `dut.c`. -/
structure Sys (δ : Type) where
  gpr : BitVec 5 → Word
  csr : BitVec 12 → Word
  pc : Word
  pmem : Pmem
  dev : δ
  isSkipRef : Bool
  skipDutNrInst : Nat
  state : RunState

/-- The build and `maps`. -/
structure Config (δ : Type) where
  build : Build
  maps : List (IOMap δ)

namespace Sys

variable {δ : Type}

/-- `difftest_skip_ref`. -/
def difftestSkipRef (s : Sys δ) : Sys δ := { s with isSkipRef := true, skipDutNrInst := 0 }

/-- `find_mapid_by_addr`. -/
def findMapidByAddr (cfg : Config δ) (s : Sys δ) (addr : Word) : Option (IOMap δ) × Sys δ :=
  match cfg.maps.find? (·.inside addr) with
  | some map => (some map, s.difftestSkipRef)
  | none => (none, s)

/-- `invoke_callback`. -/
def invokeCallback (s : Sys δ) (map : IOMap δ) (offset : Word) (len : Nat) (isWrite : Bool) :
    Option (Sys δ) :=
  match map.callback with
  | none => some s
  | some c => (c offset len isWrite s.dev).map fun dev => { s with dev := dev }

/-- `mmio_read`; without a device `check_bound` fails. -/
def mmioRead (cfg : Config δ) (s : Sys δ) (addr : Word) (len : Nat) : Option (Word × Sys δ) :=
  match s.findMapidByAddr cfg addr with
  | (none, _) => none
  | (some map, s) =>
    (s.invokeCallback map (addr - map.low) len false).map fun s =>
      (hostRead (map.space s.dev) (addr - map.low) len, s)

/-- `mmio_write`. -/
def mmioWrite (cfg : Config δ) (s : Sys δ) (addr : Word) (len : Nat) (data : Word) :
    Option (Sys δ) :=
  match s.findMapidByAddr cfg addr with
  | (none, _) => none
  | (some map, s) =>
    let space := hostWrite (map.space s.dev) (addr - map.low) len data
    { s with dev := map.setSpace space s.dev }.invokeCallback map (addr - map.low) len true

/-- `vaddr_read` and `paddr_read`. -/
def vaddrRead (cfg : Config δ) (s : Sys δ) (addr : Word) (len : Nat) : Option (Word × Sys δ) :=
  if readable cfg.build addr then some (hostRead s.pmem addr len, s)
  else s.mmioRead cfg addr len

/-- `vaddr_write` and `paddr_write`; a write to `mrom` panics. -/
def vaddrWrite (cfg : Config δ) (s : Sys δ) (addr : Word) (len : Nat) (data : Word) :
    Option (Sys δ) :=
  if writable cfg.build addr then some { s with pmem := hostWrite s.pmem addr len data }
  else if readable cfg.build addr then none
  else s.mmioWrite cfg addr len data

/-! ## Instructions -/

/-- What the lines for loads and stores do with memory. -/
inductive MemOp
  | load (len : Nat) (f : Word → Word)
  | store (len : Nat)

def memOp : Name → Option MemOp
  | .lbu => some (.load 1 id)
  | .lb => some (.load 1 fun v => (sext (v.setWidth 64) 8).setWidth 32)
  | .lh => some (.load 2 fun v => (sext (v.setWidth 64) 16).setWidth 32)
  | .lw => some (.load 4 id)
  | .lhu => some (.load 2 id)
  | .sb => some (.store 1)
  | .sh => some (.store 2)
  | .sw => some (.store 4)
  | _ => none

/-- The part of the machine that `body` works on. -/
def machine (s : Sys δ) : Machine := ⟨s.gpr, s.csr, s.pmem, .running⟩

/-- Takes over the machine `body` left; `set_nemu_state` calls `difftest_skip_ref`. -/
def setMachine (s : Sys δ) (m : Machine) : Sys δ :=
  let s := { s with gpr := m.gpr, csr := m.csr, pmem := m.pmem }
  match m.nemuState with
  | .running => s
  | .ended _ _ => { s.difftestSkipRef with state := .ended }
  | .aborted _ => { s.difftestSkipRef with state := .abort }

/-- The body of a line: the new state, `dnpc` and the guest addresses accessed.
`invalid_inst` fetches two words again. -/
def execBody (cfg : Config δ) (s : Sys δ) (o : Operand) (name : Name) :
    Option (Sys δ × Word × List Word) :=
  match memOp name with
  | some (.load len f) =>
    (s.vaddrRead cfg (o.src1 + o.imm) len).map fun r =>
      (r.2.setMachine (r.2.machine.setReg o.rd (f r.1)), s.pc + 4, [o.src1 + o.imm])
  | some (.store len) =>
    (s.vaddrWrite cfg (o.src1 + o.imm) len o.src2).map fun s' => (s', s.pc + 4, [o.src1 + o.imm])
  | none =>
    if name = .inv then do
      let (_, s) ← s.vaddrRead cfg s.pc 4
      let (_, s) ← s.vaddrRead cfg (s.pc + 4) 4
      let (m, dnpc) ← body cfg.build s.machine s.pc o name
      some (s.setMachine m, dnpc, [s.pc, s.pc + 4])
    else do
      let (m, dnpc) ← body cfg.build s.machine s.pc o name
      some (s.setMachine m, dnpc, [])

/-- `exec_once` with `isa_exec_once`: the new state and the guest addresses accessed. -/
def execOnce (cfg : Config δ) (s : Sys δ) : Option (Sys δ × List Word) := do
  let (inst, s) ← s.vaddrRead cfg s.pc 4
  match instpats.find? (·.accepts inst) with
  | none => some ({ s with gpr := (s.machine.setReg 0 0).gpr, pc := s.pc + 4 }, [s.pc])
  | some row =>
    let (s', dnpc, addrs) ← s.execBody cfg (decodeOperand s.machine inst row.type) row.name
    some ({ s' with gpr := (s'.machine.setReg 0 0).gpr, pc := dnpc }, s.pc :: addrs)

end Sys

/-! ## Differential testing -/

/-- The reference behind `ref_difftest_exec` and `ref_difftest_regcpy`. -/
structure Ref (ρ : Type) where
  exec : ρ → ρ
  toRef : (BitVec 5 → Word) → Word → ρ → ρ
  gpr : ρ → BitVec 5 → Word
  pc : ρ → Word

namespace Sys

variable {δ ρ : Type}

/-- `checkregs`. -/
def checkregs (s : Sys δ) (ref : Ref ρ) (r : ρ) : Sys δ :=
  if (∀ i, s.gpr i = ref.gpr r i) ∧ s.pc = ref.pc r then s else { s with state := .abort }

/-- `difftest_step`: also whether the registers were checked. -/
def difftestStep (s : Sys δ) (ref : Ref ρ) (r : ρ) (npc : Word) : Option (Sys δ × ρ × Bool) :=
  if 0 < s.skipDutNrInst then
    if ref.pc r = npc then some ({ s with skipDutNrInst := 0 }.checkregs ref r, r, true)
    else if s.skipDutNrInst = 1 then none
    else some ({ s with skipDutNrInst := s.skipDutNrInst - 1 }, r, false)
  else if s.isSkipRef then some ({ s with isSkipRef := false }, ref.toRef s.gpr s.pc r, false)
  else some (s.checkregs ref (ref.exec r), ref.exec r, true)

end Sys

/-! ## The devices of `device/` -/

/-- `KEY_QUEUE_LEN`. -/
abbrev keyQueueLen : Nat := 1024

/-- The statics of `keyboard.c`, `timer.c`, `serial.c`, `vga.c` and `audio.c`;
`time` are the readings `get_time` will return. -/
structure Devices where
  keyQueue : Nat → Word
  keyF : Nat
  keyR : Nat
  i8042DataPortBase : Pmem
  time : Nat → BitVec 64
  reading : Nat
  rtcPortBase : Pmem
  serialBase : Pmem
  stderr : List (BitVec 8)
  vgactlPortBase : Pmem
  vmem : Pmem
  audioBase : Pmem
  sbuf : Pmem

namespace Devices

/-- `key_dequeue`. -/
def keyDequeue (d : Devices) : Word × Devices :=
  if d.keyF ≠ d.keyR then (d.keyQueue d.keyF, { d with keyF := (d.keyF + 1) % keyQueueLen })
  else (0, d)

/-- `i8042_data_io_handler`. -/
def i8042DataIoHandler (offset : Word) (_ : Nat) (isWrite : Bool) (d : Devices) : Option Devices :=
  if isWrite = true ∨ offset ≠ 0 then none
  else
    let (key, d) := d.keyDequeue
    some { d with i8042DataPortBase := hostWrite d.i8042DataPortBase 0 4 key }

/-- `rtc_io_handler`. -/
def rtcIoHandler (offset : Word) (_ : Nat) (isWrite : Bool) (d : Devices) : Option Devices :=
  if offset ≠ 0 ∧ offset ≠ 4 then none
  else if isWrite = false ∧ offset = 4 then
    let us := d.time d.reading
    let base := hostWrite d.rtcPortBase 0 4 (us.setWidth 32)
    some { d with
      reading := d.reading + 1
      rtcPortBase := hostWrite base 4 4 ((us >>> 32).setWidth 32) }
  else some d

/-- `serial_io_handler`. -/
def serialIoHandler (offset : Word) (len : Nat) (isWrite : Bool) (d : Devices) : Option Devices :=
  if len ≠ 1 then none
  else if offset = 0 then
    if isWrite = true ∧ d.serialBase 3 &&& 0x80 = 0 then
      some { d with stderr := d.stderr ++ [d.serialBase 0] }
    else some d
  else if offset = 5 then some { d with serialBase := hostWrite d.serialBase 5 1 0x60 }
  else if BitVec.ult offset 8 then some d
  else none

/-- `add_mmio_map`. -/
def mmioMap (addr len : Word) (space : Devices → Pmem) (setSpace : Pmem → Devices → Devices)
    (callback : Option (Word → Nat → Bool → Devices → Option Devices)) : IOMap Devices :=
  ⟨addr, addr + len - 1, space, setSpace, callback⟩

/-- `init_i8042`. -/
def keyboard : IOMap Devices :=
  mmioMap 0xa0000060#32 4 i8042DataPortBase (fun p d => { d with i8042DataPortBase := p })
    (some i8042DataIoHandler)

/-- The maps of `init_device` with the default `Kconfig`. -/
def maps : List (IOMap Devices) :=
  [mmioMap 0xa00003f8#32 8 serialBase (fun p d => { d with serialBase := p })
     (some serialIoHandler),
   mmioMap 0xa0000048#32 8 rtcPortBase (fun p d => { d with rtcPortBase := p })
     (some rtcIoHandler),
   mmioMap 0xa0000100#32 8 vgactlPortBase (fun p d => { d with vgactlPortBase := p }) none,
   mmioMap 0xa1000000#32 0x75300 vmem (fun p d => { d with vmem := p }) none,
   keyboard,
   mmioMap 0xa0000200#32 24 audioBase (fun p d => { d with audioBase := p })
     (some fun _ _ _ d => some d),
   mmioMap 0xa1200000#32 0x10000 sbuf (fun p d => { d with sbuf := p }) none]

end Devices

end Riscv32.Nemu
