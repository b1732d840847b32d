import Riscv32.Rtl.Params

/-!
# NEMU guest memory

`memory/paddr.c` and `memory/host.h` with the default `Kconfig` windows.  The
backing arrays are one byte map over guest addresses: every window has its own
array, and an access all of whose bytes lie in one window touches that array
only.  Device accesses and out-of-bound panics leave this memory; they are `none`.

The windows are tested for the first address of an access, as the source does.
An access that starts in a window and runs over its end leaves the array in C;
the map has no such end, and what it gives for such an access is not what the
program does.  Results that depend on it therefore exclude these accesses:
`Nemu.Windows` has the condition (`insideWindow`) and the proof that under it the
map and the arrays agree, `Nemu.Bounds` says which accesses they are.
-/

namespace Riscv32.Nemu

open Riscv32.Rtl

/-- Guest bytes. -/
abbrev Pmem := Word → BitVec 8

/-- The two memory configurations: `share` stands for `CONFIG_TARGET_SHARE`,
`CONFIG_PC_TRACE` or `CONFIG_BRANCH_TRACE`. -/
inductive Build
  | plain
  | share
deriving DecidableEq, Repr

/-- `addr - base < size` on unsigned words. -/
def within (base size addr : Word) : Bool := BitVec.ult (addr - base) size

def inPmem (addr : Word) : Bool := within 0x80000000#32 0x2000000#32 addr
def inMrom (addr : Word) : Bool := within 0x20000000#32 0x1000#32 addr
def inSram (addr : Word) : Bool := within 0x0f000000#32 0x2000#32 addr
def inFlash (addr : Word) : Bool := within 0x30000000#32 0x10000000#32 addr
def inPsram (addr : Word) : Bool := within 0x80000000#32 0x20000000#32 addr
def inSdram (addr : Word) : Bool := within 0xa0000000#32 0x20000000#32 addr

/-- The memory branches of `paddr_read`. -/
def readable (b : Build) (addr : Word) : Bool :=
  match b with
  | .plain => inPmem addr
  | .share =>
      inSram addr || inMrom addr || inFlash addr || inPsram addr || inSdram addr || inPmem addr

/-- The memory branches of `paddr_write`; a write to `mrom` panics. -/
def writable (b : Build) (addr : Word) : Bool :=
  match b with
  | .plain => inPmem addr
  | .share =>
      inSram addr ||
        (!inMrom addr && (inFlash addr || inPsram addr || inSdram addr || inPmem addr))

/-- `host_read`. -/
def hostRead (mem : Pmem) (addr : Word) (len : Nat) : Word :=
  match len with
  | 1 => (mem addr).setWidth 32
  | 2 => (mem (addr + 1) ++ mem addr : BitVec 16).setWidth 32
  | 4 => (mem (addr + 3) ++ mem (addr + 2) ++ mem (addr + 1) ++ mem addr : BitVec 32)
  | _ => 0

/-- `host_write`. -/
def hostWrite (mem : Pmem) (addr : Word) (len : Nat) (data : Word) : Pmem := fun x =>
  if (x - addr).toNat < len ∧ (len = 1 ∨ len = 2 ∨ len = 4) then
    data.extractLsb' (8 * (x - addr).toNat) 8
  else mem x

/-- `vaddr_read` and `paddr_read`. -/
def paddrRead (b : Build) (mem : Pmem) (addr : Word) (len : Nat) : Option Word :=
  if readable b addr then some (hostRead mem addr len) else none

/-- `vaddr_write` and `paddr_write`. -/
def paddrWrite (b : Build) (mem : Pmem) (addr : Word) (len : Nat) (data : Word) : Option Pmem :=
  if writable b addr then some (hostWrite mem addr len data) else none

end Riscv32.Nemu
