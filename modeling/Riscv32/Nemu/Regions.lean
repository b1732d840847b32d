import Riscv32.Nemu.Memory
import Mathlib.Logic.Function.Basic

/-!
# The memory regions behind guest addresses

`memory/paddr.c` of the shared-library build and `difftest_memcpy` of
`ref.c`: six backing arrays, three dispatch chains.  `Nemu.Memory` takes the
arrays for one byte map over guest addresses; `view` is that map.

The chains are written out in the order of the source, since that order decides:
`pmem` lies inside the window of `psram` (`inPsram_of_inPmem`), so an address of it
has two windows and the first test wins.  The windows without it are apart
(`Region.apart`), and `Region.Holds.unique` is what all three chains rest on.
-/

namespace Riscv32.Nemu

open Riscv32.Rtl

/-- The backing arrays. -/
inductive Region
  | sram
  | mrom
  | flash
  | psram
  | sdram
  | pmem
deriving DecidableEq, Repr

namespace Region

/-- `CONFIG_*_BASE`. -/
def base : Region → Word
  | sram => 0x0f000000#32
  | mrom => 0x20000000#32
  | flash => 0x30000000#32
  | psram => 0x80000000#32
  | sdram => 0xa0000000#32
  | pmem => 0x80000000#32

/-- `CONFIG_*_SIZE`. -/
def size : Region → Word
  | sram => 0x2000#32
  | mrom => 0x1000#32
  | flash => 0x10000000#32
  | psram => 0x20000000#32
  | sdram => 0x20000000#32
  | pmem => 0x2000000#32

end Region

/-- The contents of the arrays, by offset. -/
abbrev Backing := Region → Pmem

/-- `*_guest_to_host`: an array and an offset in it. -/
def regionToHost (r : Region) (addr : Word) : Region × Word := (r, addr - r.base)

/-- `guest_to_host`; `none` is the panic. -/
def guestToHost (addr : Word) : Option (Region × Word) :=
  if inSram addr then some (regionToHost .sram addr)
  else if inMrom addr then some (regionToHost .mrom addr)
  else if inFlash addr then some (regionToHost .flash addr)
  else if inPsram addr then some (regionToHost .psram addr)
  else if inSdram addr then some (regionToHost .sdram addr)
  else if inPmem addr then some (regionToHost .pmem addr)
  else none

namespace Backing

variable (b : Backing)

/-- `sram_read` … `sdram_read`. -/
def regionRead (r : Region) (addr : Word) (len : Nat) : Word := hostRead (b r) (addr - r.base) len

/-- `sram_write` … `sdram_write`. -/
def regionWrite (r : Region) (addr : Word) (len : Nat) (data : Word) : Backing :=
  Function.update b r (hostWrite (b r) (addr - r.base) len data)

/-- `pmem_read`. -/
def pmemRead (addr : Word) (len : Nat) : Option Word :=
  (guestToHost addr).map fun h => hostRead (b h.1) h.2 len

/-- `pmem_write`. -/
def pmemWrite (addr : Word) (len : Nat) (data : Word) : Option Backing :=
  (guestToHost addr).map fun h => Function.update b h.1 (hostWrite (b h.1) h.2 len data)

/-- `paddr_read`; `none` leaves memory for a device or a panic. -/
def paddrRead (addr : Word) (len : Nat) : Option Word :=
  if inSram addr then some (b.regionRead .sram addr len)
  else if inMrom addr then some (b.regionRead .mrom addr len)
  else if inFlash addr then some (b.regionRead .flash addr len)
  else if inPsram addr then some (b.regionRead .psram addr len)
  else if inSdram addr then some (b.regionRead .sdram addr len)
  else if inPmem addr then b.pmemRead addr len
  else none

/-- `paddr_write`; also `none` for a write to `mrom`. -/
def paddrWrite (addr : Word) (len : Nat) (data : Word) : Option Backing :=
  if inSram addr then some (b.regionWrite .sram addr len data)
  else if inMrom addr then none
  else if inFlash addr then some (b.regionWrite .flash addr len data)
  else if inPsram addr then some (b.regionWrite .psram addr len data)
  else if inSdram addr then some (b.regionWrite .sdram addr len data)
  else if inPmem addr then b.pmemWrite addr len data
  else none

/-- `memcpy` to an offset of an array. -/
def memcpy (arr : Pmem) (off : Word) (buf : List (BitVec 8)) : Pmem := fun x =>
  (buf[(x - off).toNat]?).getD (arr x)

/-- `difftest_memcpy` with `DIFFTEST_TO_REF`. -/
def difftestMemcpy (addr : Word) (buf : List (BitVec 8)) : Option Backing :=
  (guestToHost addr).map fun h => Function.update b h.1 (memcpy (b h.1) h.2 buf)

/-- The byte at a guest address. -/
def view (addr : Word) : BitVec 8 := (guestToHost addr).elim 0 fun h => b h.1 h.2

end Backing

/-! ## Which array -/

/-- The windows without `pmem`, which `psram` covers. -/
def Region.Holds (r : Region) (addr : Word) : Prop :=
  r ≠ .pmem ∧ r.base.toNat ≤ addr.toNat ∧ addr.toNat < r.base.toNat + r.size.toNat

theorem within_iff {base size addr : Word} (hFit : base.toNat + size.toNat ≤ 4294967296) :
    within base size addr = true ↔
      base.toNat ≤ addr.toNat ∧ addr.toNat < base.toNat + size.toNat := by
  have ha := addr.isLt
  have hb := base.isLt
  simp only [within, BitVec.ult, decide_eq_true_eq, BitVec.toNat_sub]
  omega

section Windows

variable {r : Region} {addr : Word}

/-- The windows end before the address space does. -/
theorem within_holds (hr : r ≠ .pmem) : within r.base r.size addr = true ↔ r.Holds addr := by
  have hFit : r.base.toNat + r.size.toNat ≤ 4294967296 := by cases r <;> decide
  rw [within_iff hFit]
  exact ⟨fun h => ⟨hr, h⟩, And.right⟩

theorem inSram_iff : inSram addr = true ↔ Region.sram.Holds addr :=
  within_holds (r := .sram) (by decide)

theorem inMrom_iff : inMrom addr = true ↔ Region.mrom.Holds addr :=
  within_holds (r := .mrom) (by decide)

theorem inFlash_iff : inFlash addr = true ↔ Region.flash.Holds addr :=
  within_holds (r := .flash) (by decide)

theorem inPsram_iff : inPsram addr = true ↔ Region.psram.Holds addr :=
  within_holds (r := .psram) (by decide)

theorem inSdram_iff : inSdram addr = true ↔ Region.sdram.Holds addr :=
  within_holds (r := .sdram) (by decide)

/-- The `pmem` window lies in the `psram` window. -/
theorem inPsram_of_inPmem (h : inPmem addr = true) : inPsram addr = true := by
  rw [inPmem, within_iff (by decide)] at h
  rw [inPsram, within_iff (by decide)]
  simp only [BitVec.toNat_ofNat] at h ⊢
  omega

/-- The windows do not meet. -/
theorem Region.apart {r' : Region} (hr : r ≠ .pmem) (hr' : r' ≠ .pmem) (hNe : r ≠ r') :
    r.base.toNat + r.size.toNat ≤ r'.base.toNat ∨
      r'.base.toNat + r'.size.toNat ≤ r.base.toNat := by
  cases r <;> cases r' <;> first | contradiction | decide

/-- An address lies in one window only. -/
theorem Region.Holds.unique {r' : Region} (h : r.Holds addr) (h' : r'.Holds addr) : r = r' := by
  obtain ⟨hr, hLow, hHigh⟩ := h
  obtain ⟨hr', hLow', hHigh'⟩ := h'
  by_contra hNe
  have hApart := Region.apart hr hr' hNe
  omega

/-- The test of another window fails. -/
private theorem other_window {r' : Region} {test : Bool} (h : r.Holds addr)
    (hTest : test = true ↔ r'.Holds addr) (hNe : r ≠ r') : test = false := by
  rw [← Bool.not_eq_true]
  exact fun hTrue => hNe (h.unique (hTest.mp hTrue))

theorem guestToHost_of_holds (h : r.Holds addr) :
    guestToHost addr = some (regionToHost r addr) := by
  unfold guestToHost
  cases r with
  | sram => rw [if_pos (inSram_iff.mpr h)]
  | mrom => simp [other_window h inSram_iff, inMrom_iff.mpr h]
  | flash =>
      simp [other_window h inSram_iff, other_window h inMrom_iff, inFlash_iff.mpr h]
  | psram =>
      simp [other_window h inSram_iff, other_window h inMrom_iff, other_window h inFlash_iff,
        inPsram_iff.mpr h]
  | sdram =>
      simp [other_window h inSram_iff, other_window h inMrom_iff, other_window h inFlash_iff,
        other_window h inPsram_iff, inSdram_iff.mpr h]
  | pmem => exact absurd rfl h.1

/-- `pmem` is never picked: `psram` is asked before. -/
theorem holds_of_guestToHost {host : Region × Word} (h : guestToHost addr = some host) :
    host.1.Holds addr ∧ host = regionToHost host.1 addr := by
  unfold guestToHost at h
  split at h
  · rename_i hIn
    cases h
    exact ⟨inSram_iff.mp hIn, rfl⟩
  · split at h
    · rename_i hIn
      cases h
      exact ⟨inMrom_iff.mp hIn, rfl⟩
    · split at h
      · rename_i hIn
        cases h
        exact ⟨inFlash_iff.mp hIn, rfl⟩
      · split at h
        · rename_i hIn
          cases h
          exact ⟨inPsram_iff.mp hIn, rfl⟩
        · rename_i hNot
          split at h
          · rename_i hIn
            cases h
            exact ⟨inSdram_iff.mp hIn, rfl⟩
          · split at h
            · rename_i hIn
              exact absurd (inPsram_of_inPmem hIn) hNot
            · cases h

end Windows

/-! ## The dispatchers agree -/

section Dispatch

variable (b : Backing) (addr : Word) (len : Nat)

theorem inPmem_eq_false {addr : Word} (h : inPsram addr = false) : inPmem addr = false := by
  by_contra hPmem
  rw [inPsram_of_inPmem (by simpa using hPmem)] at h
  cases h

-- one test after the other; the test for `pmem` comes after that for `psram` and never succeeds
theorem paddrRead_eq :
    b.paddrRead addr len = (guestToHost addr).map fun h => hostRead (b h.1) h.2 len := by
  unfold Backing.paddrRead guestToHost
  cases inSram addr with | true => rfl | false => ?_
  cases inMrom addr with | true => rfl | false => ?_
  cases inFlash addr with | true => rfl | false => ?_
  cases hPsram : inPsram addr with | true => rfl | false => ?_
  cases inSdram addr with | true => rfl | false => ?_
  rw [inPmem_eq_false hPsram]
  rfl

theorem paddrWrite_eq (data : Word) :
    b.paddrWrite addr len data = (guestToHost addr).bind fun h =>
      if h.1 = .mrom then none
      else some (Function.update b h.1 (hostWrite (b h.1) h.2 len data)) := by
  unfold Backing.paddrWrite guestToHost
  cases inSram addr with | true => rfl | false => ?_
  cases inMrom addr with | true => rfl | false => ?_
  cases inFlash addr with | true => rfl | false => ?_
  cases hPsram : inPsram addr with | true => rfl | false => ?_
  cases inSdram addr with | true => rfl | false => ?_
  rw [inPmem_eq_false hPsram]
  rfl

end Dispatch

end Riscv32.Nemu
