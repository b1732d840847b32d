import Riscv32.Nemu.Regions
import Riscv32.Nemu.Devices

/-!
# Accesses and the ends of their arrays

`paddr_read`, `paddr_write`, `map_read` and `map_write` pick an array by the
first address of an access and hand the length on to `host_read` and
`host_write`.  Offsets are numbers here, as the host's pointers do not wrap.

`hostBytes` are the bytes that an access really touches (`hostRead_congr`,
`hostWrite_frame`), and `MemoryInside` and `DeviceInside` say that they lie in the
array or the space that was picked.  The answer is the same for both: they do
unless the access starts among the last `len - 1` addresses of a window
(`accesses_inside_iff`).  `Nemu.Windows` goes on from there.
-/

namespace Riscv32.Nemu

open Riscv32.Rtl

variable {δ : Type}

/-! ## Host accesses -/

/-- The bytes `host_read` and `host_write` access at an offset; other lengths
access nothing. -/
def hostBytes (offset len : Nat) : List Nat :=
  if len = 1 ∨ len = 2 ∨ len = 4 then (List.range len).map (offset + ·) else []

theorem mem_hostBytes {offset len i : Nat} (hLen : len = 1 ∨ len = 2 ∨ len = 4) :
    i ∈ hostBytes offset len ↔ offset ≤ i ∧ i < offset + len := by
  rw [hostBytes, if_pos hLen, List.mem_map]
  constructor
  · rintro ⟨k, hk, rfl⟩
    have hLess := List.mem_range.1 hk
    omega
  · rintro ⟨hLow, hHigh⟩
    exact ⟨i - offset, List.mem_range.2 (by omega), by omega⟩

/-- `host_read` at two places that hold the same bytes. -/
theorem hostRead_shift {mem mem' : Pmem} {a a' : Word} {len : Nat}
    (h : ∀ k < len, mem (a + BitVec.ofNat 32 k) = mem' (a' + BitVec.ofNat 32 k)) :
    hostRead mem a len = hostRead mem' a' len := by
  unfold hostRead
  split
  · have h0 : mem a = mem' a' := by simpa using h 0 (by decide)
    rw [h0]
  · have h0 : mem a = mem' a' := by simpa using h 0 (by decide)
    rw [h0, show mem (a + 1) = mem' (a' + 1) from h 1 (by decide)]
  · have h0 : mem a = mem' a' := by simpa using h 0 (by decide)
    rw [h0, show mem (a + 1) = mem' (a' + 1) from h 1 (by decide),
      show mem (a + 2) = mem' (a' + 2) from h 2 (by decide),
      show mem (a + 3) = mem' (a' + 3) from h 3 (by decide)]
  · rfl

/-- `host_read` depends on these bytes only. -/
theorem hostRead_congr {mem mem' : Pmem} {offset : Word} {len : Nat}
    (h : ∀ i ∈ hostBytes offset.toNat len, mem (BitVec.ofNat 32 i) = mem' (BitVec.ofNat 32 i)) :
    hostRead mem offset len = hostRead mem' offset len := by
  by_cases hLen : len = 1 ∨ len = 2 ∨ len = 4
  · refine hostRead_shift fun k hk => ?_
    have hMem := h (offset.toNat + k) ((mem_hostBytes hLen).2 (by omega))
    rwa [BitVec.ofNat_add, BitVec.ofNat_toNat, BitVec.setWidth_eq] at hMem
  · unfold hostRead
    split <;> first | rfl | exact absurd (by decide) hLen

/-- `host_write` changes these bytes only. -/
theorem hostWrite_frame {mem : Pmem} {offset data x : Word} {len : Nat}
    (h : ∀ i ∈ hostBytes offset.toNat len, x ≠ BitVec.ofNat 32 i) :
    hostWrite mem offset len data x = mem x := by
  unfold hostWrite
  refine if_neg fun hHit => ?_
  refine h (offset.toNat + (x - offset).toNat) ((mem_hostBytes hHit.2).2 (by omega)) ?_
  rw [BitVec.ofNat_add, BitVec.ofNat_toNat, BitVec.ofNat_toNat, BitVec.setWidth_eq,
    BitVec.setWidth_eq, BitVec.add_comm, BitVec.sub_add_cancel]

/-! ## Guest memory -/

/-- The array and the offset a memory branch of `paddr_read` or `paddr_write`
selects. -/
def selected (build : Build) (isWrite : Bool) (addr : Word) : Option (Region × Word) :=
  match build with
  | .plain => if inPmem addr then some (regionToHost .pmem addr) else none
  | .share => (guestToHost addr).filter fun h => !isWrite || h.1 ≠ .mrom

/-- `paddr_read` of both builds; `none` leaves memory. -/
def Backing.read (b : Backing) (build : Build) (addr : Word) (len : Nat) : Option Word :=
  match build with
  | .plain => if inPmem addr then some (b.regionRead .pmem addr len) else none
  | .share => b.paddrRead addr len

/-- `paddr_write` of both builds. -/
def Backing.write (b : Backing) (build : Build) (addr : Word) (len : Nat) (data : Word) :
    Option Backing :=
  match build with
  | .plain => if inPmem addr then some (b.regionWrite .pmem addr len data) else none
  | .share => b.paddrWrite addr len data

section Branches

variable (b : Backing) (build : Build) (addr : Word) (len : Nat)

/-- A read is `host_read` at what is selected. -/
theorem read_selected : b.read build addr len =
    (selected build false addr).map fun h => hostRead (b h.1) h.2 len := by
  cases build with
  | plain =>
      unfold Backing.read selected
      split_ifs <;> rfl
  | share =>
      rw [Backing.read, paddrRead_eq, selected]
      cases guestToHost addr <;> rfl

/-- A write is `host_write` at what is selected. -/
theorem write_selected (data : Word) : b.write build addr len data =
    (selected build true addr).map fun h =>
      Function.update b h.1 (hostWrite (b h.1) h.2 len data) := by
  cases build with
  | plain =>
      unfold Backing.write selected
      split_ifs <;> rfl
  | share =>
      rw [Backing.write, paddrWrite_eq, selected]
      cases hHost : guestToHost addr with
      | none => rfl
      | some h =>
          by_cases hMrom : h.1 = .mrom
          · simp [Option.filter, hMrom]
          · simp [Option.filter, hMrom]

end Branches

/-- The windows a memory branch can select. -/
def branches : Build → Bool → List Region
  | .plain, _ => [.pmem]
  | .share, false => [.sram, .mrom, .flash, .psram, .sdram]
  | .share, true => [.sram, .flash, .psram, .sdram]

/-- The address lies in the window. -/
def Region.Covers (r : Region) (addr : Word) : Prop :=
  r.base.toNat ≤ addr.toNat ∧ addr.toNat < r.base.toNat + r.size.toNat

instance (r : Region) (addr : Word) : Decidable (r.Covers addr) :=
  inferInstanceAs (Decidable (_ ∧ _))

/-- A branch is taken for the addresses of its window. -/
theorem selected_iff {build : Build} {isWrite : Bool} {addr offset : Word} {r : Region} :
    selected build isWrite addr = some (r, offset) ↔
      r ∈ branches build isWrite ∧ r.Covers addr ∧ offset = addr - r.base := by
  cases build with
  | plain =>
      have hIn : inPmem addr = true ↔ Region.pmem.Covers addr := within_iff (by decide)
      simp only [selected, branches, List.mem_singleton]
      split_ifs with hPmem
      · constructor
        · intro h
          cases h
          exact ⟨rfl, hIn.1 hPmem, rfl⟩
        · rintro ⟨rfl, -, rfl⟩
          rfl
      · refine iff_of_false (by simp) ?_
        rintro ⟨rfl, hCovers, -⟩
        exact hPmem (hIn.2 hCovers)
  | share =>
      have hMem : r ∈ branches .share isWrite ↔ r ≠ .pmem ∧ (isWrite = true → r ≠ .mrom) := by
        cases isWrite <;> cases r <;> decide
      rw [hMem, selected, Option.filter_eq_some_iff]
      constructor
      · rintro ⟨hHost, hWrite⟩
        obtain ⟨⟨hNe, hCovers⟩, hOffset⟩ := holds_of_guestToHost hHost
        refine ⟨⟨hNe, fun hTrue => ?_⟩, hCovers, congrArg Prod.snd hOffset⟩
        simpa [hTrue] using hWrite
      · rintro ⟨⟨hNe, hWrite⟩, hCovers, rfl⟩
        refine ⟨guestToHost_of_holds ⟨hNe, hCovers⟩, ?_⟩
        cases isWrite with
        | true => simpa using hWrite rfl
        | false => rfl

/-- The access starts among the last `len - 1` addresses of the window. -/
def Region.Straddled (r : Region) (addr : Word) (len : Nat) : Prop :=
  addr.toNat < r.base.toNat + r.size.toNat ∧ r.base.toNat + r.size.toNat < addr.toNat + len

instance (r : Region) (addr : Word) (len : Nat) : Decidable (r.Straddled addr len) :=
  inferInstanceAs (Decidable (_ ∧ _))

/-- What a memory branch accesses lies in the array it selects. -/
def MemoryInside (build : Build) (isWrite : Bool) (addr : Word) (len : Nat) : Prop :=
  ∀ r offset, selected build isWrite addr = some (r, offset) →
    ∀ i ∈ hostBytes offset.toNat len, i < r.size.toNat

theorem memoryInside_iff {build : Build} {isWrite : Bool} {addr : Word} {len : Nat}
    (hLen : len = 1 ∨ len = 2 ∨ len = 4) :
    MemoryInside build isWrite addr len ↔
      ∀ r ∈ branches build isWrite, ¬ r.Straddled addr len := by
  have hOffset {r : Region} (hCovers : r.Covers addr) :
      (addr - r.base).toNat = addr.toNat - r.base.toNat := by
    have hLow := hCovers.1
    have hAddr := addr.isLt
    rw [BitVec.toNat_sub]
    omega
  constructor
  · rintro h r hr ⟨hHigh, hOver⟩
    have hFar : len ≤ r.size.toNat := by
      have hSize : 4 ≤ r.size.toNat := by cases r <;> decide
      omega
    have hCovers : r.Covers addr := ⟨by omega, hHigh⟩
    have hLast := h r _ (selected_iff.2 ⟨hr, hCovers, rfl⟩)
      ((addr - r.base).toNat + (len - 1)) ((mem_hostBytes hLen).2 (by omega))
    rw [hOffset hCovers] at hLast
    have hLow := hCovers.1
    omega
  · intro h r offset hSelected i hi
    obtain ⟨hr, hCovers, rfl⟩ := selected_iff.1 hSelected
    have hNot := h r hr
    rw [mem_hostBytes hLen, hOffset hCovers] at hi
    have hLow := hCovers.1
    have hHigh := hCovers.2
    unfold Region.Straddled at hNot
    omega

/-! ## Devices -/

/-- `check_bound`; false is a failed assertion. -/
def checkBound (map : Option (IOMap δ)) (addr : Word) : Bool :=
  match map with
  | none => false
  | some map => decide (addr ≤ map.high) && decide (map.low ≤ addr)

namespace Sys

/-- `map_read`. -/
def mapRead (s : Sys δ) (addr : Word) (len : Nat) (map : Option (IOMap δ)) :
    Option (Word × Sys δ) :=
  if ¬ (1 ≤ len ∧ len ≤ 8) then none
  else if checkBound map addr then
    map.bind fun map =>
      (s.invokeCallback map (addr - map.low) len false).map fun s =>
        (hostRead (map.space s.dev) (addr - map.low) len, s)
  else none

/-- `map_write`. -/
def mapWrite (s : Sys δ) (addr : Word) (len : Nat) (data : Word) (map : Option (IOMap δ)) :
    Option (Sys δ) :=
  if ¬ (1 ≤ len ∧ len ≤ 8) then none
  else if checkBound map addr then
    map.bind fun map =>
      let space := hostWrite (map.space s.dev) (addr - map.low) len data
      { s with dev := map.setSpace space s.dev }.invokeCallback map (addr - map.low) len true
  else none

end Sys

section Mmio

variable (cfg : Config δ) (s : Sys δ) (addr : Word) {len : Nat} (hLen : 1 ≤ len ∧ len ≤ 8)

/-- What `find_mapid_by_addr` finds passes `check_bound`. -/
theorem checkBound_found :
    checkBound (s.findMapidByAddr cfg addr).1 addr = (s.findMapidByAddr cfg addr).1.isSome := by
  unfold Sys.findMapidByAddr
  cases hFind : cfg.maps.find? (·.inside addr) with
  | none => rfl
  | some map =>
      have hInside := List.find?_some hFind
      simp only [IOMap.inside, Bool.and_eq_true, decide_eq_true_eq] at hInside
      simp [checkBound, hInside.1, hInside.2]

include hLen

/-- `mmio_read` is `map_read` of the device found. -/
theorem mmioRead_mapRead : s.mmioRead cfg addr len =
    (s.findMapidByAddr cfg addr).2.mapRead addr len (s.findMapidByAddr cfg addr).1 := by
  rw [Sys.mapRead, if_neg (not_not.2 hLen), checkBound_found, Sys.mmioRead]
  cases hFind : s.findMapidByAddr cfg addr with
  | mk map s' => cases map <;> rfl

/-- `mmio_write` is `map_write` of the device found. -/
theorem mmioWrite_mapWrite (data : Word) : s.mmioWrite cfg addr len data =
    (s.findMapidByAddr cfg addr).2.mapWrite addr len data (s.findMapidByAddr cfg addr).1 := by
  rw [Sys.mapWrite, if_neg (not_not.2 hLen), checkBound_found, Sys.mmioWrite]
  cases hFind : s.findMapidByAddr cfg addr with
  | mk map s' => cases map <;> rfl

end Mmio

/-- What `map_read` and `map_write` access lies in the `high - low + 1` bytes of
the device's space. -/
def DeviceInside (map : IOMap δ) (addr : Word) (len : Nat) : Prop :=
  checkBound (some map) addr = true →
    ∀ i ∈ hostBytes (addr - map.low).toNat len, i < map.high.toNat - map.low.toNat + 1

/-- The access starts among the last `len - 1` addresses of the device. -/
def IOMap.Straddled (map : IOMap δ) (addr : Word) (len : Nat) : Prop :=
  map.low.toNat ≤ addr.toNat ∧ addr.toNat ≤ map.high.toNat ∧
    map.high.toNat + 1 < addr.toNat + len

theorem deviceInside_iff {map : IOMap δ} {addr : Word} {len : Nat}
    (hLen : len = 1 ∨ len = 2 ∨ len = 4) :
    DeviceInside map addr len ↔ ¬ map.Straddled addr len := by
  have hBound : checkBound (some map) addr = true ↔
      addr.toNat ≤ map.high.toNat ∧ map.low.toNat ≤ addr.toNat := by
    simp only [checkBound, Bool.and_eq_true, decide_eq_true_eq, BitVec.le_def]
  have hOffset (hLow : map.low.toNat ≤ addr.toNat) :
      (addr - map.low).toNat = addr.toNat - map.low.toNat := by
    have hAddr := addr.isLt
    rw [BitVec.toNat_sub]
    omega
  unfold DeviceInside IOMap.Straddled
  rw [hBound]
  constructor
  · rintro h ⟨hLow, hHigh, hOver⟩
    have hLast := h ⟨hHigh, hLow⟩ ((addr - map.low).toNat + (len - 1))
      ((mem_hostBytes hLen).2 (by omega))
    rw [hOffset hLow] at hLast
    omega
  · rintro h ⟨hHigh, hLow⟩ i hi
    rw [mem_hostBytes hLen, hOffset hLow] at hi
    omega

/-! ## The result -/

/-- **Accesses stay inside their arrays exactly when they do not start in the
last `len - 1` addresses of a window.** -/
theorem accesses_inside_iff (addr : Word) (len : Nat) (hLen : len = 1 ∨ len = 2 ∨ len = 4) :
    (∀ build isWrite, MemoryInside build isWrite addr len ↔
        ∀ r ∈ branches build isWrite, ¬ r.Straddled addr len) ∧
      ∀ map : IOMap δ, DeviceInside map addr len ↔ ¬ map.Straddled addr len :=
  ⟨fun _ _ => memoryInside_iff hLen, fun _ => deviceInside_iff hLen⟩

/-- The last word of `pmem`. -/
theorem accesses_inside_last : MemoryInside .plain false 0x81fffffc#32 4 :=
  ((@accesses_inside_iff Unit 0x81fffffc#32 4 (by decide)).1 .plain false).2 (by decide)

/-- A word read at the last byte of `pmem` runs past the array. -/
theorem read_past_pmem : ¬ MemoryInside .plain false 0x81ffffff#32 4 := by
  intro h
  have hLast := h .pmem 0x1ffffff#32 (by decide) 0x2000000 (by decide)
  exact absurd hLast (by decide)

end Riscv32.Nemu
