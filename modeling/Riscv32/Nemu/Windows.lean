import Riscv32.Nemu.Bounds

/-!
# Accesses inside one window, and one map of bytes for the arrays

`Nemu.Memory` takes the backing arrays of `paddr.c` for one map from guest
addresses to bytes and tests the first address of an access, as `paddr_read`
and `paddr_write` do.  That is what the arrays do as long as all bytes of the
access lie in the window of its first address; past the end of a window the C
code leaves its array, and the map says nothing about it.

`insideWindow` is the condition.  `insideWindow_iff` says that it is the memory
branch of the access being taken together with `MemoryInside`, which
`accesses_inside_iff` characterises.  `read_bytes` and `write_bytes` say that
under it the access to the arrays is the access to the map `Backing.bytes`.
-/

namespace Riscv32.Nemu

open Riscv32.Rtl

/-! ## The condition -/

/-- All `n` bytes from `addr` on lie in the window. -/
def Region.contains (r : Region) (addr : Word) (n : Nat) : Bool :=
  r.base.toNat ≤ addr.toNat && addr.toNat + n ≤ r.base.toNat + r.size.toNat

/-- All `n` bytes from `addr` on lie in one of the windows of the build. -/
def insideWindow (build : Build) (isWrite : Bool) (addr : Word) (n : Nat) : Bool :=
  (branches build isWrite).any (·.contains addr n)

section Inside

variable {build : Build} {isWrite : Bool} {addr : Word} {len : Nat} {r : Region}

theorem contains_iff : r.contains addr len = true ↔
    r.base.toNat ≤ addr.toNat ∧ addr.toNat + len ≤ r.base.toNat + r.size.toNat := by
  simp only [Region.contains, Bool.and_eq_true, decide_eq_true_eq]

theorem covers_of_contains (hLen : 0 < len) (h : r.contains addr len = true) : r.Covers addr := by
  obtain ⟨hLow, hHigh⟩ := contains_iff.1 h
  exact ⟨hLow, by omega⟩

/-- The windows among which a branch is chosen do not meet. -/
theorem branches_unique {r' : Region} (hr : r ∈ branches build isWrite)
    (hr' : r' ∈ branches build isWrite) (h : r.Covers addr) (h' : r'.Covers addr) : r = r' := by
  have hEq := (selected_iff.2 ⟨hr, h, rfl⟩).symm.trans (selected_iff.2 ⟨hr', h', rfl⟩)
  simpa using congrArg (Option.map Prod.fst) hEq

/-- The window of an access, and what is selected for it. -/
theorem insideWindow_selected (hLen : 0 < len) (h : insideWindow build isWrite addr len = true) :
    ∃ r ∈ branches build isWrite, r.contains addr len = true ∧
      selected build isWrite addr = some (r, addr - r.base) := by
  obtain ⟨r, hr, hIn⟩ := List.any_eq_true.1 h
  exact ⟨r, hr, hIn, selected_iff.2 ⟨hr, covers_of_contains hLen hIn, rfl⟩⟩

/-- An access is inside a window if its branch is taken and its bytes lie in the
array. -/
theorem insideWindow_iff (hLen : len = 1 ∨ len = 2 ∨ len = 4) :
    insideWindow build isWrite addr len = true ↔
      (selected build isWrite addr).isSome = true ∧ MemoryInside build isWrite addr len := by
  have hPos : 0 < len := by omega
  rw [memoryInside_iff hLen]
  constructor
  · intro h
    obtain ⟨r, hr, hIn, hSelected⟩ := insideWindow_selected hPos h
    refine ⟨by rw [hSelected]; rfl, fun r' hr' hOver => ?_⟩
    obtain ⟨hLow, hHigh⟩ := contains_iff.1 hIn
    have hCovers' : r'.Covers addr := by
      have hSize : 4 ≤ r'.size.toNat := by cases r' <;> decide
      exact ⟨by have := hOver.2; omega, hOver.1⟩
    obtain rfl := branches_unique hr hr' (covers_of_contains hPos hIn) hCovers'
    exact absurd hOver.2 (by omega)
  · rintro ⟨hTaken, hInside⟩
    obtain ⟨⟨r, offset⟩, hSelected⟩ := Option.isSome_iff_exists.1 hTaken
    obtain ⟨hr, ⟨hLow, hHigh⟩, -⟩ := selected_iff.1 hSelected
    refine List.any_eq_true.2 ⟨r, hr, contains_iff.2 ⟨hLow, ?_⟩⟩
    have hNot := hInside r hr
    unfold Region.Straddled at hNot
    omega

end Inside

/-! ## The map -/

/-- The arrays as one map. -/
def Backing.bytes (b : Backing) (build : Build) : Pmem := fun addr =>
  (selected build false addr).elim 0 fun h => b h.1 h.2

section OneMap

variable {b : Backing} {build : Build} {addr x : Word} {len : Nat} {r : Region}

/-- The memory branches are those of `Nemu.Memory`. -/
theorem readable_selected (build : Build) (addr : Word) :
    readable build addr = (selected build false addr).isSome := by
  cases build with
  | plain =>
      unfold readable selected
      split_ifs with h <;> simp [h]
  | share =>
      unfold readable selected guestToHost
      split_ifs <;> simp_all

theorem writable_selected (build : Build) (addr : Word) :
    writable build addr = (selected build true addr).isSome := by
  cases build with
  | plain =>
      unfold writable selected
      split_ifs with h <;> simp [h]
  | share =>
      unfold writable selected guestToHost
      split_ifs <;> simp_all [regionToHost]

theorem bytes_of_covers (hr : r ∈ branches build false) (hx : r.Covers x) :
    b.bytes build x = b r (x - r.base) := by
  rw [Backing.bytes, selected_iff.2 ⟨hr, hx, rfl⟩]
  rfl

/-- What can be written can be read. -/
theorem mem_branches_read (hr : r ∈ branches build true) : r ∈ branches build false := by
  revert hr
  cases build <;> cases r <;> decide

/-- Offsets in an array are as far apart as the addresses. -/
theorem sub_base_sub (x addr base : Word) : (x - base) - (addr - base) = x - addr := by
  bv_omega

/-- The bytes of an access lie in its window. -/
theorem covers_of_access (hIn : r.contains addr len = true) (hx : (x - addr).toNat < len) :
    r.Covers x := by
  obtain ⟨hLow, hHigh⟩ := contains_iff.1 hIn
  have hFit : r.base.toNat + r.size.toNat ≤ 4294967296 := by cases r <;> decide
  have ha := addr.isLt
  have hb := x.isLt
  rw [BitVec.toNat_sub] at hx
  exact ⟨by omega, by omega⟩

/-- A read inside a window is a read of the one map. -/
theorem read_bytes (hLen : 0 < len) (hIn : insideWindow build false addr len = true) :
    b.read build addr len = paddrRead build (b.bytes build) addr len := by
  obtain ⟨r, hr, hContains, hSelected⟩ := insideWindow_selected hLen hIn
  have hReadable : readable build addr = true := by rw [readable_selected, hSelected]; rfl
  rw [read_selected, hSelected, paddrRead, if_pos hReadable, Option.map_some]
  refine congrArg some (hostRead_shift fun k hk => ?_)
  have hNext : (addr + BitVec.ofNat 32 k - addr).toNat < len := by
    rw [BitVec.add_comm, BitVec.add_sub_cancel, BitVec.toNat_ofNat]
    exact Nat.lt_of_le_of_lt (Nat.mod_le _ _) hk
  rw [bytes_of_covers hr (covers_of_access hContains hNext)]
  congr 1
  bv_omega

/-- The map after a write to one array. -/
theorem bytes_update (hr : r ∈ branches build false) {arr : Pmem} :
    Backing.bytes (Function.update b r arr) build x =
      if r.Covers x then arr (x - r.base) else b.bytes build x := by
  split
  case isTrue hx => rw [bytes_of_covers hr hx, Function.update_self]
  case isFalse hx =>
    unfold Backing.bytes
    cases hSelected : selected build false x with
    | none => rfl
    | some h =>
        obtain ⟨hr', hx', -⟩ := selected_iff.1 hSelected
        have hNe : h.1 ≠ r := by
          rintro rfl
          exact hx hx'
        rw [Option.elim_some, Option.elim_some, Function.update_of_ne hNe]

/-- A write inside a window is a write of the one map. -/
theorem write_bytes (hLen : 0 < len) (hIn : insideWindow build true addr len = true) (data : Word) :
    (b.write build addr len data).map (·.bytes build) =
      paddrWrite build (b.bytes build) addr len data := by
  obtain ⟨r, hr, hContains, hSelected⟩ := insideWindow_selected hLen hIn
  have hWritable : writable build addr = true := by rw [writable_selected, hSelected]; rfl
  have hRead := mem_branches_read hr
  rw [write_selected, hSelected, paddrWrite, if_pos hWritable, Option.map_some, Option.map_some]
  refine congrArg some (funext fun x => ?_)
  rw [bytes_update hRead, hostWrite, hostWrite, sub_base_sub]
  by_cases hHit : (x - addr).toNat < len ∧ (len = 1 ∨ len = 2 ∨ len = 4)
  · rw [if_pos hHit, if_pos hHit, if_pos (covers_of_access hContains hHit.1)]
  · rw [if_neg hHit, if_neg hHit]
    split
    case isTrue hx => rw [bytes_of_covers hRead hx]
    case isFalse => rfl

end OneMap

end Riscv32.Nemu
