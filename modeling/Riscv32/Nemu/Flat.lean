import Riscv32.Nemu.Regions

/-!
# The regions are one flat memory

Over whole histories of accesses: a read returns the little-endian value of
the bytes written last, whichever route wrote them and however the accesses
overlap.

A history is a list of `Access`es by any of the three routes; `latest` is the byte
written last to an address, computed from the history alone.  `view` makes one
memory of the arrays, and `exec_view` says what one access does to it; the rest
is an induction on the history.

`regions_flat` is the result, for every history whose accesses stay in their
windows.
-/

namespace Riscv32.Nemu

open Riscv32.Rtl

/-! ## Histories -/

/-- An access: `paddr_write`, `difftest_memcpy` or `paddr_read`. -/
inductive Access
  | write (addr : Word) (len : Nat) (data : Word)
  | copy (addr : Word) (buf : List (BitVec 8))
  | read (addr : Word) (len : Nat)

/-- `n` bytes from `addr` on lie in the window `r`. -/
def Region.Spans (r : Region) (addr : Word) (n : Nat) : Prop :=
  r.Holds addr ∧ addr.toNat + n ≤ r.base.toNat + r.size.toNat

/-- The widths of an access. -/
def Width (len : Nat) : Prop := len = 1 ∨ len = 2 ∨ len = 4

/-- The access stays in one window, and does not store to `mrom`. -/
def Access.Ok : Access → Prop
  | .write addr len _ => Width len ∧ ∃ r, r ≠ .mrom ∧ Region.Spans r addr len
  | .copy addr buf => ∃ r, Region.Spans r addr buf.length
  | .read addr len => Width len ∧ ∃ r, Region.Spans r addr len

/-- The arrays after an access. -/
def Backing.exec (b : Backing) : Access → Option Backing
  | .write addr len data => b.paddrWrite addr len data
  | .copy addr buf => b.difftestMemcpy addr buf
  | .read addr len => (b.paddrRead addr len).map fun _ => b

/-- The arrays after a history. -/
def Backing.execAll (b : Backing) (hist : List Access) : Option Backing :=
  hist.foldlM Backing.exec b

/-! ## The flat memory -/

/-- The byte an access writes to `x`. -/
def Access.written (x : Word) : Access → Option (BitVec 8)
  | .write addr len data =>
    if (x - addr).toNat < len then some (data.extractLsb' (8 * (x - addr).toNat) 8) else none
  | .copy addr buf => buf[(x - addr).toNat]?
  | .read _ _ => none

/-- The byte written last to `x`, `mem x` if none was. -/
def latest (mem : Pmem) (hist : List Access) (x : Word) : BitVec 8 :=
  hist.foldl (fun byte a => (a.written x).getD byte) (mem x)

/-- The value of bytes, lowest first. -/
def littleEndian : List (BitVec 8) → Word
  | [] => 0
  | byte :: rest => littleEndian rest <<< 8 ||| byte.setWidth 32

theorem setWidth_append {w : Nat} (hi : BitVec w) (lo : BitVec 8) :
    (hi ++ lo).setWidth 32 = hi.setWidth 32 <<< 8 ||| lo.setWidth 32 := by
  apply BitVec.eq_of_getLsbD_eq
  intro i hi32
  simp only [BitVec.getLsbD_setWidth, BitVec.getLsbD_append, BitVec.getLsbD_or,
    BitVec.getLsbD_shiftLeft, hi32, decide_true, Bool.true_and]
  by_cases h : i < 8
  · simp [h]
  · have hLow : lo.getLsbD i = false := BitVec.getLsbD_of_ge lo i (by omega)
    simp [h, hLow, show i - 8 < 32 by omega]

theorem hostRead_littleEndian (mem : Pmem) (addr : Word) {len : Nat} (h : Width len) :
    hostRead mem addr len =
      littleEndian ((List.range len).map fun i => mem (addr + BitVec.ofNat 32 i)) := by
  rcases h with rfl | rfl | rfl
  · simp [hostRead, littleEndian]
  · simp [hostRead, littleEndian, List.range_succ, setWidth_append]
  · have hWhole : ∀ v : Word, v = v.setWidth 32 := fun v => (BitVec.setWidth_eq v).symm
    rw [hostRead, hWhole (_ ++ _)]
    simp only [setWidth_append]
    simp [littleEndian, List.range_succ]

/-! ## One access -/

section Step

variable {r r' : Region} {addr x : Word} {n : Nat}

/-- The bytes of an access lie in its window. -/
theorem Region.Spans.holds (h : r.Spans addr n) (hx : (x - addr).toNat < n) : r.Holds x := by
  obtain ⟨⟨hr, hLow, hHigh⟩, hEnd⟩ := h
  have hFit : r.base.toNat + r.size.toNat ≤ 4294967296 := by cases r <;> decide
  have ha := addr.isLt
  have hb := x.isLt
  rw [BitVec.toNat_sub] at hx
  refine ⟨hr, ?_, ?_⟩ <;> omega

theorem Region.Spans.byte (h : r.Spans addr n) (hWidth : Width n) {i : Nat} (hi : i < n) :
    r.Holds (addr + BitVec.ofNat 32 i) := by
  refine h.holds ?_
  have hSmall : i < 4294967296 := by
    rcases hWidth with rfl | rfl | rfl <;> omega
  have hSub : addr + BitVec.ofNat 32 i - addr = BitVec.ofNat 32 i := by
    rw [BitVec.add_comm, BitVec.add_sub_cancel]
  rw [hSub, BitVec.toNat_ofNat]
  omega

theorem view_of_holds (b : Backing) (h : r.Holds x) : b.view x = b r (x - r.base) := by
  rw [Backing.view, guestToHost_of_holds h]
  rfl

theorem sub_base (r : Region) : (x - r.base) - (addr - r.base) = x - addr := by
  apply BitVec.eq_of_toNat_eq
  have ha := addr.isLt
  have hb := x.isLt
  have hc := r.base.isLt
  simp only [BitVec.toNat_sub]
  omega

/-- Writing one array: the bytes of the access change, and no others. -/
theorem view_update (b : Backing) {arr : Pmem} (put : Word → Option (BitVec 8))
    (hArr : ∀ x, arr (x - r.base) = (put x).getD (b r (x - r.base)))
    (hIn : ∀ x byte, put x = some byte → r.Holds x) (hx : r'.Holds x) :
    Backing.view (Function.update b r arr) x = (put x).getD (b.view x) := by
  rw [view_of_holds _ hx, view_of_holds b hx]
  by_cases hSame : r' = r
  · subst hSame
    rw [Function.update_self]
    exact hArr x
  · rw [Function.update_of_ne hSame]
    cases hPut : put x with
    | none => rfl
    | some byte => exact absurd (hx.unique (hIn x byte hPut)) hSame

/-- An access in a window returns, and changes the bytes it writes. -/
theorem exec_view (b : Backing) {a : Access} (hOk : a.Ok) :
    ∃ b', b.exec a = some b' ∧
      ∀ r x, Region.Holds r x → b'.view x = (a.written x).getD (b.view x) := by
  cases a with
  | write addr len data =>
      obtain ⟨hWidth, r, hRom, hSpan⟩ := hOk
      refine ⟨Function.update b r (hostWrite (b r) (addr - r.base) len data), ?_, ?_⟩
      · rw [Backing.exec, paddrWrite_eq, guestToHost_of_holds hSpan.1]
        simp [regionToHost, hRom]
      · intro r' x hx
        refine view_update b (fun x => (Access.write addr len data).written x)
          (fun x => ?_) (fun x byte hByte => ?_) hx
        · rw [hostWrite, sub_base r]
          by_cases hIn : (x - addr).toNat < len
          · rw [Access.written, if_pos hIn, if_pos ⟨hIn, hWidth⟩]
            rfl
          · rw [Access.written, if_neg hIn, if_neg fun hBad => hIn hBad.1]
            rfl
        · refine hSpan.holds ?_
          by_contra hOut
          rw [Access.written, if_neg hOut] at hByte
          cases hByte
  | copy addr buf =>
      obtain ⟨r, hSpan⟩ := hOk
      refine ⟨Function.update b r (Backing.memcpy (b r) (addr - r.base) buf), ?_, ?_⟩
      · rw [Backing.exec, Backing.difftestMemcpy, guestToHost_of_holds hSpan.1]
        rfl
      · intro r' x hx
        refine view_update b (fun x => (Access.copy addr buf).written x)
          (fun x => ?_) (fun x byte hByte => ?_) hx
        · rw [Backing.memcpy, sub_base r]
          rfl
        · refine hSpan.holds ?_
          exact (List.getElem?_eq_some_iff.mp hByte).1
  | read addr len =>
      obtain ⟨-, r, hSpan⟩ := hOk
      refine ⟨b, ?_, fun r x _ => rfl⟩
      rw [Backing.exec, paddrRead_eq, guestToHost_of_holds hSpan.1]
      rfl

end Step

/-! ## Whole histories -/

/-- After a history of accesses every byte is the one written last. -/
theorem execAll_view (b : Backing) (hist : List Access) (hOk : ∀ a ∈ hist, a.Ok) :
    ∃ b', b.execAll hist = some b' ∧
      ∀ r x, Region.Holds r x → b'.view x = latest b.view hist x := by
  induction hist generalizing b with
  | nil => exact ⟨b, rfl, fun _ _ _ => rfl⟩
  | cons a hist ih =>
      obtain ⟨b₁, hRun, hView⟩ := exec_view b (hOk a (by simp))
      obtain ⟨b₂, hRest, hEnd⟩ := ih b₁ fun a' ha => hOk a' (by simp [ha])
      refine ⟨b₂, ?_, fun r x hx => ?_⟩
      · simpa [Backing.execAll, hRun] using hRest
      · rw [hEnd r x hx, latest, hView r x hx]
        rfl

/-- A read in a window is a read of the flat memory. -/
theorem paddrRead_view (b : Backing) {r : Region} {addr : Word} {len : Nat} (hWidth : Width len)
    (hSpan : r.Spans addr len) :
    b.paddrRead addr len =
      some (littleEndian ((List.range len).map fun i => b.view (addr + BitVec.ofNat 32 i))) := by
  rw [paddrRead_eq, guestToHost_of_holds hSpan.1, Option.map_some, regionToHost,
    hostRead_littleEndian _ _ hWidth]
  congr 2
  refine List.map_congr_left fun i hi => ?_
  rw [view_of_holds b (hSpan.byte hWidth (List.mem_range.mp hi))]
  congr 1
  apply BitVec.eq_of_toNat_eq
  simp only [BitVec.toNat_add, BitVec.toNat_sub]
  omega

/-- **Flat memory.**  For every history of accesses inside the windows: all of
them return, a read afterwards gives the bytes written last, and the three
dispatch chains pick the same array and offset for every address, `psram`
where the window of `pmem` lies. -/
theorem regions_flat (b : Backing) (hist : List Access) (hOk : ∀ a ∈ hist, a.Ok) :
    (∃ b', b.execAll hist = some b' ∧
      ∀ addr len, Width len → (∃ r, Region.Spans r addr len) →
        b'.paddrRead addr len = some (littleEndian ((List.range len).map fun i =>
          latest b.view hist (addr + BitVec.ofNat 32 i)))) ∧
    (∀ (b : Backing) addr len, b.paddrRead addr len =
      (guestToHost addr).map fun h => hostRead (b h.1) h.2 len) ∧
    (∀ (b : Backing) addr len data, b.paddrWrite addr len data =
      (guestToHost addr).bind fun h => if h.1 = .mrom then none
        else some (Function.update b h.1 (hostWrite (b h.1) h.2 len data))) ∧
    ∀ addr, inPmem addr = true → guestToHost addr = some (.psram, addr - Region.psram.base) := by
  refine ⟨?_, paddrRead_eq, paddrWrite_eq, ?_⟩
  · obtain ⟨b', hRun, hView⟩ := execAll_view b hist hOk
    refine ⟨b', hRun, fun addr len hWidth ⟨r, hSpan⟩ => ?_⟩
    rw [paddrRead_view b' hWidth hSpan]
    congr 2
    exact List.map_congr_left fun i hi =>
      hView r _ (hSpan.byte hWidth (List.mem_range.mp hi))
  · intro addr hIn
    exact guestToHost_of_holds (inPsram_iff.mp (inPsram_of_inPmem hIn))

/-- A store with a copied byte in its middle. -/
def overlapping : List Access := [.write 0x80000001 4 0xdeadbeef, .copy 0x80000003 [0x11]]

theorem overlapping_ok : ∀ a ∈ overlapping, a.Ok := by
  intro a ha
  rcases List.mem_pair.mp ha with rfl | rfl
  · exact ⟨.inr (.inr rfl), .psram, by decide, ⟨by decide, by decide, by decide⟩, by decide⟩
  · exact ⟨.psram, ⟨by decide, by decide, by decide⟩, by decide⟩

theorem regions_flat_overlapping :
    ∃ b', Backing.execAll (fun _ _ => 0) overlapping = some b' ∧
      b'.paddrRead 0x80000002 2 = some 0x11be := by
  obtain ⟨⟨b', hRun, hRead⟩, -⟩ := regions_flat (fun _ _ => 0) overlapping overlapping_ok
  refine ⟨b', hRun, ?_⟩
  rw [hRead _ _ (.inr (.inl rfl)) ⟨.psram, ⟨by decide, by decide, by decide⟩, by decide⟩]
  decide +kernel

end Riscv32.Nemu
