import Riscv32.Clocked.Run
import Riscv32.Lockstep.Lanes
import Riscv32.Rtl.Xbar

/-!
# The simulated memory under the byte lanes

`memory.cpp` keeps guest memory as an array of words.  Loads reach it at the
offset into the window; `MEM.sv` adds the window base to the address of a store
again.  Seen as little-endian bytes the array is NEMU's memory.

`guestBytes` is that view.  A load finds the aligned word of it (`pmemRead_eq`),
and a write merges the strobed lanes into it (`pmemWrite_eq`); with the lanes of
the load/store unit in front, and the crossbar's address arithmetic in between,
these are the reads and writes of `paddr.c`.

`lanes_words_are_bytes` puts the four together, for every memory, address, size
and datum, and every order in which a store's address and data arrive.
-/

namespace Riscv32.Lockstep

open Riscv32.Rtl
open Riscv32.Nemu
open Riscv32.Clocked

/-! ## `memory.cpp` -/

/-- `memory`. -/
abbrev Memory := Nat → Word

/-- `N`, the length of `memory`. -/
def memoryWords : Nat := 16777216

def psramAddr : Word := 0x80000000#32
def psramSize : Word := 0x20000000#32

/-- `raddr >= PSRAM_ADDR && raddr < PSRAM_ADDR + PSRAM_SIZE`. -/
def psramWindow (addr : Word) : Bool := psramAddr ≤ addr && addr < psramAddr + psramSize

/-- `pmem_read`.  An index behind `memory` has no value: outside the window it
ends the simulation. -/
def pmemRead (memory : Memory) (raddr : Word) : Option Word :=
  let idx :=
    if psramWindow raddr then ((raddr - psramAddr) >>> 2).toNat
    else ((raddr &&& ~~~0x3#32) >>> 2).toNat
  if idx < memoryWords then some (memory idx) else none

/-- `word &= ~mask; word |= wdata & mask`, when the lane is strobed. -/
def mergeLane (mask : Word) (on : Bool) (wdata word : Word) : Word :=
  if on then (word &&& ~~~mask) ||| (wdata &&& mask) else word

/-- The four strobes of `pmem_write` in turn. -/
def mergeLanes (wdata : Word) (wmask : BitVec 8) (word : Word) : Word :=
  let word := mergeLane 0x000000ff#32 (wmask &&& 0x01#8 != 0) wdata word
  let word := mergeLane 0x0000ff00#32 (wmask &&& 0x02#8 != 0) wdata word
  let word := mergeLane 0x00ff0000#32 (wmask &&& 0x04#8 != 0) wdata word
  mergeLane 0xff000000#32 (wmask &&& 0x08#8 != 0) wdata word

/-- `pmem_write`; a write behind `memory` is undefined, one outside the window
is dropped. -/
def pmemWrite (memory : Memory) (waddr wdata : Word) (wmask : BitVec 8) : Option Memory :=
  if psramWindow waddr then
    let idx := ((waddr - psramAddr) >>> 2).toNat
    if idx < memoryWords then
      some (Function.update memory idx (mergeLanes wdata wmask (memory idx)))
    else none
  else some memory

/-! ## Merging -/

theorem getLsbD_mergeLane {mask : Word} {m i : Nat} (on : Bool) (wdata word : Word)
    (hMask : mask.getLsbD i = decide (i / 8 = m)) (hi : i < 32) :
    (mergeLane mask on wdata word).getLsbD i =
      if on = true ∧ i / 8 = m then wdata.getLsbD i else word.getLsbD i := by
  cases on with
  | false => simp [mergeLane]
  | true =>
      simp only [mergeLane, if_true, BitVec.getLsbD_or, BitVec.getLsbD_and, BitVec.getLsbD_not,
        hMask, hi, decide_true, Bool.true_and, true_and]
      by_cases hm : i / 8 = m
      · simp [hm]
      · simp [hm]

/-- Lane by lane the word is the new or the old one. -/
theorem getLsbD_mergeLanes (wdata word : Word) (wstrb : BitVec 4) {i : Nat} (hi : i < 32) :
    (mergeLanes wdata (wstrb.setWidth 8) word).getLsbD i =
      if wstrb.getLsbD (i / 8) = true then wdata.getLsbD i else word.getLsbD i := by
  have hStrb : ∀ s : BitVec 4, (s.setWidth 8 &&& 0x01#8 != 0) = s.getLsbD 0 ∧
      (s.setWidth 8 &&& 0x02#8 != 0) = s.getLsbD 1 ∧
      (s.setWidth 8 &&& 0x04#8 != 0) = s.getLsbD 2 ∧
      (s.setWidth 8 &&& 0x08#8 != 0) = s.getLsbD 3 := by decide
  have hMask : ∀ i < 32, (0x000000ff#32).getLsbD i = decide (i / 8 = 0) ∧
      (0x0000ff00#32).getLsbD i = decide (i / 8 = 1) ∧
      (0x00ff0000#32).getLsbD i = decide (i / 8 = 2) ∧
      (0xff000000#32).getLsbD i = decide (i / 8 = 3) := by decide
  obtain ⟨h0, h1, h2, h3⟩ := hStrb wstrb
  obtain ⟨m0, m1, m2, m3⟩ := hMask i hi
  unfold mergeLanes
  simp only [h0, h1, h2, h3]
  rw [getLsbD_mergeLane _ _ _ m3 hi, getLsbD_mergeLane _ _ _ m2 hi, getLsbD_mergeLane _ _ _ m1 hi,
    getLsbD_mergeLane _ _ _ m0 hi]
  rcases (by omega : i / 8 = 0 ∨ i / 8 = 1 ∨ i / 8 = 2 ∨ i / 8 = 3) with h | h | h | h <;> simp [h]

/-! ## Memory as bytes -/

/-- The guest bytes that `memory` holds, little-endian. -/
def guestBytes (memory : Memory) : Pmem := fun x =>
  (memory ((x - psramAddr) >>> 2).toNat).extractLsb' (8 * (lane x).toNat) 8

theorem index_eq (x : Word) : ((x - psramAddr) >>> 2).toNat = (x - psramAddr).toNat / 4 := by
  rw [BitVec.toNat_ushiftRight, Nat.shiftRight_eq_div_pow]

/-- Two addresses have the same index when they are in the same aligned word. -/
theorem index_eq_iff (x a : Word) :
    ((x - psramAddr) >>> 2).toNat = ((a - psramAddr) >>> 2).toNat ↔
      x.extractLsb' 2 30 = a.extractLsb' 2 30 := by
  have hx := x.isLt
  have ha := a.isLt
  have hBase : psramAddr.toNat = 2147483648 := rfl
  rw [← BitVec.toNat_inj, toNat_page, toNat_page, index_eq, index_eq, BitVec.toNat_sub,
    BitVec.toNat_sub, hBase]
  omega

theorem aligned_shift (x : Word) : (x &&& ~~~0x3#32) >>> 2 = x >>> 2 := by
  apply BitVec.eq_of_getLsbD_eq
  intro i hi
  have hMask : ∀ k < 32, 2 ≤ k → (~~~0x3#32).getLsbD k = true := by decide
  rw [BitVec.getLsbD_ushiftRight, BitVec.getLsbD_ushiftRight, BitVec.getLsbD_and]
  by_cases hHigh : 2 + i < 32
  · rw [hMask (2 + i) hHigh (by omega), Bool.and_true]
  · rw [BitVec.getLsbD_of_ge x (2 + i) (by omega), Bool.false_and]

theorem getLsbD_guestBytes (memory : Memory) (x : Word) {j : Nat} (hj : j < 8) :
    (guestBytes memory x).getLsbD j =
      (memory ((x - psramAddr) >>> 2).toNat).getLsbD (8 * (lane x).toNat + j) := by
  simp [guestBytes, hj]

/-- The aligned word of the bytes is the word of the array. -/
theorem busWord_guestBytes (memory : Memory) (a : Word) :
    busWord (guestBytes memory) a = memory ((a - psramAddr) >>> 2).toNat := by
  apply BitVec.eq_of_getLsbD_eq
  intro j hj
  have hPage : (laneAddr a (BitVec.ofNat 2 (j / 8))).extractLsb' 2 30 = a.extractLsb' 2 30 := by
    rw [← BitVec.toNat_inj, toNat_page, toNat_page, toNat_laneAddr, BitVec.toNat_ofNat]
    omega
  have hLane : (lane (laneAddr a (BitVec.ofNat 2 (j / 8)))).toNat = j / 8 := by
    rw [toNat_lane, toNat_laneAddr, BitVec.toNat_ofNat]
    omega
  rw [getLsbD_busWord _ _ hj, getLsbD_guestBytes _ _ (Nat.mod_lt j (by decide)),
    (index_eq_iff _ a).2 hPage, hLane, Nat.div_add_mod]

section Window

variable {a : Word}

theorem toNat_window (h : inWindow sramBase sramEnd a = true) :
    2147483648 ≤ a.toNat ∧ a.toNat ≤ 2164260863 := by
  simp only [inWindow, sramBase, sramEnd, BitVec.le_def, Bool.and_eq_true, decide_eq_true_eq] at h
  simpa using h

theorem index_lt (h : inWindow sramBase sramEnd a = true) :
    ((a - psramAddr) >>> 2).toNat < memoryWords := by
  have hRange := toNat_window h
  have hBase : psramAddr.toNat = 2147483648 := rfl
  rw [index_eq, BitVec.toNat_sub, hBase, memoryWords]
  omega

theorem psramWindow_of_inWindow (h : inWindow sramBase sramEnd a = true) :
    psramWindow a = true := by
  have hRange := toNat_window h
  have hBase : psramAddr.toNat = 2147483648 := rfl
  have hTop : (psramAddr + psramSize).toNat = 2684354560 := rfl
  simp only [psramWindow, BitVec.le_def, BitVec.lt_def, hBase, hTop, Bool.and_eq_true,
    decide_eq_true_eq]
  omega

/-- A load at the offset finds the aligned word. -/
theorem pmemRead_eq (memory : Memory) (h : inWindow sramBase sramEnd a = true) :
    pmemRead memory (a - sramBase) = some (busWord (guestBytes memory) a) := by
  have hRange := toNat_window h
  have hBelow : psramWindow (a - sramBase) = false := by
    have hBase : psramAddr.toNat = 2147483648 := rfl
    have hBase' : sramBase.toNat = 2147483648 := rfl
    have hLow : ¬ psramAddr ≤ a - sramBase := by
      rw [BitVec.le_def, BitVec.toNat_sub, hBase, hBase']
      omega
    simp [psramWindow, hLow]
  have hIdx : ((a - sramBase) &&& ~~~0x3#32) >>> 2 = (a - psramAddr) >>> 2 := aligned_shift _
  simp only [pmemRead, hBelow, Bool.false_eq_true, if_false, hIdx, index_lt h, if_true]
  rw [busWord_guestBytes]

/-- A write at the address itself merges the strobed lanes. -/
theorem pmemWrite_eq (memory : Memory) (h : inWindow sramBase sramEnd a = true) (wdata : Word)
    (wstrb : BitVec 4) :
    ∃ memory', pmemWrite memory a wdata (wstrb.setWidth 8) = some memory' ∧
      guestBytes memory' = writeLanes (guestBytes memory) a wdata wstrb := by
  refine ⟨Function.update memory ((a - psramAddr) >>> 2).toNat
    (mergeLanes wdata (wstrb.setWidth 8) (memory ((a - psramAddr) >>> 2).toNat)), ?_, ?_⟩
  · rw [pmemWrite, if_pos (psramWindow_of_inWindow h)]
    exact if_pos (index_lt h)
  · funext x
    apply BitVec.eq_of_getLsbD_eq
    intro j hj
    have hLane := (lane x).isLt
    rw [getLsbD_guestBytes _ _ hj, writeLanes]
    by_cases hPage : x.extractLsb' 2 30 = a.extractLsb' 2 30
    · have hDiv : (8 * (lane x).toNat + j) / 8 = (lane x).toNat := by omega
      rw [(index_eq_iff x a).2 hPage, Function.update_self,
        getLsbD_mergeLanes wdata _ wstrb (by omega), hDiv]
      by_cases hOn : wstrb.getLsbD (lane x).toNat = true
      · rw [if_pos hOn, if_pos ⟨hPage, hOn⟩]
        simp [hj]
      · rw [if_neg hOn, if_neg fun hBoth => hOn hBoth.2, getLsbD_guestBytes _ _ hj,
          (index_eq_iff x a).2 hPage]
    · rw [Function.update_of_ne (mt (index_eq_iff x a).1 hPage), if_neg fun hBoth => hPage hBoth.1,
        getLsbD_guestBytes _ _ hj]

end Window

/-! ## MEM -/

/-- `MEM.sv` at the start of cycle `t`; an input is the request and what
`pmem_read` would return in the cycle. -/
def memAt (m : Mem) (inp : Nat → AxiReq × (Word → Word)) (t : Nat) : Mem :=
  run (fun m i => m.step i.1 i.2) m inp t

/-- The store of `data` with this size to `a` is the last one the memory has
taken before cycle `t`, address and data in any order, and the write is made in
cycle `t`. -/
structure Driven (m : Mem) (inp : Nat → AxiReq × (Word → Word)) (size : BitVec 3) (a data : Word)
    (t : Nat) : Prop where
  aw : ∃ k < t, awFire (inp k).1 (memAt m inp k).axi = true ∧ (inp k).1.awaddr = a - sramBase ∧
    ∀ j, k < j → j < t → awFire (inp j).1 (memAt m inp j).axi = false
  w : ∃ k < t, wFire (inp k).1 (memAt m inp k).axi = true ∧
    (inp k).1.wdata = storeWdata size a data ∧ (inp k).1.wstrb = storeWstrb size a ∧
    ∀ j, k < j → j < t → wFire (inp j).1 (memAt m inp j).axi = false
  called : (memAt m inp t).awGot = true ∧ (memAt m inp t).wGot = true

section Driving

variable {m : Mem} {inp : Nat → AxiReq × (Word → Word)} {size : BitVec 3} {a data : Word} {t : Nat}

theorem waddr_held {k : Nat} (hk : k ≤ t)
    (hQuiet : ∀ j, k ≤ j → j < t → awFire (inp j).1 (memAt m inp j).axi = false) :
    (memAt m inp t).memWaddr = (memAt m inp k).memWaddr := by
  refine run_held (fun m : Mem => m.memWaddr) (fun m i => awFire i.1 m.axi) ?_ hk hQuiet
  intro m i hNone
  exact if_neg (Bool.eq_false_iff.1 hNone)

theorem wdata_held {k : Nat} (hk : k ≤ t)
    (hQuiet : ∀ j, k ≤ j → j < t → wFire (inp j).1 (memAt m inp j).axi = false) :
    ((memAt m inp t).memWdata, (memAt m inp t).memWmask) =
      ((memAt m inp k).memWdata, (memAt m inp k).memWmask) := by
  refine run_held (fun m : Mem => (m.memWdata, m.memWmask)) (fun m i => wFire i.1 m.axi) ?_ hk
    hQuiet
  intro m i hNone
  have hNot := Bool.eq_false_iff.1 hNone
  exact Prod.ext (if_neg hNot) (if_neg hNot)

/-- The address arrives as it left the core: the memory adds the base that the
crossbar took off. -/
theorem Driven.call (h : Driven m inp size a data t) :
    (memAt m inp t).pmemWrite =
      some (a, storeWdata size a data, (storeWstrb size a).setWidth 8) := by
  obtain ⟨k, hk, hFire, hAddr, hQuiet⟩ := h.aw
  obtain ⟨k', hk', hFire', hData, hStrb, hQuiet'⟩ := h.w
  have hWaddr : (memAt m inp t).memWaddr = a := by
    have hHeld := waddr_held (Nat.succ_le_of_lt hk) fun j h1 => hQuiet j h1
    have hTaken : (memAt m inp (k + 1)).memWaddr = (inp k).1.awaddr + 0x80000000#32 := if_pos hFire
    have hBack : a - sramBase + 0x80000000#32 = a := by
      unfold sramBase
      bv_omega
    rw [hHeld, hTaken, hAddr, hBack]
  obtain ⟨hHeldData, hHeldMask⟩ := Prod.mk.inj <|
    wdata_held (Nat.succ_le_of_lt hk') fun j h1 => hQuiet' j h1
  have hWdata : (memAt m inp t).memWdata = storeWdata size a data := by
    have hTaken : (memAt m inp (k' + 1)).memWdata = (inp k').1.wdata := if_pos hFire'
    rw [hHeldData, hTaken, hData]
  have hWmask : (memAt m inp t).memWmask = (storeWstrb size a).setWidth 8 := by
    have hTaken : (memAt m inp (k' + 1)).memWmask = (inp k').1.wstrb.setWidth 8 := if_pos hFire'
    rw [hHeldMask, hTaken, hStrb]
  simp [Mem.pmemWrite, h.called, hWaddr, hWdata, hWmask]

end Driving

/-! ## Bytes -/

/-- Sizes of the stores with their widths. -/
def storeSizes : List (BitVec 3 × Nat) := [(0b000#3, 1), (0b001#3, 2), (0b010#3, 4)]

/-- The loads of NEMU: width, and what is done to the value of `paddr_read`. -/
def loadSizes : List (BitVec 3 × Nat × (Word → Word)) :=
  [(0b000#3, 1, fun v => (sext (v.setWidth 64) 8).setWidth 32),
    (0b001#3, 2, fun v => (sext (v.setWidth 64) 16).setWidth 32), (0b010#3, 4, id),
    (0b100#3, 1, id), (0b101#3, 2, id)]

theorem store_lanes (mem : Pmem) {a : Word} (data : Word) {size : BitVec 3} {len : Nat}
    (hSize : (size, len) ∈ storeSizes) (hIn : InWord a len) :
    writeLanes mem a (storeWdata size a data) (storeWstrb size a) = hostWrite mem a len data := by
  simp only [storeSizes, List.mem_cons, List.not_mem_nil, or_false, Prod.mk.injEq] at hSize
  rcases hSize with ⟨rfl, rfl⟩ | ⟨rfl, rfl⟩ | ⟨rfl, rfl⟩
  · exact store_sb mem data
  · exact store_sh mem data hIn
  · exact store_sw mem data hIn

theorem load_lanes (mem : Pmem) {a : Word} {size : BitVec 3} {len : Nat} {ext : Word → Word}
    (hSize : (size, len, ext) ∈ loadSizes) (hIn : InWord a len) :
    loadExtract size a (busWord mem a) = ext (hostRead mem a len) := by
  simp only [loadSizes, List.mem_cons, List.not_mem_nil, or_false, Prod.mk.injEq] at hSize
  rcases hSize with ⟨rfl, rfl, rfl⟩ | ⟨rfl, rfl, rfl⟩ | ⟨rfl, rfl, rfl⟩ | ⟨rfl, rfl, rfl⟩ |
    ⟨rfl, rfl, rfl⟩
  · exact loadExtract_lb mem hIn
  · exact loadExtract_lh mem hIn
  · exact loadExtract_lw mem hIn
  · exact loadExtract_lbu mem hIn
  · exact loadExtract_lhu mem hIn

theorem mapped_of_inWindow {a : Word} (h : inWindow sramBase sramEnd a = true) (b : Build) :
    readable b a = true ∧ writable b a = true := by
  have hRange := toNat_window h
  have hPmem : inPmem a = true := by
    simp only [inPmem, within, BitVec.ult, BitVec.toNat_sub, BitVec.toNat_ofNat, decide_eq_true_eq]
    omega
  have hRom : inMrom a = false := by
    simp only [inMrom, within, BitVec.ult, BitVec.toNat_sub, BitVec.toNat_ofNat,
      decide_eq_false_iff_not]
    omega
  cases b <;> simp [readable, writable, hPmem, hRom]

/-- **Lanes and words are NEMU's bytes.** -/
theorem lanes_words_are_bytes (memory : Memory) {a : Word} (h : inWindow sramBase sramEnd a = true)
    (b : Build) :
    (∀ size len, (size, len) ∈ storeSizes → InWord a len → ∀ data m inp t,
      Driven m inp size a data t → ∃ waddr wdata wmask memory',
        (memAt m inp t).pmemWrite = some (waddr, wdata, wmask) ∧
        pmemWrite memory waddr wdata wmask = some memory' ∧
        paddrWrite b (guestBytes memory) a len data = some (guestBytes memory')) ∧
      ∀ size len ext, (size, len, ext) ∈ loadSizes → InWord a len →
        (pmemRead memory (a - sramBase)).map (loadExtract size a) =
          (paddrRead b (guestBytes memory) a len).map ext := by
  obtain ⟨hRead, hWrite⟩ := mapped_of_inWindow h b
  constructor
  · intro size len hSize hIn data m inp t hDriven
    obtain ⟨memory', hMem, hBytes⟩ := pmemWrite_eq memory h (storeWdata size a data)
      (storeWstrb size a)
    refine ⟨_, _, _, memory', hDriven.call, hMem, ?_⟩
    rw [hBytes, store_lanes _ data hSize hIn, paddrWrite, if_pos hWrite]
  · intro size len ext hSize hIn
    rw [pmemRead_eq memory h, paddrRead, if_pos hRead]
    exact congrArg some (load_lanes _ hSize hIn)

/-- A store of two bytes to the upper half of a word, taken in cycle 0. -/
def storeHalf (t : Nat) : AxiReq × (Word → Word) :=
  (if t = 0 then
    { awaddr := 0x2#32, awvalid := true, wdata := 0xbeef0000#32, wstrb := 0b1100#4, wvalid := true }
    else {}, fun _ => 0)

theorem lanes_words_are_bytes_half :
    (∃ waddr wdata wmask memory',
      (memAt default storeHalf 1).pmemWrite = some (waddr, wdata, wmask) ∧
      pmemWrite (fun _ => 0x11223344#32) waddr wdata wmask = some memory' ∧
      paddrWrite .share (guestBytes fun _ => 0x11223344#32) 0x80000002#32 2 0xdeadbeef#32 =
        some (guestBytes memory')) ∧
      (pmemRead (fun _ => 0x11223344#32) (0x80000002#32 - sramBase)).map
          (loadExtract 0b101#3 0x80000002#32) = some 0x1122#32 := by
  have hWindow : inWindow sramBase sramEnd 0x80000002#32 = true := by decide
  have hMain := lanes_words_are_bytes (fun _ => 0x11223344#32) hWindow .share
  refine ⟨hMain.1 0b001#3 2 (by decide) (by unfold InWord; decide) 0xdeadbeef#32 default storeHalf 1
    ?_, ?_⟩
  · have hNone : ∀ j, 0 < j → ¬ j < 1 := fun j h1 h2 => by omega
    exact ⟨⟨0, by decide, by decide, by decide, fun j h1 h2 => absurd h2 (hNone j h1)⟩,
      ⟨0, by decide, by decide, by decide, by decide, fun j h1 h2 => absurd h2 (hNone j h1)⟩,
      by decide, by decide⟩
  · rw [hMain.2 0b101#3 2 id (by simp [loadSizes]) (by unfold InWord; decide)]
    decide

end Riscv32.Lockstep
