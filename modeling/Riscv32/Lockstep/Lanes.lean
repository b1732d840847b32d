import Riscv32.Lockstep.Fields
import Riscv32.Rtl.Lsu

/-!
# Byte lanes

The load/store unit moves aligned words: a load picks its bytes out of the bus
word, a store places its bytes on lanes and strobes them.  On memory seen as
little-endian bytes both are NEMU's `host_read` and `host_write`, for every
access that stays inside one aligned word.

`laneAddr` numbers the bytes of an aligned word, and `covered_iff` says which
lanes an access covers; an access that leaves the word (`InWord`) is not
comparable, since the hardware makes one transfer of it.

`writeLanes_eq` is the general statement about stores, over any strobe that covers
the access and any lanes that carry its bytes.
-/

namespace Riscv32.Lockstep

open Riscv32.Rtl
open Riscv32.Nemu

/-- The byte lane of an address. -/
def lane (addr : Word) : BitVec 2 := addr.extractLsb' 0 2

/-- The address of lane `k` of the aligned word that holds `addr`. -/
def laneAddr (addr : Word) (k : BitVec 2) : Word := (addr.extractLsb' 2 30 ++ k : BitVec 32)

/-- The aligned word a memory returns for `addr`. -/
def busWord (mem : Pmem) (addr : Word) : Word :=
  (mem (laneAddr addr 3) ++ mem (laneAddr addr 2) ++ mem (laneAddr addr 1) ++
    mem (laneAddr addr 0) : BitVec 32)

/-- Memory after a write of the strobed lanes of `wdata` to the aligned word
that holds `addr`. -/
def writeLanes (mem : Pmem) (addr wdata : Word) (wstrb : BitVec 4) : Pmem := fun x =>
  if x.extractLsb' 2 30 = addr.extractLsb' 2 30 ∧ wstrb.getLsbD (lane x).toNat then
    wdata.extractLsb' (8 * (lane x).toNat) 8
  else mem x

/-- The access `addr, len` stays inside one aligned word. -/
def InWord (addr : Word) (len : Nat) : Prop := (lane addr).toNat + len ≤ 4

/-! ## Addresses -/

section Address

variable (addr : Word)

theorem toNat_lane : (lane addr).toNat = addr.toNat % 4 := by
  simp [lane, BitVec.extractLsb'_toNat]

theorem toNat_page : (addr.extractLsb' 2 30).toNat = addr.toNat / 4 := by
  have h := addr.isLt
  simp only [BitVec.extractLsb'_toNat, Nat.shiftRight_eq_div_pow]
  omega

theorem toNat_laneAddr (k : BitVec 2) :
    (laneAddr addr k).toNat = 4 * (addr.toNat / 4) + k.toNat := by
  rw [laneAddr, BitVec.toNat_append, ← Nat.shiftLeft_add_eq_or_of_lt k.isLt, toNat_page,
    Nat.shiftLeft_eq]
  omega

/-- Consecutive bytes of an access are consecutive lanes. -/
theorem laneAddr_eq_add {j : Nat} (h : (lane addr).toNat + j < 4) :
    laneAddr addr (BitVec.ofNat 2 ((lane addr).toNat + j)) = addr + BitVec.ofNat 32 j := by
  apply BitVec.eq_of_toNat_eq
  have hlt := addr.isLt
  rw [toNat_laneAddr, BitVec.toNat_add, BitVec.toNat_ofNat, BitVec.toNat_ofNat]
  rw [toNat_lane] at h ⊢
  omega

end Address

/-! ## Bits of bytes -/

/-- The little-endian word of four bytes. -/
theorem getLsbD_bytes (b : Nat → BitVec 8) {j : Nat} (h : j < 32) :
    (b 3 ++ b 2 ++ b 1 ++ b 0 : Word).getLsbD j = (b (j / 8)).getLsbD (j % 8) := by
  simp only [BitVec.getLsbD_append]
  rcases (by omega : j / 8 = 0 ∨ j / 8 = 1 ∨ j / 8 = 2 ∨ j / 8 = 3) with hj | hj | hj | hj
  · simp [hj, show j < 8 by omega, show j % 8 = j by omega]
  · simp [hj, show ¬ j < 8 by omega, show j - 8 < 8 by omega, show j % 8 = j - 8 by omega]
  · simp [hj, show ¬ j < 8 by omega, show ¬ j - 8 < 8 by omega, show j - 8 - 8 < 8 by omega,
      show j % 8 = j - 8 - 8 by omega]
  · simp [hj, show ¬ j < 8 by omega, show ¬ j - 8 < 8 by omega, show ¬ j - 8 - 8 < 8 by omega,
      show j % 8 = j - 8 - 8 - 8 by omega]

theorem getLsbD_busWord (mem : Pmem) (addr : Word) {j : Nat} (h : j < 32) :
    (busWord mem addr).getLsbD j =
      (mem (laneAddr addr (BitVec.ofNat 2 (j / 8)))).getLsbD (j % 8) :=
  getLsbD_bytes (fun k => mem (laneAddr addr (BitVec.ofNat 2 k))) h

theorem getLsbD_hostRead (mem : Pmem) (addr : Word) {len j : Nat}
    (hLen : len = 1 ∨ len = 2 ∨ len = 4) (h : j < 32) :
    (hostRead mem addr len).getLsbD j =
      (decide (j < 8 * len) && (mem (addr + BitVec.ofNat 32 (j / 8))).getLsbD (j % 8)) := by
  rcases hLen with rfl | rfl | rfl
  · by_cases hj : j < 8
    · simp [hostRead, hj, h, show j / 8 = 0 by omega, show j % 8 = j by omega]
    · simp [hostRead, hj, show 8 ≤ j by omega]
  · simp only [hostRead, BitVec.getLsbD_setWidth, BitVec.getLsbD_append, h, decide_true,
      Bool.true_and]
    rcases (by omega : j / 8 = 0 ∨ j / 8 = 1 ∨ 16 ≤ j) with hj | hj | hj
    · simp [hj, show j < 8 by omega, show j < 16 by omega, show j % 8 = j by omega]
    · simp [hj, show ¬ j < 8 by omega, show j < 16 by omega, show j % 8 = j - 8 by omega]
    · simp [show ¬ j < 8 by omega, show ¬ j < 16 by omega, show 8 ≤ j - 8 by omega]
  · have hBytes := getLsbD_bytes (fun k => mem (addr + BitVec.ofNat 32 k)) h
    rw [show addr + BitVec.ofNat 32 0 = addr from BitVec.add_zero addr] at hBytes
    have hIn : j < 8 * 4 := h
    rw [decide_eq_true hIn, Bool.true_and]
    exact hBytes

/-! ## Loads -/

/-- Shifted down to its lane, the bus word starts with the bytes of the access. -/
theorem getLsbD_shifted (mem : Pmem) (addr : Word) {len j : Nat}
    (hLen : len = 1 ∨ len = 2 ∨ len = 4) (hIn : InWord addr len) (hj : j < 8 * len) :
    (busWord mem addr >>> ((addr.extractLsb' 0 2).toNat * 8)).getLsbD j =
      (hostRead mem addr len).getLsbD j := by
  have hLane : (addr.extractLsb' 0 2).toNat = (lane addr).toNat := rfl
  unfold InWord at hIn
  rw [BitVec.getLsbD_ushiftRight, hLane, getLsbD_busWord mem addr (by omega),
    getLsbD_hostRead mem addr hLen (by omega)]
  have hDiv : ((lane addr).toNat * 8 + j) / 8 = (lane addr).toNat + j / 8 := by omega
  have hMod : ((lane addr).toNat * 8 + j) % 8 = j % 8 := by omega
  rw [hDiv, hMod, laneAddr_eq_add addr (by omega)]
  simp [hj]

section Load

variable (mem : Pmem) {addr : Word}

theorem loadExtract_lbu (h : InWord addr 1) :
    loadExtract 0b100#3 addr (busWord mem addr) = hostRead mem addr 1 := by
  apply BitVec.eq_of_getLsbD_eq
  intro j hj
  have hMask : (0xff#32).getLsbD j = decide (j < 8) := by interval_cases j <;> rfl
  simp only [loadExtract, BitVec.getLsbD_and, BitVec.ofNat_eq_ofNat, hMask]
  by_cases hLow : j < 8
  · rw [getLsbD_shifted mem addr (.inl rfl) h (show j < 8 * 1 by omega)]
    simp [hLow]
  · simp [getLsbD_hostRead mem addr (.inl rfl) hj, hLow]

theorem loadExtract_lhu (h : InWord addr 2) :
    loadExtract 0b101#3 addr (busWord mem addr) = hostRead mem addr 2 := by
  apply BitVec.eq_of_getLsbD_eq
  intro j hj
  have hMask : (0xffff#32).getLsbD j = decide (j < 16) := by interval_cases j <;> rfl
  simp only [loadExtract, BitVec.getLsbD_and, BitVec.ofNat_eq_ofNat, hMask]
  by_cases hLow : j < 16
  · rw [getLsbD_shifted mem addr (.inr (.inl rfl)) h (show j < 8 * 2 by omega)]
    simp [hLow]
  · simp [getLsbD_hostRead mem addr (.inr (.inl rfl)) hj, hLow]

theorem loadExtract_lw (h : InWord addr 4) :
    loadExtract 0b010#3 addr (busWord mem addr) = hostRead mem addr 4 := by
  apply BitVec.eq_of_getLsbD_eq
  intro j hj
  exact getLsbD_shifted mem addr (.inr (.inr rfl)) h (show j < 8 * 4 from hj)

/-- Sign extension of the low `8 * len` bits, as NEMU writes it. -/
private theorem sext_eq_signExtend {n : Nat} (w v : Word) (hn : 0 < n) (h32 : n ≤ 32)
    (h : ∀ j < n, w.getLsbD j = v.getLsbD j) :
    (w.extractLsb' 0 n).signExtend 32 = (sext (v.setWidth 64) n).setWidth 32 := by
  apply BitVec.eq_of_getLsbD_eq
  intro j hj
  have hLast : n - 1 < n := by omega
  simp only [BitVec.getLsbD_signExtend, BitVec.getLsbD_setWidth, BitVec.getLsbD_extractLsb',
    getLsbD_sext _ _ hn, BitVec.msb_eq_getLsbD_last, hj, hLast, decide_true, Bool.true_and,
    Nat.zero_add]
  by_cases hLow : j < n
  · simp [hLow, h j hLow, show j < 64 by omega]
  · simp [hLow, h (n - 1) hLast, show j < 64 by omega, show n - 1 < 64 by omega]

theorem loadExtract_lb (h : InWord addr 1) :
    loadExtract 0b000#3 addr (busWord mem addr) =
      (sext ((hostRead mem addr 1).setWidth 64) 8).setWidth 32 :=
  sext_eq_signExtend _ _ (by decide) (by decide) fun j hj =>
    getLsbD_shifted mem addr (.inl rfl) h hj

theorem loadExtract_lh (h : InWord addr 2) :
    loadExtract 0b001#3 addr (busWord mem addr) =
      (sext ((hostRead mem addr 2).setWidth 64) 16).setWidth 32 :=
  sext_eq_signExtend _ _ (by decide) (by decide) fun j hj =>
    getLsbD_shifted mem addr (.inr (.inl rfl)) h hj

end Load

/-! ## Stores -/

section Store

variable (mem : Pmem) {addr : Word} (data : Word)

/-- Which lanes an access inside a word covers. -/
theorem covered_iff {len : Nat} (hIn : InWord addr len) (x : Word) :
    (x - addr).toNat < len ↔
      x.extractLsb' 2 30 = addr.extractLsb' 2 30 ∧ (lane addr).toNat ≤ (lane x).toNat ∧
        (lane x).toNat < (lane addr).toNat + len := by
  have hx := x.isLt
  have ha := addr.isLt
  unfold InWord at hIn
  rw [toNat_lane] at *
  rw [toNat_lane, BitVec.toNat_sub]
  have hPage : x.extractLsb' 2 30 = addr.extractLsb' 2 30 ↔ x.toNat / 4 = addr.toNat / 4 := by
    rw [← toNat_page, ← toNat_page]
    exact BitVec.toNat_inj.symm
  rw [hPage]
  omega

/-- Inside the access the distance is that of the lanes. -/
theorem distance_of_covered {x : Word} (hPage : x.extractLsb' 2 30 = addr.extractLsb' 2 30)
    (hLe : (lane addr).toNat ≤ (lane x).toNat) :
    (x - addr).toNat = (lane x).toNat - (lane addr).toNat := by
  have hNat := congrArg BitVec.toNat hPage
  rw [toNat_page, toNat_page] at hNat
  have hx := x.isLt
  have ha := addr.isLt
  rw [toNat_lane, toNat_lane] at *
  rw [BitVec.toNat_sub]
  omega

/-- The lanes written are the bytes of the access when the strobe covers them
and each carries its byte. -/
private theorem writeLanes_eq {len : Nat} {wdata : Word} {wstrb : BitVec 4}
    (hLen : len = 1 ∨ len = 2 ∨ len = 4) (hIn : InWord addr len)
    (hStrb : ∀ k : BitVec 2, wstrb.getLsbD k.toNat =
      decide ((lane addr).toNat ≤ k.toNat ∧ k.toNat < (lane addr).toNat + len))
    (hData : ∀ k : BitVec 2, (lane addr).toNat ≤ k.toNat → k.toNat < (lane addr).toNat + len →
      wdata.extractLsb' (8 * k.toNat) 8 =
        data.extractLsb' (8 * (k.toNat - (lane addr).toNat)) 8) :
    writeLanes mem addr wdata wstrb = hostWrite mem addr len data := by
  funext x
  have hCover := covered_iff hIn x
  simp only [writeLanes, hostWrite, hLen, and_true, hStrb, decide_eq_true_iff]
  by_cases hIf : (x - addr).toNat < len
  · obtain ⟨hPage, hLe, hLt⟩ := hCover.mp hIf
    rw [if_pos ⟨hPage, hLe, hLt⟩, if_pos hIf, hData _ hLe hLt, distance_of_covered hPage hLe]
  · rw [if_neg hIf, if_neg fun h => hIf (hCover.mpr h)]

theorem store_sb : writeLanes mem addr (storeWdata 0b000#3 addr data) (storeWstrb 0b000#3 addr) =
    hostWrite mem addr 1 data := by
  have hLt := (lane addr).isLt
  refine writeLanes_eq mem data (.inl rfl) (by unfold InWord; omega) ?_ ?_
  · have hAll : ∀ a k : BitVec 2, (0b0001#4 <<< a).getLsbD k.toNat =
        decide (a.toNat ≤ k.toNat ∧ k.toNat < a.toNat + 1) := by decide
    exact fun k => hAll (lane addr) k
  · intro k hLe hk
    have hEq : k.toNat - (lane addr).toNat = 0 := by omega
    have hK := k.isLt
    rw [hEq]
    apply BitVec.eq_of_getLsbD_eq
    intro j hj
    simp only [storeWdata, BitVec.getLsbD_extractLsb', BitVec.getLsbD_append]
    rcases (by omega : k.toNat = 0 ∨ k.toNat = 1 ∨ k.toNat = 2 ∨ k.toNat = 3) with h | h | h | h <;>
      rw [h] <;> interval_cases j <;> simp

theorem store_sh (h : InWord addr 2) :
    writeLanes mem addr (storeWdata 0b001#3 addr data) (storeWstrb 0b001#3 addr) =
      hostWrite mem addr 2 data := by
  refine writeLanes_eq mem data (.inr (.inl rfl)) h ?_ ?_
  · have hAll : ∀ a k : BitVec 2, a.toNat + 2 ≤ 4 → (0b0011#4 <<< a).getLsbD k.toNat =
        decide (a.toNat ≤ k.toNat ∧ k.toNat < a.toNat + 2) := by decide
    exact fun k => hAll (lane addr) k h
  · intro k hLe hk
    apply BitVec.eq_of_getLsbD_eq
    intro j hj
    have hLane : (addr.extractLsb' 0 2).toNat = (lane addr).toNat := rfl
    have hK := k.isLt
    have h1 : 8 * k.toNat + j < 32 := by omega
    have h2 : ¬ 8 * k.toNat + j < (lane addr).toNat * 8 := by omega
    have h3 : 8 * k.toNat + j - (lane addr).toNat * 8 = 8 * (k.toNat - (lane addr).toNat) + j := by
      omega
    have h4 : 8 * (k.toNat - (lane addr).toNat) + j < 16 := by omega
    simp only [storeWdata, hLane, BitVec.getLsbD_extractLsb', BitVec.getLsbD_shiftLeft,
      BitVec.getLsbD_setWidth, hj, h1, h2, h3, h4, decide_true, decide_false, Bool.not_false,
      Bool.true_and, Nat.zero_add]
    simp [show 8 * (k.toNat - (lane addr).toNat) + j < 32 by omega]

theorem store_sw (h : InWord addr 4) :
    writeLanes mem addr (storeWdata 0b010#3 addr data) (storeWstrb 0b010#3 addr) =
      hostWrite mem addr 4 data := by
  have hZero : (lane addr).toNat = 0 := by unfold InWord at h; omega
  refine writeLanes_eq mem data (.inr (.inr rfl)) h ?_ ?_
  · have hAll : ∀ k : BitVec 2, (0b1111#4).getLsbD k.toNat =
        decide (0 ≤ k.toNat ∧ k.toNat < 0 + 4) := by decide
    rw [hZero]
    exact hAll
  · intro k _ _
    simp [storeWdata, hZero]

end Store

end Riscv32.Lockstep
