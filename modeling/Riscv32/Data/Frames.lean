import Riscv32.Data.Bytes

/-!
# Frames of words

Slot `i` of a frame is the word `4 * i` bytes above its base.  Words stored to
different slots do not meet, and nothing outside the frame changes.

A frame is written as a list of slots with their words (`storeFrame`), in the
order of the stores.  The lemmas read it back for any list whose slots are
pairwise different, so a save area can be described by what it holds and not by
the instructions that fill it.

## Main results

* `loadWord_storeFrame_of_mem` — every slot holds the word stored there.
* `loadWord_storeFrame_of_notMem` — a slot that is not stored to keeps its word.
* `storeFrame_outside` — the bytes outside the frame are the old ones.
-/

namespace Riscv32.Data

/-- The address of a slot. -/
def slot (f : BitVec 32) (i : Nat) : BitVec 32 := f + BitVec.ofNat 32 (4 * i)

/-- Stores words to slots, in order. -/
def storeFrame (mem : Bytes) (f : BitVec 32) (ws : List (Nat × BitVec 32)) : Bytes :=
  ws.foldl (fun m w => m.storeWord (slot f w.1) w.2) mem

section Word

variable {mem mem' : Bytes} {a v : BitVec 32}

/-- A word is its four bytes. -/
theorem loadWord_of_agree (hFit : a.toNat + 4 ≤ 4294967296)
    (h : ∀ x, InRange a 4 x → mem' x = mem x) : mem'.loadWord a = mem.loadWord a := by
  have hByte : ∀ k : BitVec 32, k.toNat < 4 → mem' (a + k) = mem (a + k) := by
    intro k hk
    refine h _ ?_
    unfold InRange
    rw [BitVec.toNat_add]
    omega
  have hZero : mem' a = mem a := by simpa using hByte 0 (by decide)
  rw [Bytes.loadWord, Bytes.loadWord, hByte 1 (by decide), hByte 2 (by decide),
    hByte 3 (by decide), hZero]

/-- A store leaves every byte outside its word. -/
theorem storeWord_outside (hFit : a.toNat + 4 ≤ 4294967296) {x : BitVec 32}
    (hx : ¬ InRange a 4 x) : mem.storeWord a v x = mem x := by
  rw [storeWord_apply mem hFit, if_neg hx]

/-- What was stored is loaded. -/
theorem loadWord_storeWord : (mem.storeWord a v).loadWord a = v := by
  have hByte : ∀ k : BitVec 32, k.toNat < 4 →
      mem.storeWord a v (a + k) = v.extractLsb' (8 * k.toNat) 8 := by
    intro k hk
    have hOff : a + k - a = k := by rw [BitVec.add_comm, BitVec.add_sub_cancel]
    rw [Bytes.storeWord, hOff, if_pos hk]
  have h0 : mem.storeWord a v a = v.extractLsb' 0 8 := by simpa using hByte 0 (by decide)
  have h1 : mem.storeWord a v (a + 1) = v.extractLsb' 8 8 := hByte 1 (by decide)
  have h2 : mem.storeWord a v (a + 2) = v.extractLsb' 16 8 := hByte 2 (by decide)
  have h3 : mem.storeWord a v (a + 3) = v.extractLsb' 24 8 := hByte 3 (by decide)
  rw [Bytes.loadWord, h0, h1, h2, h3]
  apply BitVec.eq_of_getLsbD_eq
  intro i hi
  simp only [BitVec.getLsbD_append, BitVec.getLsbD_extractLsb']
  grind

end Word

section Slots

variable {mem : Bytes} {f v : BitVec 32} {n i j : Nat} {ws : List (Nat × BitVec 32)}

/-- The address of a slot, where the frame does not wrap around. -/
theorem toNat_slot (hFit : f.toNat + 4 * n ≤ 4294967296) (hi : i < n) :
    (slot f i).toNat = f.toNat + 4 * i := by
  rw [slot, BitVec.toNat_add, BitVec.toNat_ofNat]
  omega

/-- A slot lies in its frame. -/
theorem inRange_of_slot (hFit : f.toNat + 4 * n ≤ 4294967296) (hi : i < n) {x : BitVec 32}
    (hx : InRange (slot f i) 4 x) : InRange f (4 * n) x := by
  have hSlot := toNat_slot hFit hi
  unfold InRange at hx ⊢
  omega

/-- A store to one slot leaves the others. -/
theorem loadWord_storeWord_slot (hFit : f.toNat + 4 * n ≤ 4294967296) (hi : i < n) (hj : j < n)
    (hNe : j ≠ i) : (mem.storeWord (slot f i) v).loadWord (slot f j) = mem.loadWord (slot f j) := by
  have hSlotI := toNat_slot hFit hi
  have hSlotJ := toNat_slot hFit hj
  refine loadWord_of_agree (by omega) fun x hx => storeWord_outside (by omega) ?_
  unfold InRange at hx ⊢
  omega

theorem storeFrame_cons (w : Nat × BitVec 32) :
    storeFrame mem f (w :: ws) = storeFrame (mem.storeWord (slot f w.1) w.2) f ws := rfl

theorem storeFrame_append (us : List (Nat × BitVec 32)) :
    storeFrame mem f (ws ++ us) = storeFrame (storeFrame mem f ws) f us := List.foldl_append

/-- Nothing outside the frame changes. -/
theorem storeFrame_outside (hFit : f.toNat + 4 * n ≤ 4294967296) (hLt : ∀ w ∈ ws, w.1 < n)
    {x : BitVec 32} (hx : ¬ InRange f (4 * n) x) : storeFrame mem f ws x = mem x := by
  induction ws generalizing mem with
  | nil => rfl
  | cons w ws ih =>
      have hw := hLt w (by simp)
      have hSlot := toNat_slot hFit hw
      rw [storeFrame_cons, ih fun u hu => hLt u (by simp [hu]),
        storeWord_outside (by omega) fun hIn => hx (inRange_of_slot hFit hw hIn)]

/-- A slot that is not among the stored ones keeps its word. -/
theorem loadWord_storeFrame_of_notMem (hFit : f.toNat + 4 * n ≤ 4294967296)
    (hLt : ∀ w ∈ ws, w.1 < n) (hj : j < n) (hMem : j ∉ ws.map Prod.fst) :
    (storeFrame mem f ws).loadWord (slot f j) = mem.loadWord (slot f j) := by
  induction ws generalizing mem with
  | nil => rfl
  | cons w ws ih =>
      rw [List.map_cons, List.mem_cons, not_or] at hMem
      rw [storeFrame_cons, ih (fun u hu => hLt u (by simp [hu])) hMem.2,
        loadWord_storeWord_slot hFit (hLt w (by simp)) hj hMem.1]

/-- Every slot holds the word stored there. -/
theorem loadWord_storeFrame_of_mem (hFit : f.toNat + 4 * n ≤ 4294967296)
    (hLt : ∀ w ∈ ws, w.1 < n) (hNodup : (ws.map Prod.fst).Nodup) (hMem : (i, v) ∈ ws) :
    (storeFrame mem f ws).loadWord (slot f i) = v := by
  induction ws generalizing mem with
  | nil => cases hMem
  | cons w ws ih =>
      rw [List.map_cons, List.nodup_cons] at hNodup
      have hRest : ∀ u ∈ ws, u.1 < n := fun u hu => hLt u (by simp [hu])
      rcases List.mem_cons.1 hMem with rfl | hTail
      · rw [storeFrame_cons,
          loadWord_storeFrame_of_notMem hFit hRest (hLt (i, v) (by simp)) hNodup.1,
          loadWord_storeWord]
      · rw [storeFrame_cons, ih hRest hNodup.2 hTail]

end Slots

end Riscv32.Data
