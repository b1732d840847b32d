import Mathlib.Data.List.Basic

/-!
# Word transfers in a byte memory

A memory of bytes that is written a word at a time.  A transfer fills a range
of words from another range or with zeros; a list of transfers with disjoint
destinations, none of which is another's source, does all of them at once.

Nothing here knows what the ranges hold.  A transfer is run word by word, as
the loops of a boot loader do it, and `Fits` keeps every range from wrapping
around, so that `InRange` and `Apart` are statements about numbers.

## Main results

* `copyWords_apply`, `zeroWords_apply` — what one loop leaves at an address:
  the source's byte, or zero, inside the destination, and the old byte outside.
* `runAll_apply` — with destinations apart from each other and from every
  source, each transfer of a list does what it would do alone.
-/

namespace Riscv32.Data

/-- A memory of bytes. -/
abbrev Bytes := BitVec 32 → BitVec 8

namespace Bytes

/-- The little-endian word at `addr`. -/
def loadWord (mem : Bytes) (addr : BitVec 32) : BitVec 32 :=
  (mem (addr + 3) ++ mem (addr + 2) ++ mem (addr + 1) ++ mem addr : BitVec 32)

/-- Writes a little-endian word. -/
def storeWord (mem : Bytes) (addr v : BitVec 32) : Bytes := fun x =>
  if (x - addr).toNat < 4 then v.extractLsb' (8 * (x - addr).toNat) 8 else mem x

/-- `n` words from `src` to `dst`, lowest first. -/
def copyWords (mem : Bytes) (dst src : BitVec 32) : Nat → Bytes
  | 0 => mem
  | n + 1 => copyWords (mem.storeWord dst (mem.loadWord src)) (dst + 4) (src + 4) n

/-- `n` words of zeros from `dst` on. -/
def zeroWords (mem : Bytes) (dst : BitVec 32) : Nat → Bytes
  | 0 => mem
  | n + 1 => zeroWords (mem.storeWord dst 0) (dst + 4) n

end Bytes

section Words

variable (mem : Bytes)

private theorem byte_of_append (a b c d : BitVec 8) :
    (d ++ c ++ b ++ a : BitVec 32).extractLsb' 0 8 = a ∧
      (d ++ c ++ b ++ a : BitVec 32).extractLsb' 8 8 = b ∧
      (d ++ c ++ b ++ a : BitVec 32).extractLsb' 16 8 = c ∧
      (d ++ c ++ b ++ a : BitVec 32).extractLsb' 24 8 = d := by
  refine ⟨?_, ?_, ?_, ?_⟩ <;>
  · apply BitVec.eq_of_getLsbD_eq
    intro i hi
    simp only [BitVec.getLsbD_extractLsb', hi, decide_true, Bool.true_and, BitVec.getLsbD_append]
    simp [show ¬ 8 + i < 8 by omega, show ¬ 16 + i < 8 by omega, show ¬ 24 + i < 8 by omega,
      show 8 + i - 8 = i by omega, show 16 + i - 8 = 8 + i by omega,
      show 24 + i - 8 = 16 + i by omega, hi]

/-- Byte `k` of a loaded word. -/
theorem loadWord_byte (addr : BitVec 32) {k : Nat} (hk : k < 4) :
    (mem.loadWord addr).extractLsb' (8 * k) 8 = mem (addr + BitVec.ofNat 32 k) := by
  obtain ⟨h0, h1, h2, h3⟩ := byte_of_append (mem addr) (mem (addr + 1)) (mem (addr + 2))
    (mem (addr + 3))
  match k, hk with
  | 0, _ => simpa [Bytes.loadWord] using h0
  | 1, _ => simpa [Bytes.loadWord] using h1
  | 2, _ => simpa [Bytes.loadWord] using h2
  | 3, _ => simpa [Bytes.loadWord] using h3

/-- The address lies in the `len` bytes from `a` on. -/
def InRange (a : BitVec 32) (len : Nat) (x : BitVec 32) : Prop :=
  a.toNat ≤ x.toNat ∧ x.toNat < a.toNat + len

instance (a : BitVec 32) (len : Nat) (x : BitVec 32) : Decidable (InRange a len x) :=
  inferInstanceAs (Decidable (_ ∧ _))

/-- Neither range reaches into the other. -/
def Apart (a : BitVec 32) (m : Nat) (b : BitVec 32) (n : Nat) : Prop :=
  a.toNat + m ≤ b.toNat ∨ b.toNat + n ≤ a.toNat

theorem Apart.not_inRange {a b x : BitVec 32} {m n : Nat} (h : Apart a m b n)
    (hx : InRange a m x) : ¬ InRange b n x := by
  unfold Apart at h
  unfold InRange at hx ⊢
  omega

theorem Apart.symm {a b : BitVec 32} {m n : Nat} (h : Apart a m b n) : Apart b n a m := Or.symm h

section Loops

variable {dst : BitVec 32} {n : Nat}

theorem storeWord_apply {addr v : BitVec 32} (hFit : addr.toNat + 4 ≤ 4294967296)
    (x : BitVec 32) : mem.storeWord addr v x =
      if InRange addr 4 x then v.extractLsb' (8 * (x.toNat - addr.toNat)) 8 else mem x := by
  have hx := x.isLt
  have hSub : InRange addr 4 x ↔ (x - addr).toNat < 4 := by
    simp only [InRange, BitVec.toNat_sub]
    omega
  by_cases hIn : InRange addr 4 x
  · have hOff : (x - addr).toNat = x.toNat - addr.toNat := by
      unfold InRange at hIn
      rw [BitVec.toNat_sub]
      omega
    rw [if_pos hIn, Bytes.storeWord, if_pos (hSub.mp hIn), hOff]
  · rw [if_neg hIn, Bytes.storeWord, if_neg (hSub.not.mp hIn)]

/-- The first word of a range, and the rest of it. -/
theorem inRange_succ (hFit : dst.toNat + 4 * (n + 1) ≤ 4294967296) (x : BitVec 32) :
    (InRange dst (4 * (n + 1)) x ↔ InRange dst 4 x ∨ InRange (dst + 4) (4 * n) x) ∧
      (InRange dst 4 x → ¬ InRange (dst + 4) (4 * n) x) := by
  unfold InRange
  rw [BitVec.toNat_add, show (4 : BitVec 32).toNat = 4 from rfl]
  by_cases hLast : n = 0
  · subst hLast
    omega
  · rw [Nat.mod_eq_of_lt (by omega)]
    omega

/-- What is stored first of a copied word. -/
theorem copy_first (dst src : BitVec 32) (hDst : dst.toNat + 4 ≤ 4294967296) (x : BitVec 32) :
    mem.storeWord dst (mem.loadWord src) x =
      if InRange dst 4 x then mem (src + (x - dst)) else mem x := by
  rw [storeWord_apply mem hDst]
  by_cases hIn : InRange dst 4 x
  · have hOff : x - dst = BitVec.ofNat 32 (x.toNat - dst.toNat) := by
      apply BitVec.eq_of_toNat_eq
      have hx := x.isLt
      unfold InRange at hIn
      rw [BitVec.toNat_sub, BitVec.toNat_ofNat]
      omega
    have hLane : x.toNat - dst.toNat < 4 := by
      unfold InRange at hIn
      omega
    rw [if_pos hIn, if_pos hIn, loadWord_byte mem src hLane, hOff]
  · rw [if_neg hIn, if_neg hIn]

/-- The loop of a copy whose ranges are apart. -/
theorem copyWords_apply (dst src : BitVec 32) (hDst : dst.toNat + 4 * n ≤ 4294967296)
    (hSrc : src.toNat + 4 * n ≤ 4294967296) (hApart : Apart dst (4 * n) src (4 * n))
    (x : BitVec 32) : mem.copyWords dst src n x =
      if InRange dst (4 * n) x then mem (src + (x - dst)) else mem x := by
  induction n generalizing mem dst src with
  | zero => rw [if_neg (by unfold InRange; omega), Bytes.copyWords]
  | succ n ih =>
      obtain ⟨hSplit, hOnce⟩ := inRange_succ hDst x
      have hFirst := copy_first mem dst src (by omega)
      have hFour : ∀ a : BitVec 32, (a + 4).toNat = (a.toNat + 4) % 4294967296 := fun a => by
        rw [BitVec.toNat_add]
        rfl
      have hRest := ih (mem.storeWord dst (mem.loadWord src)) (dst + 4) (src + 4)
        (by rw [hFour]; omega) (by rw [hFour]; omega)
        (by unfold Apart at hApart ⊢; rw [hFour, hFour]; omega)
      rw [Bytes.copyWords, hRest]
      by_cases hIn : InRange (dst + 4) (4 * n) x
      · -- a later word: its source was not touched by the first
        have hSame : src + 4 + (x - (dst + 4)) = src + (x - dst) := by
          apply BitVec.eq_of_toNat_eq
          simp only [BitVec.toNat_add, BitVec.toNat_sub]
          omega
        have hAway : ¬ InRange dst 4 (src + (x - dst)) := by
          have hx := x.isLt
          have hs := src.isLt
          have hd := dst.isLt
          have hWhole := hSplit.mpr (.inr hIn)
          unfold InRange at hWhole ⊢
          unfold Apart at hApart
          rw [BitVec.toNat_add, BitVec.toNat_sub]
          omega
        rw [if_pos hIn, if_pos (hSplit.mpr (.inr hIn)), hFirst, hSame, if_neg hAway]
      · rw [if_neg hIn, hFirst]
        by_cases hNow : InRange dst 4 x
        · rw [if_pos hNow, if_pos (hSplit.mpr (.inl hNow))]
        · rw [if_neg hNow, if_neg fun hBad => (hSplit.mp hBad).elim hNow hIn]

/-- The loop that clears. -/
theorem zeroWords_apply (dst : BitVec 32) (hDst : dst.toNat + 4 * n ≤ 4294967296) (x : BitVec 32) :
    mem.zeroWords dst n x = if InRange dst (4 * n) x then 0 else mem x := by
  induction n generalizing mem dst with
  | zero => rw [if_neg (by unfold InRange; omega), Bytes.zeroWords]
  | succ n ih =>
      obtain ⟨hSplit, -⟩ := inRange_succ hDst x
      have hFirst : mem.storeWord dst 0 x = if InRange dst 4 x then 0 else mem x := by
        rw [storeWord_apply mem (by omega)]
        simp
      have hFour : (dst + 4).toNat = (dst.toNat + 4) % 4294967296 := by
        rw [BitVec.toNat_add]
        rfl
      have hRest := ih (mem.storeWord dst 0) (dst + 4) (by rw [hFour]; omega)
      rw [Bytes.zeroWords, hRest, hFirst]
      by_cases hIn : InRange (dst + 4) (4 * n) x
      · rw [if_pos hIn, if_pos (hSplit.mpr (.inr hIn))]
      · rw [if_neg hIn]
        by_cases hNow : InRange dst 4 x
        · rw [if_pos hNow, if_pos (hSplit.mpr (.inl hNow))]
        · rw [if_neg hNow, if_neg fun hBad => (hSplit.mp hBad).elim hNow hIn]

end Loops

end Words

/-! ## Several transfers -/

/-- A copy of `n` words or a clearing of `n` words. -/
inductive Transfer
  | copy (dst src : BitVec 32) (n : Nat)
  | zero (dst : BitVec 32) (n : Nat)

namespace Transfer

def run (mem : Bytes) : Transfer → Bytes
  | copy dst src n => mem.copyWords dst src n
  | zero dst n => mem.zeroWords dst n

/-- The destination, and its length in bytes. -/
def dst : Transfer → BitVec 32
  | copy dst _ _ => dst
  | zero dst _ => dst

def bytes : Transfer → Nat
  | copy _ _ n => 4 * n
  | zero _ n => 4 * n

def Writes (t : Transfer) (x : BitVec 32) : Prop := InRange t.dst t.bytes x

/-- What the transfer puts at `x`. -/
def value (mem : Bytes) (x : BitVec 32) : Transfer → BitVec 8
  | copy dst src _ => mem (src + (x - dst))
  | zero _ _ => 0

/-- The source of the transfer is apart from a range. -/
def SourceApart (a : BitVec 32) (len : Nat) : Transfer → Prop
  | copy _ src n => Apart src (4 * n) a len
  | zero _ _ => True

/-- No range wraps around. -/
def Fits : Transfer → Prop
  | copy dst src n => dst.toNat + 4 * n ≤ 4294967296 ∧ src.toNat + 4 * n ≤ 4294967296
  | zero dst n => dst.toNat + 4 * n ≤ 4294967296

def runAll (mem : Bytes) (ts : List Transfer) : Bytes := ts.foldl run mem

end Transfer

section Transfers

variable (mem : Bytes)

theorem run_apply {t : Transfer} (hFit : t.Fits) (hOwn : t.SourceApart t.dst t.bytes) :
    (∀ x, t.Writes x → t.run mem x = t.value mem x) ∧
      ∀ x, ¬ t.Writes x → t.run mem x = mem x := by
  cases t with
  | copy dst src n =>
      have hRun := copyWords_apply mem dst src hFit.1 hFit.2 (Apart.symm hOwn)
      exact ⟨fun x hx => (hRun x).trans (if_pos hx), fun x hx => (hRun x).trans (if_neg hx)⟩
  | zero dst n =>
      have hRun := zeroWords_apply mem dst hFit
      exact ⟨fun x hx => (hRun x).trans (if_pos hx), fun x hx => (hRun x).trans (if_neg hx)⟩

/-- A transfer reads what another left alone. -/
theorem value_run {t u : Transfer} (hFit : t.Fits) (hOwn : t.SourceApart t.dst t.bytes)
    (hu : u.Fits) (hApart : u.SourceApart t.dst t.bytes) {x : BitVec 32} (hx : u.Writes x) :
    u.value (t.run mem) x = u.value mem x := by
  cases u with
  | zero => rfl
  | copy dst src n =>
      refine (run_apply mem hFit hOwn).2 _ (Apart.not_inRange hApart ?_)
      obtain ⟨hDst, hSrc⟩ := hu
      have hLt := x.isLt
      unfold Transfer.Writes InRange at hx
      simp only [Transfer.dst, Transfer.bytes] at hx
      unfold InRange
      rw [BitVec.toNat_add, BitVec.toNat_sub]
      omega

/-- **Transfers in sequence**: with destinations apart from each other and
from every source, each does what it would do alone, and nothing else
changes. -/
theorem runAll_apply {ts : List Transfer} (hFit : ∀ t ∈ ts, t.Fits)
    (hDst : ts.Pairwise fun t u => Apart t.dst t.bytes u.dst u.bytes)
    (hSrc : ∀ t ∈ ts, ∀ u ∈ ts, t.SourceApart u.dst u.bytes) :
    (∀ t ∈ ts, ∀ x, t.Writes x → Transfer.runAll mem ts x = t.value mem x) ∧
      ∀ x, (∀ t ∈ ts, ¬ t.Writes x) → Transfer.runAll mem ts x = mem x := by
  induction ts generalizing mem with
  | nil => simp [Transfer.runAll]
  | cons t ts ih =>
      obtain ⟨hHead, hTail⟩ := List.pairwise_cons.mp hDst
      have hOwn := hSrc t (by simp) t (by simp)
      obtain ⟨hIn, hOut⟩ := run_apply mem (hFit t (by simp)) hOwn
      obtain ⟨hRest, hElse⟩ := ih (t.run mem) (fun u hu => hFit u (by simp [hu])) hTail
        fun u hu v hv => hSrc u (by simp [hu]) v (by simp [hv])
      constructor
      · intro u hu x hx
        change Transfer.runAll (t.run mem) ts x = _
        rcases List.mem_cons.mp hu with rfl | hLater
        · rw [hElse x fun v hv => (hHead v hv).not_inRange hx, hIn x hx]
        · rw [hRest u hLater x hx]
          exact value_run mem (hFit t (by simp)) hOwn (hFit u (by simp [hLater]))
            (hSrc u (by simp [hLater]) t (by simp)) hx
      · intro x hx
        change Transfer.runAll (t.run mem) ts x = _
        rw [hElse x fun v hv => hx v (by simp [hv]), hOut x (hx t (by simp))]

end Transfers

end Riscv32.Data
