import Mathlib.Data.BitVec
import Riscv32.Data.Moves

/-!
# klib's memory moves

`memmove` of `string.c`, over pointers of any width: 32 bits on the board, 64
on the native target.  `size_t` has the width of a pointer.

Both loops are schedules of the same moves in opposite orders
(`copyDown_eq`), and `Data.Moves` says what a schedule must respect.  `safe_up`
and `safe_down` are the two directions, each for its side of the overlap.

`memmove_spec` is the result, for every memory, length and overlap of blocks that
do not wrap around.
-/

namespace Riscv32.Klib

open Riscv32.Data

variable {w : Nat}

/-- A byte memory. -/
abbrev Ram (w : Nat) := BitVec w → BitVec 8

/-- `p + i`. -/
def byteAt (p : BitVec w) (i : Nat) : BitVec w := p + BitVec.ofNat w i

/-- `d[i] = s[i]`. -/
def copyByte (d s : BitVec w) (mem : Ram w) (i : Nat) : Ram w :=
  Moves.move (byteAt d) (byteAt s) mem i

/-- `for (size_t i = 0; i < n; i++) d[i] = s[i]`. -/
def copyUp (d s : BitVec w) (mem : Ram w) (n : Nat) : Ram w :=
  (List.range n).foldl (copyByte d s) mem

/-- `for (size_t i = n; i != 0; i--) d[i - 1] = s[i - 1]`. -/
def copyDown (d s : BitVec w) (mem : Ram w) : Nat → Ram w
  | 0 => mem
  | i + 1 => copyDown d s (copyByte d s mem i) i

/-- `memmove`: the result, and the memory after the call. -/
def memmove (mem : Ram w) (dst src n : BitVec w) : BitVec w × Ram w :=
  if dst = src ∨ n = 0 then (dst, mem)
  else if dst < src then (dst, copyUp dst src mem n.toNat)
  else (dst, copyDown dst src mem n.toNat)

/-- The address lies in the `n` bytes from `p` on. -/
def InBlock (p : BitVec w) (n : Nat) (x : BitVec w) : Prop :=
  p.toNat ≤ x.toNat ∧ x.toNat < p.toNat + n

theorem byteAt_toNat {p : BitVec w} {i : Nat} (h : p.toNat + i < 2 ^ w) :
    (byteAt p i).toNat = p.toNat + i := by
  rw [byteAt, BitVec.toNat_add, BitVec.toNat_ofNat, Nat.mod_eq_of_lt (a := i) (by omega),
    Nat.mod_eq_of_lt h]

theorem byteAt_ne {p q : BitVec w} {i j : Nat} (hp : p.toNat + i < 2 ^ w)
    (hq : q.toNat + j < 2 ^ w) (h : p.toNat + i ≠ q.toNat + j) : byteAt p i ≠ byteAt q j := by
  rw [← BitVec.toNat_ne_iff_ne, byteAt_toNat hp, byteAt_toNat hq]
  exact h

theorem byteAt_inBlock {p : BitVec w} {n i : Nat} (h : p.toNat + n ≤ 2 ^ w) (hi : i < n) :
    InBlock p n (byteAt p i) := by
  unfold InBlock
  rw [byteAt_toNat (by omega)]
  omega

/-- The downward loop moves the bytes in the opposite order. -/
theorem copyDown_eq (d s : BitVec w) (mem : Ram w) (n : Nat) :
    copyDown d s mem n = Moves.run (byteAt d) (byteAt s) mem (List.range n).reverse := by
  induction n generalizing mem with
  | zero => rfl
  | succ n ih =>
      rw [copyDown, ih, List.range_succ, List.reverse_concat]
      rfl

section Order

variable {d s : BitVec w} {n : Nat}

/-- Upwards no byte is overwritten before it is read, if `d` is not above `s`. -/
theorem safe_up (hD : d.toNat + n ≤ 2 ^ w) (hS : s.toNat + n ≤ 2 ^ w)
    (hLe : d.toNat ≤ s.toNat) : Moves.Safe (byteAt d) (byteAt s) (List.range n) := by
  refine List.pairwise_lt_range.imp_of_mem fun {i j} hi hj hLt => ?_
  rw [List.mem_range] at hi hj
  exact ⟨byteAt_ne (by omega) (by omega) (by omega), byteAt_ne (by omega) (by omega) (by omega)⟩

/-- Downwards, if `d` is not below `s`. -/
theorem safe_down (hD : d.toNat + n ≤ 2 ^ w) (hS : s.toNat + n ≤ 2 ^ w)
    (hLe : s.toNat ≤ d.toNat) : Moves.Safe (byteAt d) (byteAt s) (List.range n).reverse := by
  refine List.pairwise_reverse.2 (List.pairwise_lt_range.imp_of_mem fun {i j} hi hj hLt => ?_)
  rw [List.mem_range] at hi hj
  exact ⟨byteAt_ne (by omega) (by omega) (by omega), byteAt_ne (by omega) (by omega) (by omega)⟩

/-- What a safe order of the moves leaves in memory. -/
theorem run_block (mem : Ram w) {is : List Nat} (hSafe : Moves.Safe (byteAt d) (byteAt s) is)
    (hAll : ∀ i, i ∈ is ↔ i < n) (hD : d.toNat + n ≤ 2 ^ w) :
    (∀ i < n, Moves.run (byteAt d) (byteAt s) mem is (byteAt d i) = mem (byteAt s i)) ∧
      ∀ x, ¬ InBlock d n x → Moves.run (byteAt d) (byteAt s) mem is x = mem x := by
  constructor
  · intro i hi
    exact Moves.run_dst mem hSafe ((hAll i).2 hi)
  · intro x hx
    refine Moves.run_of_ne mem fun i hi hEq => hx ?_
    rw [← hEq]
    exact byteAt_inBlock hD ((hAll i).1 hi)

end Order

/--
**`memmove` is right under every overlap**: the destination holds what the
source held before the call, and no byte outside it changes.
-/
theorem memmove_spec (mem : Ram w) (dst src n : BitVec w)
    (hDst : dst.toNat + n.toNat ≤ 2 ^ w) (hSrc : src.toNat + n.toNat ≤ 2 ^ w) :
    (memmove mem dst src n).1 = dst ∧
      (∀ i < n.toNat, (memmove mem dst src n).2 (byteAt dst i) = mem (byteAt src i)) ∧
      ∀ x, ¬ InBlock dst n.toNat x → (memmove mem dst src n).2 x = mem x := by
  unfold memmove
  by_cases hSkip : dst = src ∨ n = 0
  · rw [if_pos hSkip]
    refine ⟨rfl, fun i hi => ?_, fun x _ => rfl⟩
    cases hSkip with
    | inl hSame => rw [hSame]
    | inr hNone =>
        rw [hNone] at hi
        simp at hi
  · rw [if_neg hSkip]
    by_cases hBelow : dst < src
    · rw [if_pos hBelow]
      exact ⟨rfl, run_block mem (safe_up hDst hSrc (Nat.le_of_lt hBelow))
        (fun _ => List.mem_range) hDst⟩
    · rw [if_neg hBelow, copyDown_eq]
      exact ⟨rfl, run_block mem (safe_down hDst hSrc (Nat.le_of_not_lt hBelow))
        (fun _ => List.mem_reverse.trans List.mem_range) hDst⟩

/-- A memory that holds its own addresses. -/
def addressRam : Ram 32 := fun x => x.setWidth 8

/-- Four bytes moved up by two, onto half of their source. -/
theorem memmove_spec_overlap :
    (memmove addressRam 4098#32 4096#32 4#32).1 = 4098#32 ∧
      (∀ i < (4#32).toNat, (memmove addressRam 4098#32 4096#32 4#32).2 (byteAt 4098#32 i) =
        addressRam (byteAt 4096#32 i)) ∧
      ∀ x, ¬ InBlock 4098#32 (4#32).toNat x →
        (memmove addressRam 4098#32 4096#32 4#32).2 x = addressRam x :=
  memmove_spec addressRam 4098#32 4096#32 4#32 (by decide) (by decide)

end Riscv32.Klib
