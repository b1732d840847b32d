import Riscv32.Rtl.Params
import Mathlib.Data.List.Basic

/-!
# The klib heap

`malloc` of `stdlib.c`, which moves a static pointer through `heap` and frees
nothing.  Rounding and the advance of the pointer are 32-bit; the assertion
looks at the advanced pointer.

A program is the list of the sizes it asks for, and `Blocks` is what its calls
promise: aligned blocks inside the heap, no two of which overlap.  Blocks go
upwards from where a run starts, so disjointness needs no comparison of pairs
(`mallocs_blocks`).

`malloc_blocks_disjoint` is the result: every run none of whose calls wraps keeps
the promise, and what the first call that wraps does instead.
-/

namespace Riscv32.Klib

open Riscv32.Rtl

/-- `Area`. -/
structure Area where
  start : Word
  «end» : Word
deriving DecidableEq, Repr

/-- `ROUNDUP`. -/
def roundup (a sz : Word) : Word := (a + sz - 1) &&& ~~~(sz - 1)

/-- Where a call starts: the static pointer, or `heap.start` while it is `NULL`. -/
def current (heap : Area) (addr : Word) : Word := if addr = 0#32 then heap.start else addr

/-- `malloc`: the result and the static pointer after the call; `none` where the
assertion fails. -/
def malloc (heap : Area) (addr size : Word) : Option (Word × Word) :=
  if size = 0#32 then some (0#32, addr)
  else
    let p := current heap addr
    let addr := p + roundup size 8#32
    if addr.toNat ≤ heap.end.toNat then some (p, addr) else none

/-- A call of `malloc`: the static pointer before it and after it. -/
structure Call where
  addr : Word
  size : Word
  p : Word
  next : Word
deriving DecidableEq, Repr

/-- The calls of a program, each with its size; `none` where one fails. -/
def mallocs (heap : Area) (addr : Word) : List Word → Option (List Call)
  | [] => some []
  | size :: sizes => do
      let (p, next) ← malloc heap addr size
      let calls ← mallocs heap next sizes
      pure (⟨addr, size, p, next⟩ :: calls)

/-! ## Blocks -/

/-- `[p, p + size)` lies in the heap, as numbers. -/
def Inside (heap : Area) (c : Call) : Prop :=
  heap.start.toNat ≤ c.p.toNat ∧ c.p.toNat + c.size.toNat ≤ heap.end.toNat

/-- Two blocks share no byte. -/
def Disjoint (c d : Call) : Prop :=
  c.p.toNat + c.size.toNat ≤ d.p.toNat ∨ d.p.toNat + d.size.toNat ≤ c.p.toNat

/-- What the calls of a program promise: aligned blocks inside the heap, no two
of which overlap. -/
structure Blocks (heap : Area) (calls : List Call) : Prop where
  aligned : ∀ c ∈ calls, c.p ≠ 0#32 → c.p.toNat % 8 = 0
  inside : ∀ c ∈ calls, c.p ≠ 0#32 → Inside heap c
  disjoint : calls.Pairwise fun c d => c.p ≠ 0#32 → d.p ≠ 0#32 → Disjoint c d

/-- The size of a block as a number, rounded up. -/
def rounded (size : Word) : Nat := (size.toNat + 7) / 8 * 8

/-- Neither the rounding nor the advance of the pointer leaves 32 bits. -/
def NoWrap (heap : Area) (c : Call) : Prop :=
  (current heap c.addr).toNat + rounded c.size < 2 ^ 32

instance (heap : Area) (c : Call) : Decidable (Inside heap c) :=
  inferInstanceAs (Decidable (_ ∧ _))

instance (c d : Call) : Decidable (Disjoint c d) := inferInstanceAs (Decidable (_ ∨ _))

instance (heap : Area) (c : Call) : Decidable (NoWrap heap c) := Nat.decLt _ _

/-! ## Rounding -/

theorem and_not_seven (x : Word) : (x &&& ~~~7#32).toNat = x.toNat / 8 * 8 := by
  rw [BitVec.toNat_and, show (~~~7#32 : Word).toNat = (2 ^ 29 - 1) * 2 ^ 3 by decide,
    show x.toNat / 8 * 8 = x.toNat / 2 ^ 3 * 2 ^ 3 by rfl]
  apply Nat.eq_of_testBit_eq
  intro i
  rw [Nat.testBit_and, Nat.testBit_mul_two_pow, Nat.testBit_mul_two_pow,
    Nat.testBit_two_pow_sub_one, Nat.testBit_div_two_pow]
  by_cases hLow : i < 3
  · simp [show ¬ 3 ≤ i by omega]
  · have hBack : i - 3 + 3 = i := by omega
    by_cases hHigh : i < 32
    · simp [hBack, show i - 3 < 29 by omega, show 3 ≤ i by omega]
    · have hSmall : x.toNat < 2 ^ i :=
        Nat.lt_of_lt_of_le x.isLt (Nat.pow_le_pow_right (by decide) (by omega))
      simp [hBack, Nat.testBit_lt_two_pow hSmall]

theorem roundup_toNat (size : Word) : (roundup size 8#32).toNat = rounded size % 2 ^ 32 := by
  have hSize := size.isLt
  have hSum : size + 8#32 - 1#32 = size + 7#32 := by
    apply BitVec.eq_of_toNat_eq
    rw [BitVec.toNat_sub, BitVec.toNat_add, BitVec.toNat_add]
    simp only [BitVec.toNat_ofNat]
    omega
  have hRound : roundup size 8#32 = (size + 7#32) &&& ~~~7#32 := by rw [← hSum]; rfl
  rw [hRound, and_not_seven, rounded, BitVec.toNat_add, BitVec.toNat_ofNat]
  omega

theorem size_le_rounded (size : Word) : size.toNat ≤ rounded size := by
  unfold rounded
  omega

theorem rounded_mod (size : Word) : rounded size % 8 = 0 := by
  unfold rounded
  omega

/-! ## One call -/

section Step

variable {heap : Area} {addr size p next : Word}

/-- What a call with a size does. -/
theorem malloc_cases (h : malloc heap addr size = some (p, next)) :
    (size = 0#32 ∧ p = 0#32 ∧ next = addr) ∨
      (size ≠ 0#32 ∧ p = current heap addr ∧
        next.toNat = (p.toNat + rounded size) % 2 ^ 32 ∧ next.toNat ≤ heap.end.toNat) := by
  unfold malloc at h
  split_ifs at h with hSize
  · obtain ⟨rfl, rfl⟩ := Prod.mk.inj (Option.some.inj h)
    exact Or.inl ⟨hSize, rfl, rfl⟩
  · dsimp only at h
    split_ifs at h with hEnd
    obtain ⟨rfl, rfl⟩ := Prod.mk.inj (Option.some.inj h)
    refine Or.inr ⟨hSize, rfl, ?_, hEnd⟩
    rw [BitVec.toNat_add, roundup_toNat]
    omega

/-- The pointer is `NULL`, or an aligned address of the heap. -/
def Ready (heap : Area) (addr : Word) : Prop :=
  addr ≠ 0#32 →
    addr.toNat % 8 = 0 ∧ heap.start.toNat ≤ addr.toNat ∧ addr.toNat ≤ heap.end.toNat

/-- A call starts at an aligned address of the heap. -/
theorem Ready.current (h : Ready heap addr) (hAligned : heap.start.toNat % 8 = 0)
    (hHeap : heap.start.toNat ≤ heap.end.toNat) :
    (current heap addr).toNat % 8 = 0 ∧ heap.start.toNat ≤ (current heap addr).toNat ∧
      (current heap addr).toNat ≤ heap.end.toNat := by
  unfold Klib.current
  split_ifs with hNull
  · exact ⟨hAligned, Nat.le_refl _, hHeap⟩
  · exact h hNull

/-- A call that does not wrap returns a block of the heap and moves the pointer
past it. -/
theorem malloc_step (hAligned : heap.start.toNat % 8 = 0)
    (hHeap : heap.start.toNat ≤ heap.end.toNat) (hReady : Ready heap addr)
    (h : malloc heap addr size = some (p, next)) (hWrap : NoWrap heap ⟨addr, size, p, next⟩) :
    Ready heap next ∧ (p ≠ 0#32 → p = current heap addr ∧ p.toNat % 8 = 0 ∧
      Inside heap ⟨addr, size, p, next⟩) ∧
      (current heap addr).toNat ≤ (current heap next).toNat ∧
      (p ≠ 0#32 → p.toNat + size.toNat ≤ (current heap next).toNat) := by
  obtain ⟨rfl, rfl, rfl⟩ | ⟨hSize, rfl, hNext, hEnd⟩ := malloc_cases h
  · exact ⟨hReady, fun hNull => absurd rfl hNull, Nat.le_refl _, fun hNull => absurd rfl hNull⟩
  · obtain ⟨hAl, hLow, -⟩ := hReady.current hAligned hHeap
    have hSum : next.toNat = (current heap addr).toNat + rounded size := by
      rw [hNext, Nat.mod_eq_of_lt hWrap]
    have hLe := size_le_rounded size
    have hMod := rounded_mod size
    have hPos := BitVec.toNat_pos_of_ne_zero hSize
    have hNull : next ≠ 0#32 := by
      rintro rfl
      simp only [BitVec.toNat_ofNat] at hSum
      omega
    have hCurrent : current heap next = next := if_neg hNull
    rw [hCurrent]
    refine ⟨fun _ => ⟨by omega, by omega, hEnd⟩, fun _ => ⟨rfl, hAl, hLow, ?_⟩, by omega,
      fun _ => ?_⟩
    · show (current heap addr).toNat + size.toNat ≤ heap.end.toNat
      omega
    · omega

/-- A call that wraps returns a block that leaves the heap, or drops the pointer
back to `NULL`. -/
theorem malloc_wraps (hAligned : heap.start.toNat % 8 = 0)
    (hHeap : heap.start.toNat ≤ heap.end.toNat) (hReady : Ready heap addr)
    (h : malloc heap addr size = some (p, next)) (hWrap : ¬ NoWrap heap ⟨addr, size, p, next⟩) :
    ¬ Inside heap ⟨addr, size, p, next⟩ ∨ next = 0#32 := by
  by_cases hInside : Inside heap ⟨addr, size, p, next⟩
  · refine Or.inr (BitVec.eq_of_toNat_eq ?_)
    obtain ⟨hAl, -, -⟩ := hReady.current hAligned hHeap
    have hOut : 2 ^ 32 ≤ (current heap addr).toNat + rounded size := Nat.le_of_not_lt hWrap
    obtain ⟨rfl, rfl, rfl⟩ | ⟨hSize, rfl, hNext, -⟩ := malloc_cases h
    · have hCur := (current heap next).isLt
      simp [rounded] at hOut
      omega
    · have hFits : (current heap addr).toNat + size.toNat ≤ heap.end.toNat := hInside.2
      have hEnd := heap.end.isLt
      have hExact : (current heap addr).toNat + rounded size = 2 ^ 32 := by
        unfold rounded at hOut ⊢
        omega
      rw [hNext, hExact]
      rfl
  · exact Or.inl hInside

end Step

/-! ## Runs -/

section Runs

variable {heap : Area}

theorem mallocs_cons {addr size : Word} {sizes : List Word} {calls : List Call}
    (h : mallocs heap addr (size :: sizes) = some calls) :
    ∃ p next rest, malloc heap addr size = some (p, next) ∧
      mallocs heap next sizes = some rest ∧ calls = ⟨addr, size, p, next⟩ :: rest := by
  simp only [mallocs, Option.bind_eq_bind, Option.bind_eq_some_iff] at h
  obtain ⟨⟨p, next⟩, hCall, rest, hRest, hCalls⟩ := h
  exact ⟨p, next, rest, hCall, hRest, (Option.some.inj hCalls).symm⟩

/-- The calls of a run that does not wrap go upwards from where it starts. -/
theorem mallocs_blocks (hAligned : heap.start.toNat % 8 = 0)
    (hHeap : heap.start.toNat ≤ heap.end.toNat) {sizes : List Word} {addr : Word}
    {calls : List Call} (hReady : Ready heap addr) (h : mallocs heap addr sizes = some calls)
    (hWrap : ∀ c ∈ calls, NoWrap heap c) :
    Blocks heap calls ∧ ∀ c ∈ calls, c.p ≠ 0#32 → (current heap addr).toNat ≤ c.p.toNat := by
  induction sizes generalizing addr calls with
  | nil =>
      obtain rfl : [] = calls := Option.some.inj h
      exact ⟨⟨by simp, by simp, List.Pairwise.nil⟩, by simp⟩
  | cons size sizes ih =>
      obtain ⟨p, next, rest, hCall, hRest, rfl⟩ := mallocs_cons h
      obtain ⟨hFirst, hLater⟩ := List.forall_mem_cons.1 hWrap
      obtain ⟨hNext, hBlock, hUp, hPast⟩ := malloc_step hAligned hHeap hReady hCall hFirst
      obtain ⟨hBlocks, hAbove⟩ := ih hNext hRest hLater
      refine ⟨⟨?_, ?_, ?_⟩, ?_⟩
      · exact List.forall_mem_cons.2 ⟨fun hp => (hBlock hp).2.1, hBlocks.aligned⟩
      · exact List.forall_mem_cons.2 ⟨fun hp => (hBlock hp).2.2, hBlocks.inside⟩
      · refine List.pairwise_cons.2 ⟨fun d hd hp hq => Or.inl ?_, hBlocks.disjoint⟩
        exact Nat.le_trans (hPast hp) (hAbove d hd hq)
      · refine List.forall_mem_cons.2 ⟨fun hp => ?_, fun c hc hp => ?_⟩
        · exact Nat.le_of_eq (congrArg BitVec.toNat (hBlock hp).1.symm)
        · exact Nat.le_trans hUp (hAbove c hc hp)

/-- A run that has not wrapped leaves the pointer ready for the next call. -/
theorem mallocs_ready (hAligned : heap.start.toNat % 8 = 0)
    (hHeap : heap.start.toNat ≤ heap.end.toNat) {sizes : List Word} {addr : Word}
    {calls before after : List Call} {c : Call} (hReady : Ready heap addr)
    (h : mallocs heap addr sizes = some calls) (hCalls : calls = before ++ c :: after)
    (hWrap : ∀ d ∈ before, NoWrap heap d) :
    Ready heap c.addr ∧ malloc heap c.addr c.size = some (c.p, c.next) := by
  induction sizes generalizing addr calls before with
  | nil =>
      obtain rfl : [] = calls := Option.some.inj h
      simp at hCalls
  | cons size sizes ih =>
      obtain ⟨p, next, rest, hCall, hRest, rfl⟩ := mallocs_cons h
      cases before with
      | nil =>
          obtain ⟨rfl, -⟩ := List.cons.inj hCalls
          exact ⟨hReady, hCall⟩
      | cons b before =>
          obtain ⟨rfl, hTail⟩ := List.cons.inj hCalls
          obtain ⟨hFirst, hLater⟩ := List.forall_mem_cons.1 hWrap
          exact ih (malloc_step hAligned hHeap hReady hCall hFirst).1 hRest hTail hLater

/-- **Blocks of the heap are aligned, inside it and apart.**  This holds of
every run none of whose calls wraps; the first call that does either returns a
block that leaves the heap or makes the next call start at `heap.start` again. -/
theorem malloc_blocks_disjoint (hAligned : heap.start.toNat % 8 = 0)
    (hHeap : heap.start.toNat ≤ heap.end.toNat) (sizes : List Word) (calls : List Call)
    (h : mallocs heap 0#32 sizes = some calls) :
    ((∀ c ∈ calls, NoWrap heap c) → Blocks heap calls) ∧
      ∀ before c after, calls = before ++ c :: after → (∀ d ∈ before, NoWrap heap d) →
        ¬ NoWrap heap c → ¬ Inside heap c ∨ c.next = 0#32 := by
  have hReady : Ready heap 0#32 := fun hNull => absurd rfl hNull
  refine ⟨fun hWrap => (mallocs_blocks hAligned hHeap hReady h hWrap).1, ?_⟩
  intro before c after hCalls hBefore hWrap
  obtain ⟨hNext, hCall⟩ := mallocs_ready hAligned hHeap hReady h hCalls hBefore
  exact malloc_wraps hAligned hHeap hNext hCall hWrap

/-- Three blocks, one of no size, in a heap of 64 bytes. -/
theorem malloc_blocks_disjoint_small :
    Blocks ⟨0x80000000#32, 0x80000040#32⟩
      [⟨0#32, 5#32, 0x80000000#32, 0x80000008#32⟩,
        ⟨0x80000008#32, 0#32, 0#32, 0x80000008#32⟩,
        ⟨0x80000008#32, 9#32, 0x80000008#32, 0x80000018#32⟩] :=
  (malloc_blocks_disjoint (by decide) (by decide) [5#32, 0#32, 9#32] _ (by decide)).1 (by decide)

/-- The largest size passes the assertion: the first call returns a block that
leaves the heap, the second the same address again. -/
theorem malloc_wraps_size :
    mallocs ⟨0x80000000#32, 0x88000000#32⟩ 0#32 [0xffffffff#32, 8#32] =
        some [⟨0#32, 0xffffffff#32, 0x80000000#32, 0x80000000#32⟩,
          ⟨0x80000000#32, 8#32, 0x80000000#32, 0x80000008#32⟩] ∧
      ¬ Blocks ⟨0x80000000#32, 0x88000000#32⟩
        [⟨0#32, 0xffffffff#32, 0x80000000#32, 0x80000000#32⟩,
          ⟨0x80000000#32, 8#32, 0x80000000#32, 0x80000008#32⟩] := by
  refine ⟨by decide, fun hBlocks => ?_⟩
  exact absurd (hBlocks.inside _ List.mem_cons_self (by decide)) (by decide)

end Runs

end Riscv32.Klib
