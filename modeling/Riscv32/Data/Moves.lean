import Mathlib.Logic.Function.Basic
import Mathlib.Data.List.Basic

/-!
# Moves in sequence

Cells of a memory copied one after another, over any addresses and contents.
Where no move overwrites what a later one still reads, and none writes a cell
again (`Safe`), a schedule of moves does all of them at once: `run_dst` gives
the destinations, `run_of_ne` the cells that are none.

A copy of overlapping ranges is correct for one direction of the loop only.
The condition `Safe` is where the direction enters; the rest of the argument
does not depend on it.
-/

namespace Riscv32.Data

namespace Moves

variable {ι α β : Type} [DecidableEq α]

/-- Cell `dst i` gets the content of cell `src i`. -/
def move (dst src : ι → α) (mem : α → β) (i : ι) : α → β :=
  Function.update mem (dst i) (mem (src i))

/-- The moves of a schedule, one after another. -/
def run (dst src : ι → α) (mem : α → β) (is : List ι) : α → β := is.foldl (move dst src) mem

/-- No move overwrites the source or the destination of a later one. -/
def Safe (dst src : ι → α) (is : List ι) : Prop :=
  is.Pairwise fun i j => dst i ≠ src j ∧ dst i ≠ dst j

variable {dst src : ι → α} {is : List ι}

theorem move_dst (mem : α → β) (i : ι) : move dst src mem i (dst i) = mem (src i) :=
  Function.update_self _ _ _

theorem move_of_ne (mem : α → β) {i : ι} {x : α} (hx : dst i ≠ x) :
    move dst src mem i x = mem x :=
  Function.update_of_ne hx.symm _ _

/-- A cell that is no destination keeps its content. -/
theorem run_of_ne (mem : α → β) {x : α} (hx : ∀ i ∈ is, dst i ≠ x) :
    run dst src mem is x = mem x := by
  induction is generalizing mem with
  | nil => rfl
  | cons k ks ih =>
      obtain ⟨hHead, hTail⟩ := List.forall_mem_cons.1 hx
      show run dst src (move dst src mem k) ks x = mem x
      rw [ih _ hTail, move_of_ne mem hHead]

/--
**A safe schedule reads the original memory**: every destination ends with
what its source held at the start.
-/
theorem run_dst (mem : α → β) (hSafe : Safe dst src is) {i : ι} (hi : i ∈ is) :
    run dst src mem is (dst i) = mem (src i) := by
  induction is generalizing mem with
  | nil => simp at hi
  | cons k ks ih =>
      obtain ⟨hHead, hTail⟩ := List.pairwise_cons.1 hSafe
      show run dst src (move dst src mem k) ks (dst i) = mem (src i)
      cases List.mem_cons.1 hi with
      | inl hNow =>
          subst hNow
          rw [run_of_ne _ fun j hj => (hHead j hj).2.symm, move_dst]
      | inr hLater =>
          rw [ih _ hTail hLater, move_of_ne mem (hHead i hLater).1]

end Moves

end Riscv32.Data
