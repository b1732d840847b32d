import Mathlib.Data.List.Basic
import Mathlib.Logic.Function.Basic

/-!
# Singly linked lists in a pool

The nodes of a pool carry a `next` pointer each; `Linked next p l` says that
following `next` from `p` visits exactly the nodes `l` and ends.  A list that
visits no node twice is acyclic.

The pool is a function from nodes to pointers, so that a write is
`Function.update` and the heap of the program need not be modelled.  Every
operation on a list is a few writes; `Linked.frame` says which of them a list
does not notice, and the rest follows from it.

## Main results

* `Linked.unique` — a pointer determines its list.
* `Linked.push` — a node put in front.
* `Linked.splice` — a node taken out from behind another.
-/

namespace Riscv32.Data

variable {ν : Type}

/-- Following `next` from `p` visits `l` and ends in a null pointer. -/
def Linked (next : ν → Option ν) : Option ν → List ν → Prop
  | p, [] => p = none
  | p, n :: l => p = some n ∧ Linked next (next n) l

instance Linked.decidable [DecidableEq ν] (next : ν → Option ν) :
    ∀ (p : Option ν) (l : List ν), Decidable (Linked next p l)
  | p, [] => inferInstanceAs (Decidable (p = none))
  | p, n :: l =>
    let _ := Linked.decidable next (next n) l
    inferInstanceAs (Decidable (p = some n ∧ Linked next (next n) l))

section Basic

variable {next next' : ν → Option ν}

@[simp] theorem linked_nil {p : Option ν} : Linked next p [] ↔ p = none := Iff.rfl

@[simp] theorem linked_cons {p : Option ν} {n : ν} {l : List ν} :
    Linked next p (n :: l) ↔ p = some n ∧ Linked next (next n) l := Iff.rfl

/-- A pointer determines its list. -/
theorem Linked.unique {p : Option ν} {l l' : List ν} (h : Linked next p l)
    (h' : Linked next p l') : l = l' := by
  induction l generalizing p l' with
  | nil =>
      cases l' with
      | nil => rfl
      | cons m l' => simp [linked_nil.mp h] at h'
  | cons n l ih =>
      cases l' with
      | nil => simp [linked_nil.mp h'] at h
      | cons m l' =>
          obtain ⟨rfl, hRest⟩ := h
          obtain ⟨hEq, hRest'⟩ := h'
          obtain rfl := Option.some.inj hEq
          rw [ih hRest hRest']

/-- The rest of a list is linked from the node before it. -/
theorem Linked.rest {p : Option ν} {n : ν} {l₁ l₂ : List ν} (h : Linked next p (l₁ ++ n :: l₂)) :
    Linked next (next n) l₂ := by
  induction l₁ generalizing p with
  | nil => exact h.2
  | cons m l₁ ih => exact ih h.2

/-- A list does not notice writes to other nodes. -/
theorem Linked.frame {p : Option ν} {l : List ν} (h : Linked next p l)
    (hSame : ∀ n ∈ l, next' n = next n) : Linked next' p l := by
  induction l generalizing p with
  | nil => exact h
  | cons n l ih =>
      obtain ⟨hHead, hRest⟩ := h
      refine ⟨hHead, ?_⟩
      rw [hSame n (by simp)]
      exact ih hRest fun m hm => hSame m (by simp [hm])

end Basic

section Update

variable [DecidableEq ν] {next : ν → Option ν} {p : Option ν} {l : List ν}

theorem Linked.update (h : Linked next p l) {n : ν} (hn : n ∉ l) (q : Option ν) :
    Linked (Function.update next n q) p l := by
  refine h.frame fun m hm => ?_
  rw [Function.update_of_ne]
  rintro rfl
  exact hn hm

/-- Pushing a node that is not in the list. -/
theorem Linked.push (h : Linked next p l) {n : ν} (hn : n ∉ l) :
    Linked (Function.update next n p) (some n) (n :: l) :=
  ⟨rfl, by
    rw [Function.update_self]
    exact h.update hn p⟩

/-- Taking out the node after `a`. -/
theorem Linked.splice {a w : ν} {l₁ l₂ : List ν} (h : Linked next p (l₁ ++ a :: w :: l₂))
    (hNodup : (l₁ ++ a :: w :: l₂).Nodup) :
    Linked (Function.update next a (next w)) p (l₁ ++ a :: l₂) := by
  induction l₁ generalizing p with
  | nil =>
      obtain ⟨hHead, hNext⟩ := h
      obtain ⟨-, hRest⟩ := hNext
      refine ⟨hHead, ?_⟩
      rw [Function.update_self]
      simp only [List.nil_append, List.nodup_cons, List.mem_cons, not_or] at hNodup
      exact hRest.update hNodup.1.2 _
  | cons n l₁ ih =>
      obtain ⟨hHead, hRest⟩ := h
      have hNe : n ≠ a := by
        rintro rfl
        simp at hNodup
      rw [List.cons_append, List.nodup_cons] at hNodup
      refine ⟨hHead, ?_⟩
      rw [Function.update_of_ne hNe]
      exact ih hRest hNodup.2

end Update

end Riscv32.Data
