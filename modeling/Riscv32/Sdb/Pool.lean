import Riscv32.Sdb.Watchpoint

/-!
# The watchpoint pool keeps its nodes

`Lists p live free`: the head list visits `live`, the free list `free`, and
every node of the pool is in exactly one of them.  Each command is described
by what it does to the two lists; the pointers are not looked at again.

The lists are `Data.Linked` lists over the `next` pointers of the pool, so that
setting and deleting a watchpoint are a push and a splice there.

## Main results

* `cmdW_spec` — `w` takes the first free node and puts it in front.
* `cmdD_spec` — `d` deletes one watchpoint with the number, or none, and why none.
-/

namespace Riscv32.Sdb

open Riscv32.Data

/-- What a watchpoint holds besides its place in a list. -/
def Wp.content (wp : Wp) : BitVec 32 × List Char × BitVec 32 × BitVec 32 :=
  (wp.no, wp.addrExpr, wp.lastVal, wp.cnt)

structure Lists (p : WpPool) (live free : List (Fin nrWp)) : Prop where
  linkHead : Linked p.next p.head live
  linkFree : Linked p.next p.free free
  perm : (live ++ free).Perm (List.finRange nrWp)
  no : ∀ n, (p.wpPool n).no = BitVec.ofNat 32 n

section Basic

variable {p : WpPool} {live free : List (Fin nrWp)}

theorem Lists.nodup (h : Lists p live free) : (live ++ free).Nodup :=
  h.perm.nodup_iff.mpr (List.nodup_finRange nrWp)

theorem Lists.no_inj (h : Lists p live free) {m n : Fin nrWp}
    (hNo : (p.wpPool m).no = (p.wpPool n).no) : m = n := by
  rw [h.no, h.no] at hNo
  have hm : m.val < 32 := m.isLt
  have hn : n.val < 32 := n.isLt
  have hVal := congrArg BitVec.toNat hNo
  rw [BitVec.toNat_ofNat, BitVec.toNat_ofNat] at hVal
  exact Fin.ext (by omega)

theorem Lists.length (h : Lists p live free) : live.length + free.length = nrWp := by
  have hLen := h.perm.length_eq
  rwa [List.length_append, List.length_finRange] at hLen

theorem Lists.live_nil (h : Lists p live free) (hHead : p.head = none) : live = [] :=
  h.linkHead.unique (linked_nil.mpr hHead)

theorem Lists.head_mem (h : Lists p live free) {top : Fin nrWp} (hHead : p.head = some top) :
    top ∈ live := by
  cases live with
  | nil => simp [linked_nil.mp h.linkHead] at hHead
  | cons m live =>
      rw [Option.some.inj (hHead.symm.trans h.linkHead.1)]
      exact List.mem_cons_self

theorem next_set (n : Fin nrWp) (wp : Wp) :
    (p.set n wp).next = Function.update p.next n wp.next := by
  funext m
  by_cases hm : m = n
  · subst hm
    simp [WpPool.next, WpPool.set]
  · simp [WpPool.next, WpPool.set, hm]

@[simp] theorem next_setNext (n : Fin nrWp) (q : WpPtr) :
    (p.setNext n q).next = Function.update p.next n q := next_set n _

@[simp] theorem content_setNext (n m : Fin nrWp) (q : WpPtr) :
    ((p.setNext n q).wpPool m).content = (p.wpPool m).content := by
  by_cases hm : m = n
  · subst hm
    simp [WpPool.setNext, WpPool.set, Wp.content]
  · simp [WpPool.setNext, WpPool.set, hm]

@[simp] theorem head_setNext (n : Fin nrWp) (q : WpPtr) : (p.setNext n q).head = p.head := rfl

@[simp] theorem free_setNext (n : Fin nrWp) (q : WpPtr) : (p.setNext n q).free = p.free := rfl

/-- Contents carry the numbers of the nodes. -/
theorem no_of_content {p' : WpPool}
    (hSame : ∀ m, (p'.wpPool m).content = (p.wpPool m).content)
    (hNo : ∀ n, (p.wpPool n).no = BitVec.ofNat 32 n) (n : Fin nrWp) :
    (p'.wpPool n).no = BitVec.ofNat 32 n := by
  rw [← hNo n]
  exact congrArg Prod.fst (hSame n)

end Basic

/-! ## Giving a node back -/

section Free

variable {p : WpPool} {live free : List (Fin nrWp)}

/-- What `release` leaves: the node leads the free list, the live list is the
one the pointers were set up for. -/
theorem release_lists (q : WpPool) (wp : Fin nrWp) {live' : List (Fin nrWp)}
    (hHead : Linked q.next q.head live') (hFree : Linked q.next q.free free)
    (hPerm : (live' ++ wp :: free).Perm (List.finRange nrWp))
    (hNo : ∀ n, (q.wpPool n).no = BitVec.ofNat 32 n) :
    Lists (q.release wp) live' (wp :: free) ∧
      ∀ m, ((q.release wp).wpPool m).content = (q.wpPool m).content := by
  have hNodup : (live' ++ wp :: free).Nodup := hPerm.nodup_iff.mpr (List.nodup_finRange nrWp)
  have hLive : wp ∉ live' := by
    intro hMem
    exact List.disjoint_of_nodup_append hNodup hMem (by simp)
  have hNot : wp ∉ free := (List.nodup_cons.mp hNodup.of_append_right).1
  have hNext : (q.release wp).next = Function.update q.next wp q.free := next_setNext wp q.free
  have hSame : ∀ m, ((q.release wp).wpPool m).content = (q.wpPool m).content :=
    fun m => content_setNext wp m q.free
  refine ⟨⟨?_, ?_, hPerm, no_of_content hSame hNo⟩, hSame⟩
  · rw [hNext]
    exact hHead.update hLive _
  · rw [hNext]
    exact hFree.push hNot

/-- Moving a node from one list to the other keeps the pool together. -/
theorem perm_move (l₁ l₂ : List (Fin nrWp)) {wp : Fin nrWp}
    (h : ((l₁ ++ wp :: l₂) ++ free).Perm (List.finRange nrWp)) :
    ((l₁ ++ l₂) ++ wp :: free).Perm (List.finRange nrWp) := by
  refine List.Perm.trans ?_ h
  refine List.perm_middle.trans ?_
  rw [← List.cons_append]
  exact List.perm_middle.symm.append_right free

/-- The search for the predecessor, from an inner node on. -/
private theorem unlink_spec (h : Lists p live free) {wp : Fin nrWp} (tmp : Fin nrWp)
    (l₁ l₂ : List (Fin nrWp)) {l₃ : List (Fin nrWp)}
    (hLive : live = l₁ ++ tmp :: (l₂ ++ wp :: l₃)) {fuel : Nat} (hFuel : l₂.length < fuel) :
    ∃ p', p.unlink wp fuel tmp = some p' ∧ Lists p' (l₁ ++ tmp :: (l₂ ++ l₃)) (wp :: free) ∧
      ∀ m, (p'.wpPool m).content = (p.wpPool m).content := by
  have hNodup := h.nodup.of_append_left
  -- on the nodes between `tmp` and `wp`
  induction l₂ generalizing l₁ tmp fuel with
  | nil =>
      obtain ⟨fuel, rfl⟩ := Nat.exists_eq_succ_of_ne_zero (Nat.ne_zero_of_lt hFuel)
      subst hLive
      have hNext : p.next tmp = some wp := h.linkHead.rest.1
      have hTmp : tmp ∉ free := fun hMem =>
        List.disjoint_of_nodup_append h.nodup (by simp) hMem
      have hFound : p.unlink wp (fuel + 1) tmp =
          some ((p.setNext tmp (p.next wp)).release wp) := by
        rw [WpPool.unlink, hNext]
        simp
      obtain ⟨hLists, hSame⟩ := release_lists (p.setNext tmp (p.next wp)) wp
        (by simpa using h.linkHead.splice hNodup) (by simpa using h.linkFree.update hTmp _)
        (by
          have hPerm : ((l₁ ++ [tmp] ++ wp :: l₃) ++ free).Perm (List.finRange nrWp) := by
            simpa using h.perm
          simpa using perm_move _ _ hPerm)
        (no_of_content (fun m => content_setNext tmp m _) h.no)
      exact ⟨_, hFound, by simpa using hLists,
        fun m => (hSame m).trans (content_setNext tmp m _)⟩
  | cons n l₂ ih =>
      obtain ⟨fuel, rfl⟩ := Nat.exists_eq_succ_of_ne_zero (Nat.ne_zero_of_lt hFuel)
      have hNext : p.next tmp = some n := by
        have hRest := h.linkHead
        rw [hLive] at hRest
        exact hRest.rest.1
      have hNe : (p.wpPool wp).no ≠ (p.wpPool n).no := by
        intro hNo
        obtain rfl := h.no_inj hNo
        rw [hLive] at hNodup
        simp [List.nodup_append] at hNodup
      obtain ⟨p', hFound, hLists, hSame⟩ := ih n (l₁ ++ [tmp])
        (by simpa using hLive) (Nat.lt_of_succ_lt_succ hFuel)
      refine ⟨p', ?_, by simpa using hLists, hSame⟩
      rw [WpPool.unlink, hNext]
      simpa [hNe] using hFound

/-- `free_wp` moves a live node to the free list. -/
theorem freeWp_spec (h : Lists p live free) {wp : Fin nrWp} {l₁ l₂ : List (Fin nrWp)}
    (hLive : live = l₁ ++ wp :: l₂) :
    ∃ p', p.freeWp wp = some p' ∧ Lists p' (l₁ ++ l₂) (wp :: free) ∧
      ∀ m, (p'.wpPool m).content = (p.wpPool m).content := by
  subst hLive
  have hLen := h.length
  cases l₁ with
  | nil =>
      have hHead : p.head = some wp := h.linkHead.1
      have hFound : p.freeWp wp = some ({ p with head := p.next wp }.release wp) := by
        simp [WpPool.freeWp, hHead]
      obtain ⟨hLists, hSame⟩ := release_lists { p with head := p.next wp } wp
        h.linkHead.2 h.linkFree (perm_move [] l₂ h.perm) h.no
      exact ⟨_, hFound, hLists, hSame⟩
  | cons n l₁ =>
      have hHead : p.head = some n := h.linkHead.1
      have hNe : (p.wpPool wp).no ≠ (p.wpPool n).no := by
        intro hNo
        obtain rfl := h.no_inj hNo
        have := h.nodup.of_append_left
        simp at this
      have hFuel : l₁.length < nrWp := by
        simp only [List.length_append, List.length_cons] at hLen
        omega
      obtain ⟨p', hFound, hLists, hSame⟩ := unlink_spec h n [] l₁ rfl hFuel
      refine ⟨p', ?_, hLists, hSame⟩
      simpa [WpPool.freeWp, hHead, hNe] using hFound

end Free

/-! ## The commands -/

/-- The free list that `init_wp_pool` sets up. -/
private def initNext (i : Fin nrWp) : WpPtr :=
  if h : i.val + 1 < nrWp then some ⟨i + 1, h⟩ else none

theorem init_lists (p : WpPool) : Lists p.initWpPool [] (List.finRange nrWp) where
  linkHead := rfl
  linkFree := by
    have hLinked : Linked initNext (some 0) (List.finRange nrWp) := by decide +kernel
    exact hLinked
  perm := List.Perm.refl _
  no := fun _ => rfl

section Commands

variable {p : WpPool} {live free : List (Fin nrWp)}

/-- The pool after `w` has taken the free node `n`. -/
def WpPool.taken (p : WpPool) (n : Fin nrWp) (args : List Char) (val : BitVec 32) : WpPool :=
  { p.set n { p.wpPool n with
      next := p.head
      addrExpr := args.take 127
      lastVal := val
      cnt := p.head.elim 1 fun m => (p.wpPool m).cnt + 1 } with
    head := some n
    free := p.next n }

theorem cmdW_eq {n : Fin nrWp} (hFree : p.free = some n) (args : List Char) (val : BitVec 32) :
    p.cmdW args val = some (p.taken n args val) := by
  have hNext : (p.setNext n p.head).next n = p.head := by simp
  have hCnt : ∀ m, ((p.setNext n p.head).wpPool m).cnt = (p.wpPool m).cnt := fun m =>
    congrArg (·.2.2.2) (content_setNext n m p.head)
  have hTaken : ∀ q, p.setNext n p.head = q →
      p.taken n args val = WpPool.set { q with head := some n, free := p.next n } n
        { q.wpPool n with
          addrExpr := args.take 127
          lastVal := val
          cnt := p.head.elim 1 fun m => (p.wpPool m).cnt + 1 } := by
    rintro q rfl
    simp [WpPool.taken, WpPool.setNext, WpPool.set]
  have hNew : p.newWp = some ({ p.setNext n p.head with head := some n, free := p.next n }, n) := by
    simp [WpPool.newWp, hFree]
  generalize hQ : p.setNext n p.head = q at hNext hCnt hNew
  have hPred : WpPool.next { q with head := some n, free := p.next n } n = p.head := hNext
  rw [WpPool.cmdW, hNew, hTaken q hQ]
  cases hHead : p.head with
  | none => simp [hPred, hHead]
  | some m => simp [hPred, hHead, hCnt]

theorem next_taken (n : Fin nrWp) (args : List Char) (val : BitVec 32) :
    (p.taken n args val).next = Function.update p.next n p.head := next_set n _

theorem content_taken (n : Fin nrWp) (args : List Char) (val : BitVec 32) :
    ((p.taken n args val).wpPool n).content = ((p.wpPool n).no, args.take 127, val,
        p.head.elim 1 fun m => (p.wpPool m).cnt + 1) ∧
      ∀ m, m ≠ n → ((p.taken n args val).wpPool m).content = (p.wpPool m).content := by
  refine ⟨by simp [WpPool.taken, WpPool.set, Wp.content], fun m hm => ?_⟩
  simp [WpPool.taken, WpPool.set, hm]

/-- `new_wp` and the rest of `w`: the node takes its place in front. -/
theorem cmdW_spec {n : Fin nrWp} (h : Lists p live (n :: free)) (args : List Char)
    (val : BitVec 32) :
    ∃ p', p.cmdW args val = some p' ∧ Lists p' (n :: live) free ∧
      (∀ m, m ≠ n → (p'.wpPool m).content = (p.wpPool m).content) ∧
      (p'.wpPool n).content = (BitVec.ofNat 32 n, args.take 127, val,
        p.head.elim 1 fun m => (p.wpPool m).cnt + 1) := by
  have hNodup := h.nodup
  have hLive : n ∉ live := fun hMem => List.disjoint_of_nodup_append hNodup hMem (by simp)
  have hRest : n ∉ free := (List.nodup_cons.mp hNodup.of_append_right).1
  obtain ⟨hSelf, hOther⟩ := content_taken n args val
  rw [h.no] at hSelf
  refine ⟨_, cmdW_eq h.linkFree.1 args val, ⟨?_, ?_, ?_, ?_⟩, hOther, hSelf⟩
  · rw [next_taken]
    exact h.linkHead.push hLive
  · rw [next_taken]
    exact h.linkFree.2.update hRest _
  · exact List.Perm.trans List.perm_middle.symm h.perm
  · intro m
    by_cases hm : m = n
    · subst hm
      exact congrArg Prod.fst hSelf
    · exact (congrArg Prod.fst (hOther m hm)).trans (h.no m)

/-- The loop of `d` deletes the first watchpoint with the number. -/
private theorem delete_spec {num : BitVec 32} {q : WpPtr} {l : List (Fin nrWp)}
    (hLink : Linked p.next q l) (fuel : Nat) (hFuel : l.length < fuel) :
    p.delete num fuel q = (l.find? fun n => (p.wpPool n).cnt = num).elim (some p) p.freeWp := by
  induction l generalizing q fuel with
  | nil =>
      obtain ⟨fuel, rfl⟩ := Nat.exists_eq_succ_of_ne_zero (Nat.ne_zero_of_lt hFuel)
      rw [linked_nil.mp hLink]
      rfl
  | cons n l ih =>
      obtain ⟨fuel, rfl⟩ := Nat.exists_eq_succ_of_ne_zero (Nat.ne_zero_of_lt hFuel)
      obtain ⟨rfl, hRest⟩ := hLink
      rw [WpPool.delete]
      by_cases hCnt : (p.wpPool n).cnt = num
      · simp [hCnt]
      · rw [if_neg hCnt, ih hRest fuel (Nat.lt_of_succ_lt_succ hFuel)]
        simp [hCnt]

/-- `d` deletes one watchpoint with the number, or none: because the newest
has a smaller number, or because none has it. -/
theorem cmdD_spec (h : Lists p live free) (num : BitVec 32) :
    (p.cmdD num = some p ∧ ((∀ n, p.head = some n → (p.wpPool n).cnt.slt num = true) ∨
      ∀ n ∈ live, (p.wpPool n).cnt ≠ num)) ∨
    ∃ p' l₁ n l₂, live = l₁ ++ n :: l₂ ∧ (p.wpPool n).cnt = num ∧ p.cmdD num = some p' ∧
      Lists p' (l₁ ++ l₂) (n :: free) ∧ ∀ m, (p'.wpPool m).content = (p.wpPool m).content := by
  cases hHead : p.head with
  | none => exact .inl ⟨by simp [WpPool.cmdD, hHead], .inl (by simp)⟩
  | some top =>
      cases hLess : (p.wpPool top).cnt.slt num with
      | true =>
          refine .inl ⟨by simp [WpPool.cmdD, hHead, hLess], .inl ?_⟩
          rintro n ⟨rfl⟩
          exact hLess
      | false =>
          have hLen := h.length
          have hRun : p.cmdD num =
              (live.find? fun n => (p.wpPool n).cnt = num).elim (some p) p.freeWp := by
            rw [← delete_spec h.linkHead (nrWp + 1) (by omega)]
            simp [WpPool.cmdD, hHead, hLess]
          cases hFind : live.find? fun n => (p.wpPool n).cnt = num with
          | none =>
              refine .inl ⟨by rw [hRun, hFind]; rfl, .inr fun n hn => ?_⟩
              simpa using List.find?_eq_none.mp hFind n hn
          | some n =>
              obtain ⟨hNum, l₁, l₂, hLive, -⟩ := List.find?_eq_some_iff_append.mp hFind
              obtain ⟨p', hFree, hLists, hSame⟩ := freeWp_spec h hLive
              exact .inr ⟨p', l₁, n, l₂, hLive, by simpa using hNum,
                by rw [hRun, hFind]; exact hFree, hLists, hSame⟩

end Commands

end Riscv32.Sdb
