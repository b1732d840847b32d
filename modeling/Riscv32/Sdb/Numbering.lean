import Riscv32.Sdb.Pool

/-!
# Watchpoint numbers

A new watchpoint is numbered one above the newest live one, so the numbers
fall along the head list as long as the `int` does not overflow.  Then a
number names at most one watchpoint, and the early return of `d` misses none.

`Numbered` is the invariant on numbers, over the lists of `Sdb.Pool`.  It needs
`Ready`: that a number can still be incremented.  That this is needed is shown by
a churn of one live watchpoint whose number grows with every turn, up to the last
`int` (`churn_overflows`).

`watchpoints_good` is the result, for every sequence of commands.
-/

namespace Riscv32.Sdb

open Riscv32.Data

/-! ## Sequences of commands -/

/-- Every command of the sequence is given in a state that satisfies `P`. -/
def Follows (P : WpPool → WpCmd → Prop) (p : WpPool) : List WpCmd → Prop
  | [] => True
  | c :: cs => P p c ∧ ∀ p', p.exec c = some p' → Follows P p' cs

/-- `w` only while there is a free node. -/
def Permitted (p : WpPool) : WpCmd → Prop
  | .w _ _ => p.free ≠ none
  | .d _ => True

/-- Also, the newest number can still be incremented. -/
def Ready (p : WpPool) (c : WpCmd) : Prop :=
  Permitted p c ∧ match c with
    | .w _ _ => ∀ n, p.head = some n → (p.wpPool n).cnt ≠ BitVec.intMax 32
    | .d _ => True

theorem follows_append {P : WpPool → WpCmd → Prop} {p : WpPool} {cs cs' : List WpCmd} :
    Follows P p (cs ++ cs') ↔
      Follows P p cs ∧ ∀ p', p.execAll cs = some p' → Follows P p' cs' := by
  induction cs generalizing p with
  | nil => simp [Follows, WpPool.execAll]
  | cons c cs ih =>
      simp only [List.cons_append, Follows, WpPool.execAll, List.foldlM_cons]
      cases hRun : p.exec c with
      | none => simp
      | some q => simp [ih, WpPool.execAll, and_assoc]

/-- **Run rule**: what every command keeps holds after every sequence. -/
theorem execAll_invariant {P : WpPool → WpCmd → Prop} (Inv : WpPool → Prop)
    (hStep : ∀ p c, Inv p → P p c → ∃ p', p.exec c = some p' ∧ Inv p') {p : WpPool} (hInit : Inv p)
    {cmds : List WpCmd} (h : Follows P p cmds) : ∃ p', p.execAll cmds = some p' ∧ Inv p' := by
  induction cmds generalizing p with
  | nil => exact ⟨p, rfl, hInit⟩
  | cons c cs ih =>
      obtain ⟨p', hRun, hInv⟩ := hStep p c hInit h.1
      obtain ⟨q, hAll, hEnd⟩ := ih hInv (h.2 p' hRun)
      refine ⟨q, ?_, hEnd⟩
      simpa [WpPool.execAll, hRun] using hAll

/-! ## Every command keeps the lists -/

theorem exec_lists (p : WpPool) (c : WpCmd) (h : ∃ live free, Lists p live free)
    (hPermit : Permitted p c) : ∃ p', p.exec c = some p' ∧ ∃ live free, Lists p' live free := by
  obtain ⟨live, free, hLists⟩ := h
  cases c with
  | w args val =>
      cases free with
      | nil => exact absurd (linked_nil.mp hLists.linkFree) hPermit
      | cons n free =>
          obtain ⟨p', hRun, hNew, -⟩ := cmdW_spec hLists args val
          exact ⟨p', hRun, _, _, hNew⟩
  | d num =>
      rcases cmdD_spec hLists num with ⟨hRun, -⟩ | ⟨p', l₁, n, l₂, -, -, hRun, hNew, -⟩
      · exact ⟨p, hRun, _, _, hLists⟩
      · exact ⟨p', hRun, _, _, hNew⟩

/-! ## Numbers -/

/-- The numbers along the head list are positive and fall. -/
structure Numbered (p : WpPool) (live : List (Fin nrWp)) : Prop where
  pos : ∀ n ∈ live, 0 < (p.wpPool n).cnt.toInt
  falls : live.Pairwise fun m n => (p.wpPool n).cnt.toInt < (p.wpPool m).cnt.toInt

theorem toInt_succ {x : BitVec 32} (h : x ≠ BitVec.intMax 32) : (x + 1).toInt = x.toInt + 1 := by
  have hNe : x.toNat ≠ 2147483647 := by
    intro hNat
    exact h (BitVec.eq_of_toNat_eq hNat)
  have hx := x.isLt
  rw [BitVec.toInt_eq_toNat_cond, BitVec.toInt_eq_toNat_cond, BitVec.toNat_add]
  simp only [BitVec.ofNat_eq_ofNat, BitVec.toNat_ofNat]
  split <;> split <;> omega

theorem cnt_of_content {p p' : WpPool} {m : Fin nrWp}
    (h : (p'.wpPool m).content = (p.wpPool m).content) : (p'.wpPool m).cnt = (p.wpPool m).cnt :=
  congrArg (·.2.2.2) h

/-- Deleting keeps the numbering. -/
theorem Numbered.sublist {p p' : WpPool} {live live' : List (Fin nrWp)} (h : Numbered p live)
    (hSub : live'.Sublist live) (hSame : ∀ m, (p'.wpPool m).content = (p.wpPool m).content) :
    Numbered p' live' where
  pos := by
    intro n hn
    rw [cnt_of_content (hSame n)]
    exact h.pos n (hSub.subset hn)
  falls := by
    simp only [cnt_of_content (hSame _)]
    exact h.falls.sublist hSub

section Step

variable {p : WpPool} {live free : List (Fin nrWp)}

/-- No number is above the newest. -/
theorem Numbered.le_head (hLists : Lists p live free) (h : Numbered p live) {top n : Fin nrWp}
    (hTop : p.head = some top) (hn : n ∈ live) :
    (p.wpPool n).cnt.toInt ≤ (p.wpPool top).cnt.toInt := by
  cases live with
  | nil => simp at hn
  | cons m live =>
      have hm : m = top := Option.some.inj (hLists.linkHead.1.symm.trans hTop)
      subst hm
      rcases List.mem_cons.mp hn with rfl | hMem
      · exact Int.le_refl _
      · exact Int.le_of_lt ((List.pairwise_cons.mp h.falls).1 n hMem)

/-- A new watchpoint is numbered above all others. -/
theorem Numbered.push {p' : WpPool} {n : Fin nrWp} (hLists : Lists p live (n :: free))
    (h : Numbered p live) (hRoom : ∀ m, p.head = some m → (p.wpPool m).cnt ≠ BitVec.intMax 32)
    (hSame : ∀ m, m ≠ n → (p'.wpPool m).content = (p.wpPool m).content)
    (hCnt : (p'.wpPool n).cnt = p.head.elim 1 fun m => (p.wpPool m).cnt + 1) :
    Numbered p' (n :: live) := by
  have hLive : ∀ m ∈ live, (p'.wpPool m).cnt = (p.wpPool m).cnt := by
    intro m hm
    refine cnt_of_content (hSame m ?_)
    rintro rfl
    exact List.disjoint_of_nodup_append hLists.nodup hm (by simp)
  have hAbove : ∀ m ∈ live, (p.wpPool m).cnt.toInt < (p'.wpPool n).cnt.toInt := by
    intro m hm
    cases hHead : p.head with
    | none =>
        simp [hLists.live_nil hHead] at hm
    | some top =>
        rw [hCnt, hHead, Option.elim_some, toInt_succ (hRoom top hHead)]
        have := h.le_head hLists hHead hm
        omega
  have hPos : 0 < (p'.wpPool n).cnt.toInt := by
    cases hHead : p.head with
    | none =>
        rw [hCnt, hHead, Option.elim_none]
        decide
    | some top =>
        have hMem := hLists.head_mem hHead
        have hTop := h.pos top hMem
        exact Int.lt_trans hTop (hAbove top hMem)
  refine ⟨fun m hm => ?_, List.pairwise_cons.mpr ⟨fun m hm => ?_, ?_⟩⟩
  · rcases List.mem_cons.mp hm with rfl | hMem
    · exact hPos
    · rw [hLive m hMem]
      exact h.pos m hMem
  · rw [hLive m hm]
    exact hAbove m hm
  · refine h.falls.imp_of_mem fun {a b} ha hb hLt => ?_
    rw [hLive a ha, hLive b hb]
    exact hLt

/-- The early return misses nothing: every number is at most the newest. -/
theorem Numbered.none_above (hLists : Lists p live free) (h : Numbered p live) {num : BitVec 32}
    (hLess : ∀ n, p.head = some n → (p.wpPool n).cnt.slt num = true) :
    ∀ n ∈ live, (p.wpPool n).cnt ≠ num := by
  intro n hn hEq
  cases hHead : p.head with
  | none => simp [hLists.live_nil hHead] at hn
  | some top =>
      have hTop := hLess top hHead
      rw [BitVec.slt_iff_toInt_lt] at hTop
      have hLe := h.le_head hLists hHead hn
      rw [hEq] at hLe
      omega

/-- Only `n` has the number of `n`. -/
theorem Numbered.filter_eq {l₁ l₂ : List (Fin nrWp)} {n : Fin nrWp}
    (h : Numbered p (l₁ ++ n :: l₂)) :
    ((l₁ ++ n :: l₂).filter fun m => (p.wpPool m).cnt ≠ (p.wpPool n).cnt) = l₁ ++ l₂ := by
  obtain ⟨-, hRight, hAcross⟩ := List.pairwise_append.mp h.falls
  have hBefore : ∀ m ∈ l₁, (p.wpPool m).cnt ≠ (p.wpPool n).cnt := by
    intro m hm hEq
    have hLt := hAcross m hm n (by simp)
    rw [hEq] at hLt
    omega
  have hAfter : ∀ m ∈ l₂, (p.wpPool m).cnt ≠ (p.wpPool n).cnt := by
    intro m hm hEq
    have hLt := (List.pairwise_cons.mp hRight).1 m hm
    rw [hEq] at hLt
    omega
  rw [List.filter_append, List.filter_cons_of_neg (by simp)]
  congr 1
  · exact List.filter_eq_self.mpr fun m hm => by simpa using hBefore m hm
  · exact List.filter_eq_self.mpr fun m hm => by simpa using hAfter m hm

/-- With falling numbers `d` deletes the watchpoint of that number, and
nothing else. -/
theorem cmdD_filter (hLists : Lists p live free) (h : Numbered p live) (num : BitVec 32) :
    ∃ p' free', p.cmdD num = some p' ∧
      Lists p' (live.filter fun n => (p.wpPool n).cnt ≠ num) free' ∧
      ∀ m, (p'.wpPool m).content = (p.wpPool m).content := by
  rcases cmdD_spec hLists num with ⟨hRun, hNone⟩ | ⟨p', l₁, n, l₂, rfl, rfl, hRun, hNew, hSame⟩
  · refine ⟨p, free, hRun, ?_, fun _ => rfl⟩
    have hNot : ∀ n ∈ live, (p.wpPool n).cnt ≠ num :=
      hNone.elim (fun hLess => h.none_above hLists hLess) id
    rw [List.filter_eq_self.mpr fun n hn => by simpa using hNot n hn]
    exact hLists
  · refine ⟨p', n :: free, hRun, ?_, hSame⟩
    rw [h.filter_eq]
    exact hNew

end Step

/-- The pool in good order, with its lists. -/
structure Good (p : WpPool) (live free : List (Fin nrWp)) : Prop extends
  Lists p live free, Numbered p live

theorem exec_good (p : WpPool) (c : WpCmd) (h : ∃ live free, Good p live free)
    (hReady : Ready p c) : ∃ p', p.exec c = some p' ∧ ∃ live free, Good p' live free := by
  obtain ⟨live, free, hLists, hNum⟩ := h
  cases c with
  | w args val =>
      cases free with
      | nil => exact absurd (linked_nil.mp hLists.linkFree) hReady.1
      | cons n free =>
          obtain ⟨p', hRun, hNew, hSame, hContent⟩ := cmdW_spec hLists args val
          refine ⟨p', hRun, _, _, hNew, ?_⟩
          exact hNum.push hLists hReady.2 hSame (congrArg (·.2.2.2) hContent)
  | d num =>
      obtain ⟨p', free', hRun, hNew, hSame⟩ := cmdD_filter hLists hNum num
      exact ⟨p', hRun, _, _, hNew, hNum.sublist List.filter_sublist hSame⟩

/-- After every sequence of commands the two lists share out the pool; and
while no number overflows, the live numbers are positive and fall, and `d`
deletes the watchpoint of its number or nothing. -/
theorem watchpoints_good (p₀ : WpPool) (cmds : List WpCmd) :
    (Follows Permitted p₀.initWpPool cmds →
      ∃ p live free, p₀.initWpPool.execAll cmds = some p ∧ Lists p live free) ∧
    (Follows Ready p₀.initWpPool cmds →
      ∃ p live free, p₀.initWpPool.execAll cmds = some p ∧ Lists p live free ∧
        Numbered p live ∧
        ∀ num, ∃ p' free', p.exec (.d num) = some p' ∧
          Lists p' (live.filter fun n => (p.wpPool n).cnt ≠ num) free' ∧
          ∀ m, (p'.wpPool m).content = (p.wpPool m).content) := by
  constructor
  · intro hFollows
    obtain ⟨p, hRun, live, free, hLists⟩ := execAll_invariant _ exec_lists
      ⟨_, _, init_lists p₀⟩ hFollows
    exact ⟨p, live, free, hRun, hLists⟩
  · intro hFollows
    have hInit : Good p₀.initWpPool [] (List.finRange nrWp) :=
      ⟨init_lists p₀, by simp, List.Pairwise.nil⟩
    obtain ⟨p, hRun, live, free, hLists, hNum⟩ := execAll_invariant _ exec_good
      ⟨_, _, hInit⟩ hFollows
    exact ⟨p, live, free, hRun, hLists, hNum, cmdD_filter hLists hNum⟩

/-- The pool as the program starts. -/
def zeroPool : WpPool := ⟨fun _ => default, none, none⟩

theorem watchpoints_good_twoCommands :
    ∃ p live free, zeroPool.initWpPool.execAll [.w ['p', 'c'] 7, .d 1] = some p ∧
      Lists p live free ∧ Numbered p live := by
  obtain ⟨p, live, free, hRun, hLists, hNum, -⟩ :=
    (watchpoints_good zeroPool [.w ['p', 'c'] 7, .d 1]).2
      ⟨⟨by simp [Permitted, WpPool.initWpPool], by simp [WpPool.initWpPool]⟩,
        fun _ _ => ⟨⟨trivial, trivial⟩, fun _ _ => trivial⟩⟩
  exact ⟨p, live, free, hRun, hLists, hNum⟩

/-! ## Running out of numbers -/

/-- One watchpoint stays live while its number grows: each turn sets a new one
and deletes the old one. -/
def churn : Nat → List WpCmd
  | 0 => [.w [] 0]
  | n + 1 => churn n ++ [.w [] 0, .d (BitVec.ofNat 32 (n + 1))]

theorem execAll_append (p : WpPool) (cs cs' : List WpCmd) :
    p.execAll (cs ++ cs') = (p.execAll cs).bind fun q => q.execAll cs' := by
  simp [WpPool.execAll, List.foldlM_append]

/-- The pool after a churn: one live watchpoint. -/
structure Churned (p : WpPool) (n : Nat) (x : Fin nrWp) (free : List (Fin nrWp)) : Prop extends
  Lists p [x] free where
  cnt : (p.wpPool x).cnt = BitVec.ofNat 32 (n + 1)

/-- Where only one watchpoint is live, the next gets the next number. -/
theorem Churned.push {p : WpPool} {n : Nat} {x : Fin nrWp} {free : List (Fin nrWp)}
    (h : Churned p n x free) :
    ∃ p' y free', Permitted p (.w [] 0) ∧ p.exec (.w [] 0) = some p' ∧
      Lists p' [y, x] free' ∧ (p'.wpPool y).cnt = BitVec.ofNat 32 (n + 2) ∧
      (p'.wpPool x).cnt = BitVec.ofNat 32 (n + 1) := by
  have hLen := h.toLists.length
  cases free with
  | nil => exact absurd (show 1 = nrWp from hLen) (by decide)
  | cons y free =>
      have hHead : p.head = some x := h.linkHead.1
      obtain ⟨p', hRun, hNew, hSame, hContent⟩ := cmdW_spec h.toLists [] 0
      have hNe : x ≠ y := by
        rintro rfl
        have := h.toLists.nodup
        simp at this
      refine ⟨p', y, free, ?_, hRun, hNew, ?_, ?_⟩
      · simp [Permitted, show p.free = some y from h.linkFree.1]
      · have hCnt : (p'.wpPool y).cnt = _ := congrArg (·.2.2.2) hContent
        rw [hCnt, hHead, Option.elim_some, h.cnt]
        exact (BitVec.ofNat_add (n + 1) 1).symm
      · rw [cnt_of_content (hSame x hNe), h.cnt]

theorem toInt_small {n : Nat} (h : n < 2147483648) : (BitVec.ofNat 32 n).toInt = n := by
  rw [BitVec.toInt_eq_toNat_cond, BitVec.toNat_ofNat]
  split <;> omega

/-- One turn of the churn. -/
theorem Churned.turn {p : WpPool} {n : Nat} {x : Fin nrWp} {free : List (Fin nrWp)}
    (h : Churned p n x free) (hSmall : n + 2 < 2147483648) :
    Follows Permitted p [.w [] 0, .d (BitVec.ofNat 32 (n + 1))] ∧
    ∃ p' y free', p.execAll [.w [] 0, .d (BitVec.ofNat 32 (n + 1))] = some p' ∧
      Churned p' (n + 1) y free' := by
  obtain ⟨q, y, free₁, hPermit, hRun, hLists, hNew, hOld⟩ := h.push
  have hNum : Numbered q [y, x] := by
    refine ⟨fun m hm => ?_, ?_⟩
    · rcases List.mem_pair.mp hm with rfl | rfl
      · rw [hNew, toInt_small (by omega)]
        omega
      · rw [hOld, toInt_small (by omega)]
        omega
    · rw [List.pairwise_pair, hNew, hOld, toInt_small (by omega), toInt_small (by omega)]
      omega
  obtain ⟨p', free₂, hDelete, hLeft, hSame⟩ :=
    cmdD_filter hLists hNum (BitVec.ofNat 32 (n + 1))
  have hKept : ([y, x].filter fun m => (q.wpPool m).cnt ≠ BitVec.ofNat 32 (n + 1)) = [y] := by
    have hNe : BitVec.ofNat 32 (n + 2) ≠ BitVec.ofNat 32 (n + 1) := by
      intro hEq
      have := congrArg BitVec.toInt hEq
      rw [toInt_small (by omega), toInt_small (by omega)] at this
      omega
    simp [hNew, hOld, hNe]
  rw [hKept] at hLeft
  refine ⟨⟨hPermit, fun q' _ => ⟨trivial, fun _ _ => trivial⟩⟩, p', y, free₂, ?_, hLeft, ?_⟩
  · change (p.exec (.w [] 0)).bind (fun q => (q.cmdD _).bind some) = some p'
    rw [hRun, Option.bind_some, hDelete, Option.bind_some]
  · rw [cnt_of_content (hSame y), hNew]

theorem churn_spec (p₀ : WpPool) (n : Nat) (hSmall : n + 1 < 2147483648) :
    Follows Permitted p₀.initWpPool (churn n) ∧
    ∃ p x free, p₀.initWpPool.execAll (churn n) = some p ∧ Churned p n x free := by
  induction n with
  | zero =>
      obtain ⟨p, hRun, hLists, -, hContent⟩ := cmdW_spec (init_lists p₀) [] 0
      refine ⟨⟨by simp [Permitted, WpPool.initWpPool], fun _ _ => trivial⟩, p, 0, _, ?_, hLists, ?_⟩
      · change (p₀.initWpPool.cmdW [] 0).bind some = some p
        rw [hRun, Option.bind_some]
      · exact congrArg (·.2.2.2) hContent
  | succ n ih =>
      obtain ⟨hFollows, p, x, free, hRun, h⟩ := ih (by omega)
      obtain ⟨hTurn, p', y, free', hNext, h'⟩ := h.turn (by omega)
      refine ⟨follows_append.mpr ⟨hFollows, fun q hq => ?_⟩, p', y, free', ?_, h'⟩
      · rw [hRun] at hq
        exact Option.some.inj hq ▸ hTurn
      · rw [churn, execAll_append, hRun]
        exact hNext

/-- The number after the last `int`. -/
theorem churn_overflows (p₀ : WpPool) (n : Nat) (hLast : n + 2 = 2147483648) :
    Follows Permitted p₀.initWpPool (churn n ++ [.w [] 0]) ∧
    ∃ p y, p₀.initWpPool.execAll (churn n ++ [.w [] 0]) = some p ∧
      p.head = some y ∧ (p.wpPool y).cnt.toInt < 0 := by
  obtain ⟨hFollows, p, x, free, hRun, h⟩ := churn_spec p₀ n (by omega)
  obtain ⟨p', y, free', hPermit, hStep, hLists, hCnt, -⟩ := h.push
  refine ⟨follows_append.mpr ⟨hFollows, fun q hq => ?_⟩, p', y, ?_, hLists.linkHead.1, ?_⟩
  · rw [hRun] at hq
    exact Option.some.inj hq ▸ ⟨hPermit, fun _ _ => trivial⟩
  · rw [execAll_append, hRun, Option.bind_some]
    change (p.exec (.w [] 0)).bind some = some p'
    rw [hStep, Option.bind_some]
  · rw [hCnt, hLast]
    decide

/-- The watchpoint after number 2147483647 gets a negative one. -/
theorem watchpoint_number_overflows :
    Follows Permitted zeroPool.initWpPool (churn 2147483646 ++ [.w [] 0]) ∧
    ∃ p n, zeroPool.initWpPool.execAll (churn 2147483646 ++ [.w [] 0]) = some p ∧
      p.head = some n ∧ (p.wpPool n).cnt.toInt < 0 :=
  churn_overflows zeroPool 2147483646 (by decide)

end Riscv32.Sdb
