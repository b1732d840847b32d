import Riscv32.Cache.Refill

/-!
# Words fetched after a flush

A `fence.i` reported to the fetch unit in cycle `c` makes it wait, flush the
cache, and only then fetch again.  From then on every fetched word the unit
offers was asked for after the flush and comes from a refill requested after
the flush, whatever the slot, the read channel and the cache held in cycle `c`.

`AfterFence` says where the unit is on this way, `FetchedSince` what a word in the
slot carries with it afterwards: the cycles of its request, of the refill and of
its completion, all behind the flush.

`fetched_since_flush` is the result, by induction on the cycle with
`afterFence_step`; the cache's own correctness enters through
`fetchedSince_of_response`.
-/

namespace Riscv32.Cache

open Riscv32.Rtl
open Riscv32.Fetch
open Riscv32.Clocked

/-- The word `inst` at `pc`, fetched between the flush of cycle `f` and cycle
`t`: asked for in cycle `r`, out of a refill requested in cycle `a` and
complete in cycle `u`. -/
structure FetchedSince (s : Frontend) (inp : Nat → FrontendIn) (f t : Nat) (pc inst : Word)
    (r a u : Nat) (words : BitVec 2 → Word) : Prop where
  fetchAfter : f < r
  fetchBefore : r < t
  fetch : fetchAr s inp r = some pc
  requestAfter : f < a
  request : refillAr s inp a = some (wordAddr (lineOf pc) 0, 3)
  order : a < u
  doneBefore : u < t
  filled : Filled s inp a u words
  word : inst = words (wordOffsetOf pc)

theorem FetchedSince.succ {s : Frontend} {inp : Nat → FrontendIn} {f t : Nat} {pc inst : Word}
    {r a u : Nat} {words : BitVec 2 → Word} (h : FetchedSince s inp f t pc inst r a u words) :
    FetchedSince s inp f (t + 1) pc inst r a u words :=
  { h with
    fetchBefore := Nat.lt_succ_of_lt h.fetchBefore
    doneBefore := Nat.lt_succ_of_lt h.doneBefore }

/-- A fetched word in the slot arrived in this cycle or was there before. -/
theorem slot_origin {s : Ifu} {i : IfuIn} (hValid : (s.slotBlock i).ifuState = .valid)
    (hExc : (s.slotBlock i).outExceptionValid = false) :
    (s.ifuRFire i = true ∧ s.fenceiState = .idle ∧ (s.slotBlock i).outPc = s.outstandingPc ∧
        (s.slotBlock i).outInst = i.axi.rdata) ∨
      (s.ifuState = .valid ∧ s.outExceptionValid = false ∧ (s.slotBlock i).outPc = s.outPc ∧
        (s.slotBlock i).outInst = s.outInst) := by
  have hMove := slotMove s i
  generalize s.slotBlock i = sl at hMove hValid hExc
  cases hMove with
  | redirect | fence | handOver => cases hValid
  | raise => cases hExc
  | accept _ _ _ _ hFire _ hIdle => exact .inl ⟨hFire, hIdle, rfl, rfl⟩
  | keep => exact .inr ⟨hValid, hExc, rfl, rfl⟩

section Run

variable {arch : Arch} {s : Frontend} {inp : Nat → FrontendIn} {c f t : Nat}

/-- A cache that is asked nothing stays idle. -/
theorem idle_of_quiet (hIdle : (frontendAt s inp f).icache.state = .idle) (hf : f ≤ t)
    (hQuiet : ∀ k, f ≤ k → k < t → fetchAr s inp k = none) :
    (frontendAt s inp t).icache.state = .idle := by
  induction t, hf using Nat.le_induction with
  | base => exact hIdle
  | succ t ht ih =>
      have hOld := ih fun k h1 h2 => hQuiet k h1 (Nat.lt_succ_of_lt h2)
      have hNone : arFire ((frontendAt s inp t).ifuAxi (inp t))
          (frontendAt s inp t).icache.axiIn = false := by
        have hNone := hQuiet t ht (Nat.lt_succ_self t)
        unfold fetchAr at hNone
        split at hNone
        · cases hNone
        · rename_i hNot
          simpa using hNot
      have hMove := cacheMove (frontendAt s inp t).icache (frontendAt s inp t).flush
        ((frontendAt s inp t).ifuAxi (inp t)) (inp t).axi
      change ((frontendAt s inp t).icache.step (frontendAt s inp t).flush
        ((frontendAt s inp t).ifuAxi (inp t)) (inp t).axi).state = .idle
      generalize (frontendAt s inp t).icache.step (frontendAt s inp t).flush
        ((frontendAt s inp t).ifuAxi (inp t)) (inp t).axi = next at hMove
      cases hMove <;> simp_all

/-- A response taken after a flush was asked for and refilled after it. -/
theorem fetchedSince_of_response (hReset : s.AfterReset arch) (hMem : BurstMemory s inp)
    (hFlush : flushAt s inp f = true) (hf : f < t)
    (hFire : (frontendAt s inp t).ifu.ifuRFire ((frontendAt s inp t).ifuIn (inp t)) = true) :
    ∃ r a u words, FetchedSince s inp f (t + 1) (frontendAt s inp t).ifu.outstandingPc
      (frontendAt s inp t).icache.rdata r a u words := by
  have h : CacheInv s inp t := cacheInv hReset hMem t
  have hLink : Link (frontendAt s inp f) := (cacheInv hReset hMem f).link
  obtain ⟨hAxi, hIdle⟩ := hLink.idle_of_flush hFlush
  have hState := (h.link.rFire_responding hFire).2
  obtain ⟨r, hr, hAr, hQuiet⟩ := h.asked (by simp [hState])
  obtain ⟨words, a, u, hRefill, hData⟩ := h.responding hState
  -- the cache was idle at the flush, so the request it answers came later
  have hAfter : f < r := by
    have hNoAr : fetchAr s inp f = none := by
      simp [fetchAr, arFire, Frontend.ifuAxi, Ifu.axi, hAxi]
    by_contra hNot
    have hStill := idle_of_quiet hIdle (Nat.le_of_lt hf) fun k h1 h2 => by
      rcases Nat.lt_or_ge r k with hk | hk
      · exact hQuiet k hk h2
      · obtain rfl : k = f := by omega
        exact hNoAr
    rw [hState] at hStill
    cases hStill
  have hFresh : f < a := by
    by_contra hNot
    have hNone := hRefill.fresh f (by omega) hf
    rw [hFlush] at hNone
    cases hNone
  exact ⟨r, a, u, words, hAfter, Nat.lt_succ_of_lt hr, hAr, hFresh, hRefill.ar, hRefill.order,
    Nat.lt_succ_of_lt hRefill.done, hRefill.toFilled, hData⟩

/-- Where the fetch unit is after a `fence.i` was reported in cycle `c`. -/
inductive AfterFence (s : Frontend) (inp : Nat → FrontendIn) (c t : Nat) : Prop
  /-- The flush is still to come; the slot takes no fetched word. -/
  | waiting (hState : (frontendAt s inp t).ifu.fenceiState ≠ .idle)
      (hSlot : (frontendAt s inp t).ifu.ifuState = .valid →
        (frontendAt s inp t).ifu.outExceptionValid = true)
  /-- The cache was flushed in cycle `f`. -/
  | flushed (f : Nat) (hAfter : c < f) (hBefore : f < t) (hFlush : flushAt s inp f = true)
      (hSlot : (frontendAt s inp t).ifu.ifuState = .valid →
        (frontendAt s inp t).ifu.outExceptionValid = false →
        ∃ r a u words, FetchedSince s inp f t (frontendAt s inp t).ifu.outPc
          (frontendAt s inp t).ifu.outInst r a u words)

theorem afterFence_first (hDone : (inp c).inFenceiDone = true)
    (hIdle : (frontendAt s inp c).ifu.fenceiState = .idle) : AfterFence s inp c (c + 1) := by
  have hIn : ((frontendAt s inp c).ifuIn (inp c)).inFenceiDone = true := hDone
  refine .waiting ?_ ?_
  · change ((frontendAt s inp c).ifu.fenceiBlock
      ((frontendAt s inp c).ifuIn (inp c))).fenceiState ≠ .idle
    simp [Ifu.fenceiBlock, hIdle, hIn]
  · have hMove := slotMove (frontendAt s inp c).ifu ((frontendAt s inp c).ifuIn (inp c))
    change ((frontendAt s inp c).ifu.slotBlock
      ((frontendAt s inp c).ifuIn (inp c))).ifuState = .valid → _
    generalize (frontendAt s inp c).ifu.slotBlock
      ((frontendAt s inp c).ifuIn (inp c)) = sl at hMove
    cases hMove with
    | redirect | fence => intro hBad; cases hBad
    | raise _ hNot | accept _ hNot | handOver _ hNot | keep _ hNot =>
        rw [hIn] at hNot
        cases hNot

theorem afterFence_step (hReset : s.AfterReset arch) (hMem : BurstMemory s inp)
    (hc : c < t) (h : AfterFence s inp c t) : AfterFence s inp c (t + 1) := by
  have hNext : (frontendAt s inp (t + 1)).ifu.toIfuSlot =
      (frontendAt s inp t).ifu.slotBlock ((frontendAt s inp t).ifuIn (inp t)) := rfl
  have hOrigin := @slot_origin (frontendAt s inp t).ifu ((frontendAt s inp t).ifuIn (inp t))
  rw [← hNext] at hOrigin
  cases h with
  | waiting hState hSlot =>
      have hSlot' : (frontendAt s inp (t + 1)).ifu.ifuState = .valid →
          (frontendAt s inp (t + 1)).ifu.outExceptionValid = true := by
        intro hValid
        by_contra hExc
        rcases hOrigin hValid (by simpa using hExc) with ⟨-, hIdle, -⟩ | ⟨hOld, hNone, -⟩
        · exact hState hIdle
        · rw [hSlot hOld] at hNone
          cases hNone
      cases hFence : (frontendAt s inp t).ifu.fenceiState with
      | idle => exact absurd hFence hState
      | wait =>
          refine .waiting ?_ hSlot'
          change ((frontendAt s inp t).ifu.fenceiBlock _).fenceiState ≠ .idle
          simp only [Ifu.fenceiBlock, hFence]
          split <;> simp
      | busy =>
          have hFlush : flushAt s inp t = true := by
            have hLink : Link (frontendAt s inp t) := (cacheInv hReset hMem t).link
            rw [flushAt, Frontend.flush, hLink.flush, hFence]
            rfl
          refine .flushed t hc (Nat.lt_succ_self t) hFlush fun hValid hExc => ?_
          rw [hSlot' hValid] at hExc
          cases hExc
  | flushed f hAfter hBefore hFlush hSlot =>
      refine .flushed f hAfter (Nat.lt_succ_of_lt hBefore) hFlush fun hValid hExc => ?_
      rcases hOrigin hValid hExc with ⟨hFire, -, hPc, hInst⟩ | ⟨hOld, hNone, hPc, hInst⟩
      · rw [hPc, hInst]
        exact fetchedSince_of_response hReset hMem hFlush hBefore hFire
      · obtain ⟨r, a, u, words, hFetched⟩ := hSlot hOld hNone
        rw [hPc, hInst]
        exact ⟨r, a, u, words, hFetched.succ⟩

theorem afterFence (hReset : s.AfterReset arch) (hMem : BurstMemory s inp)
    (hDone : (inp c).inFenceiDone = true)
    (hIdle : (frontendAt s inp c).ifu.fenceiState = .idle) (ht : c < t) :
    AfterFence s inp c t := by
  induction t, ht using Nat.le_induction with
  | base => exact afterFence_first hDone hIdle
  | succ t ht ih => exact afterFence_step hReset hMem ht ih

/-- **Nothing survives the flush.**  After a `fence.i` reported in cycle `c`,
every fetched word in the slot was fetched and refilled after a later flush. -/
theorem fetched_since_flush (hReset : s.AfterReset arch) (hMem : BurstMemory s inp)
    (hDone : (inp c).inFenceiDone = true)
    (hIdle : (frontendAt s inp c).ifu.fenceiState = .idle) (ht : c < t)
    (hValid : (frontendAt s inp t).ifu.ifuState = .valid)
    (hExc : (frontendAt s inp t).ifu.outExceptionValid = false) :
    ∃ f, c < f ∧ flushAt s inp f = true ∧
      ∃ r a u words, FetchedSince s inp f t (frontendAt s inp t).ifu.outPc
        (frontendAt s inp t).ifu.outInst r a u words := by
  have hPhase := afterFence hReset hMem hDone hIdle ht
  cases hPhase with
  | waiting _ hSlot =>
      rw [hSlot hValid] at hExc
      cases hExc
  | flushed f hAfter _ hFlush hSlot => exact ⟨f, hAfter, hFlush, hSlot hValid hExc⟩

end Run

end Riscv32.Cache
