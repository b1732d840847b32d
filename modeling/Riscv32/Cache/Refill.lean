import Riscv32.Cache.Link
import Riscv32.Clocked.Burst

/-!
# What the cache holds

Over whole runs of the fetch unit with its cache: every valid line holds the
four beats of the last refill of its address, requested after the last flush,
and every response is the requested word of such a refill.

What a line holds is stated by the log of the memory side and not by a copy of
memory: `Refill` names the cycles in which the burst was accepted and completed,
and its words are the beats in between.  So the result holds for memories that
change, and says which value of a changing memory is seen.

`CacheInv` has one case for each state of the cache (`Sending`, `Waiting`,
`Responding`) beside the valid lines; `Refilling` exempts the line that is being
overwritten.  `cacheInv` is the invariant in every cycle, `icache_correct` what it
says on the ports.
-/

namespace Riscv32.Cache

open Riscv32.Rtl
open Riscv32.Fetch
open Riscv32.Clocked

/-! ## Events of a run -/

section Run

variable (s : Frontend) (inp : Nat → FrontendIn)

def frontendAt (t : Nat) : Frontend := run Frontend.step s inp t

/-- The refill request accepted in cycle `t`: its address and `arlen`. -/
def refillAr (t : Nat) : Option (Word × BitVec 8) :=
  if arFire (frontendAt s inp t).icache.axiOut (inp t).axi then
    some ((frontendAt s inp t).icache.araddr, (frontendAt s inp t).icache.arlen)
  else none

/-- The refill beat taken in cycle `t`. -/
def refillBeat (t : Nat) : Option Word :=
  if rFire (frontendAt s inp t).icache.axiOut (inp t).axi then some (inp t).axi.rdata else none

/-- The fetch accepted in cycle `t`. -/
def fetchAr (t : Nat) : Option Word :=
  if arFire ((frontendAt s inp t).ifuAxi (inp t)) (frontendAt s inp t).icache.axiIn then
    some ((frontendAt s inp t).ifuAxi (inp t)).araddr
  else none

/-- The fetch response taken in cycle `t`. -/
def fetchR (t : Nat) : Option Word :=
  if rFire ((frontendAt s inp t).ifuAxi (inp t)) (frontendAt s inp t).icache.axiIn then
    some (frontendAt s inp t).icache.rdata
  else none

def flushAt (t : Nat) : Bool := (frontendAt s inp t).flush

/-- The memory answers an accepted burst with `arlen + 1` beats and flags the
last one. -/
def BurstMemory : Prop :=
  LastOnBeat (refillAr s inp) (fun b => b.2.toNat) (refillBeat s inp)
    fun t => (inp t).axi.rlast

/-! ## Refills -/

/-- A burst for `line` was accepted in cycle `a`; since then no line was
flushed and no other burst was accepted for it. -/
structure Requested (t : Nat) (line : BitVec 28) (a : Nat) : Prop where
  before : a < t
  ar : refillAr s inp a = some (wordAddr line 0, 3)
  fresh : ∀ k, a ≤ k → k < t → flushAt s inp k = false
  newest : ∀ k, a < k → k < t → ∀ n, refillAr s inp k ≠ some (wordAddr line 0, n)

/-- The beats from cycle `a` to cycle `u` are the four words of the line. -/
structure Filled (a u : Nat) (words : BitVec 2 → Word) : Prop where
  length : (logFrom (refillBeat s inp) (a + 1) (u + 1)).length = 4
  beats : ∀ k : BitVec 2, (logFrom (refillBeat s inp) (a + 1) (u + 1))[k.toNat]? = some (words k)
  beat : (refillBeat s inp u).isSome = true
  last : (inp u).axi.rlast = true

/-- `words` are what the last refill of `line` returned; it was requested in
cycle `a`, completed in cycle `u`, and nothing was flushed since. -/
structure Refill (t : Nat) (line : BitVec 28) (words : BitVec 2 → Word) (a u : Nat) : Prop
    extends Requested s inp t line a, Filled s inp a u words where
  order : a < u
  done : u < t

end Run

section Events

variable {s : Frontend} {inp : Nat → FrontendIn} {t : Nat}

theorem Requested.succ {line : BitVec 28} {a : Nat} (h : Requested s inp t line a)
    (hFlush : flushAt s inp t = false)
    (hAr : ∀ n, refillAr s inp t ≠ some (wordAddr line 0, n)) :
    Requested s inp (t + 1) line a where
  before := Nat.lt_succ_of_lt h.before
  ar := h.ar
  fresh := by
    intro k h1 h2
    rcases Nat.lt_succ_iff_lt_or_eq.mp h2 with hk | rfl
    · exact h.fresh k h1 hk
    · exact hFlush
  newest := by
    intro k h1 h2
    rcases Nat.lt_succ_iff_lt_or_eq.mp h2 with hk | rfl
    · exact h.newest k h1 hk
    · exact hAr

theorem Refill.succ {line : BitVec 28} {words : BitVec 2 → Word} {a u : Nat}
    (h : Refill s inp t line words a u) (hFlush : flushAt s inp t = false)
    (hAr : ∀ n, refillAr s inp t ≠ some (wordAddr line 0, n)) :
    Refill s inp (t + 1) line words a u where
  toRequested := h.toRequested.succ hFlush hAr
  toFilled := h.toFilled
  order := h.order
  done := Nat.lt_succ_of_lt h.done

/-! ### Which events a state allows -/

variable (h : Link (frontendAt s inp t))

include h

theorem refillAr_none (hState : (frontendAt s inp t).icache.state ≠ .sendAr) :
    refillAr s inp t = none := by
  have hValid := h.arvalid
  simp [refillAr, arFire, Icache.axiOut, hValid, hState]

omit h in
theorem refillBeat_none (hState : (frontendAt s inp t).icache.state ≠ .waitR) :
    refillBeat s inp t = none := by
  simp [refillBeat, rFire, Icache.axiOut, hState]

omit h in
theorem fetchAr_none (hState : (frontendAt s inp t).icache.state ≠ .idle) :
    fetchAr s inp t = none := by
  simp [fetchAr, arFire, Icache.axiIn, hState]

/-- The address of the request the cache works on does not change. -/
theorem outstandingPc_hold (hState : (frontendAt s inp t).icache.state ≠ .idle) :
    (frontendAt s inp (t + 1)).ifu.outstandingPc = (frontendAt s inp t).ifu.outstandingPc := by
  have hWait := h.wait.mpr hState
  exact outstandingPc_keep (show (frontendAt s inp t).ifu.axiState ≠ .idle by simp [hWait])

end Events

/-! ## The invariant -/

/-- Line `i` is being overwritten. -/
def Refilling (c : Icache) (i : BitVec 2) : Prop :=
  (c.state = .sendAr ∨ c.state = .waitR) ∧ i = indexOf c.refillAddr

/-- The refill request for `pc` is on the port. -/
structure Sending (c : Icache) (pc : Word) : Prop where
  refillAddr : c.refillAddr = wordAddr (lineOf pc) 0
  araddr : c.araddr = wordAddr (lineOf pc) 0
  arlen : c.arlen = 3
  offset : c.reqWordOffset = wordOffsetOf pc
  cnt : c.refillCnt = 0

/-- The refill for `pc` was requested in cycle `a`; the words below
`refillCnt` have arrived and are in the array. -/
structure Waiting (s : Frontend) (inp : Nat → FrontendIn) (t : Nat) (c : Icache) (pc : Word)
    (a : Nat) : Prop extends Requested s inp t (lineOf pc) a where
  refillAddr : c.refillAddr = wordAddr (lineOf pc) c.refillCnt
  offset : c.reqWordOffset = wordOffsetOf pc
  quiet : QuietBetween (refillAr s inp) a t
  length : (logFrom (refillBeat s inp) (a + 1) t).length = c.refillCnt.toNat
  beats : ∀ k : BitVec 2, k.toNat < c.refillCnt.toNat →
    (logFrom (refillBeat s inp) (a + 1) t)[k.toNat]? =
      some (word (c.dataArray (indexOf c.refillAddr)) k)

/-- The response register holds the word at `pc` of a refill. -/
def Responding (s : Frontend) (inp : Nat → FrontendIn) (t : Nat) (pc rdata : Word) : Prop :=
  ∃ words a u, Refill s inp t (lineOf pc) words a u ∧ rdata = words (wordOffsetOf pc)

structure CacheInv (s : Frontend) (inp : Nat → FrontendIn) (t : Nat) : Prop where
  link : Link (frontendAt s inp t)
  lines : ∀ i, (frontendAt s inp t).icache.validArray i = true →
    ¬ Refilling (frontendAt s inp t).icache i →
    ∃ a u, Refill s inp t (lineAt ((frontendAt s inp t).icache.tagArray i) i)
      (word ((frontendAt s inp t).icache.dataArray i)) a u
  asked : (frontendAt s inp t).icache.state ≠ .idle →
    ∃ r, r < t ∧ fetchAr s inp r = some (frontendAt s inp t).ifu.outstandingPc ∧
      QuietBetween (fetchAr s inp) r t
  sending : (frontendAt s inp t).icache.state = .sendAr →
    Sending (frontendAt s inp t).icache (frontendAt s inp t).ifu.outstandingPc
  waiting : (frontendAt s inp t).icache.state = .waitR →
    ∃ a, Waiting s inp t (frontendAt s inp t).icache (frontendAt s inp t).ifu.outstandingPc a
  responding : (frontendAt s inp t).icache.state = .resp →
    Responding s inp t (frontendAt s inp t).ifu.outstandingPc (frontendAt s inp t).icache.rdata

theorem cacheInv_zero {arch : Arch} {s : Frontend} {inp : Nat → FrontendIn}
    (h : s.AfterReset arch) : CacheInv s inp 0 := by
  have hState : (frontendAt s inp 0).icache.state = .idle := h.icache.state
  refine ⟨link_reset h, ?_, ?_, ?_, ?_, ?_⟩
  · intro i hValid
    have hNone : (frontendAt s inp 0).icache.validArray = fun _ => false := h.icache.valid
    simp [hNone] at hValid
  all_goals simp [hState]

section Step

variable {s : Frontend} {inp : Nat → FrontendIn} {t : Nat}

/-- A refill request is for the line being overwritten. -/
theorem refillAr_line (h : CacheInv s inp t) {i : BitVec 2} {tag : BitVec 26}
    (hNot : ¬ Refilling (frontendAt s inp t).icache i) (n : BitVec 8) :
    refillAr s inp t ≠ some (wordAddr (lineAt tag i) 0, n) := by
  intro hAr
  have hState : (frontendAt s inp t).icache.state = .sendAr := by
    by_contra hState
    rw [refillAr_none h.link hState] at hAr
    cases hAr
  have hSend := h.sending hState
  have hAddr : (frontendAt s inp t).icache.araddr = wordAddr (lineAt tag i) 0 := by
    unfold refillAr at hAr
    split at hAr
    · exact (Prod.mk.inj (Option.some.inj hAr)).1
    · cases hAr
  have hLine : lineOf (frontendAt s inp t).ifu.outstandingPc = lineAt tag i :=
    wordAddr_inj (hSend.araddr.symm.trans hAddr)
  refine hNot ⟨.inl hState, ?_⟩
  rw [hSend.refillAddr, indexOf_wordAddr, hLine, index_lineAt]

/-- The lines that stay untouched through the edge. -/
theorem lines_keep (h : CacheInv s inp t) (hFlush : flushAt s inp t = false) {i : BitVec 2}
    (hValid : (frontendAt s inp t).icache.validArray i = true)
    (hNot : ¬ Refilling (frontendAt s inp t).icache i) :
    ∃ a u, Refill s inp (t + 1) (lineAt ((frontendAt s inp t).icache.tagArray i) i)
      (word ((frontendAt s inp t).icache.dataArray i)) a u := by
  obtain ⟨a, u, hRefill⟩ := h.lines i hValid hNot
  exact ⟨a, u, hRefill.succ hFlush (refillAr_line h hNot)⟩

/-- The request of a busy cache stays the last one. -/
theorem asked_keep (h : CacheInv s inp t) (hState : (frontendAt s inp t).icache.state ≠ .idle) :
    ∃ r, r < t + 1 ∧ fetchAr s inp r = some (frontendAt s inp (t + 1)).ifu.outstandingPc ∧
      QuietBetween (fetchAr s inp) r (t + 1) := by
  obtain ⟨r, hr, hAr, hQuiet⟩ := h.asked hState
  refine ⟨r, Nat.lt_succ_of_lt hr, ?_, hQuiet.succ (fetchAr_none hState)⟩
  rw [outstandingPc_hold h.link hState]
  exact hAr

/-- An accepted fetch is the one the cache starts to work on. -/
theorem pc_now (hFire : arFire ((frontendAt s inp t).ifuAxi (inp t))
      (frontendAt s inp t).icache.axiIn = true) :
    (frontendAt s inp (t + 1)).ifu.outstandingPc = ((frontendAt s inp t).ifuAxi (inp t)).araddr ∧
      fetchAr s inp t = some ((frontendAt s inp t).ifuAxi (inp t)).araddr := by
  obtain ⟨hSend, -⟩ := arFire_asking hFire
  refine ⟨?_, by simp [fetchAr, hFire]⟩
  have hMove := axiMove (frontendAt s inp t).ifu ((frontendAt s inp t).ifuIn (inp t))
  change ((frontendAt s inp t).ifu.axiBlock ((frontendAt s inp t).ifuIn (inp t))).outstandingPc =
    (frontendAt s inp t).ifu.outstandingPc
  generalize (frontendAt s inp t).ifu.axiBlock ((frontendAt s inp t).ifuIn (inp t)) = ax at hMove
  cases hMove with
  | start hIdle => simp [hIdle] at hSend
  | rest | ask | asked | answered | await => rfl

/-- And it is the last one asked for. -/
theorem asked_now (hFire : arFire ((frontendAt s inp t).ifuAxi (inp t))
      (frontendAt s inp t).icache.axiIn = true) :
    ∃ r, r < t + 1 ∧ fetchAr s inp r = some (frontendAt s inp (t + 1)).ifu.outstandingPc ∧
      QuietBetween (fetchAr s inp) r (t + 1) := by
  obtain ⟨hPc, hAsked⟩ := pc_now hFire
  rw [hPc]
  exact ⟨t, Nat.lt_succ_self t, hAsked, quietBetween_next _ t⟩

/-- Beats of the open burst: the array holds one more word. -/
private theorem word_filled {c : Icache} {line : BitVec 28} (data : Word) (k : BitVec 2)
    (hAddr : c.refillAddr = wordAddr line c.refillCnt) :
    word (c.filled data (indexOf c.refillAddr)) k =
      if k = c.refillCnt then data else word (c.dataArray (indexOf c.refillAddr)) k := by
  have hOffset : (offsetOf c.refillAddr).toNat * 8 = c.refillCnt.toNat * 32 := by
    rw [hAddr]
    exact offset_wordAddr line c.refillCnt
  simp only [Icache.filled, setAt, if_true, hOffset, word_write]

/-- The array agrees with the beats up to the one of this cycle. -/
private theorem Waiting.beats_next {c : Icache} {pc data : Word} {a : Nat}
    (h : Waiting s inp t c pc a) (hBeat : refillBeat s inp t = some data) {k : BitVec 2}
    (hk : k.toNat ≤ c.refillCnt.toNat) :
    (logFrom (refillBeat s inp) (a + 1) (t + 1))[k.toNat]? =
      some (word (c.filled data (indexOf c.refillAddr)) k) := by
  rw [word_filled _ _ h.refillAddr, logFrom_some h.before hBeat]
  by_cases hEq : k = c.refillCnt
  · rw [if_pos hEq, hEq, ← h.length, List.getElem?_concat_length]
  · have hNe : k.toNat ≠ c.refillCnt.toNat := fun hBad => hEq (BitVec.eq_of_toNat_eq hBad)
    rw [if_neg hEq, List.getElem?_append_left (by rw [h.length]; omega)]
    exact h.beats k (by omega)

/-! ### One lemma for each move -/

private theorem inv_flush (h : CacheInv s inp t) {c : Icache}
    (hFlush : (frontendAt s inp t).flush = true)
    (hc : c = { (frontendAt s inp t).icache with validArray := fun _ => false })
    (hNext : (frontendAt s inp (t + 1)).icache = c) : CacheInv s inp (t + 1) := by
  have hState : (frontendAt s inp (t + 1)).icache.state = .idle := by
    rw [hNext, hc]
    exact (h.link.idle_of_flush hFlush).2
  refine ⟨link_step h.link, ?_, ?_, ?_, ?_, ?_⟩
  · intro i hValid
    simp [hNext, hc] at hValid
  all_goals simp [hState]

private theorem inv_hit (h : CacheInv s inp t) {c : Icache}
    (hFlush : (frontendAt s inp t).flush = false)
    (hIdle : (frontendAt s inp t).icache.state = .idle)
    (hFire : arFire ((frontendAt s inp t).ifuAxi (inp t))
      (frontendAt s inp t).icache.axiIn = true)
    (hHit : (frontendAt s inp t).icache.hit ((frontendAt s inp t).ifuAxi (inp t)).araddr = true)
    (hc : c = { (frontendAt s inp t).icache with
      rdata := ((frontendAt s inp t).icache.dataArray
        (indexOf ((frontendAt s inp t).ifuAxi (inp t)).araddr)).read
          ((offsetOf ((frontendAt s inp t).ifuAxi (inp t)).araddr).toNat * 8)
      rvalid := true, rresp := 0, state := .resp })
    (hNext : (frontendAt s inp (t + 1)).icache = c) : CacheInv s inp (t + 1) := by
  have hState : (frontendAt s inp (t + 1)).icache.state = .resp := by rw [hNext, hc]
  have hNot : ∀ i, ¬ Refilling (frontendAt s inp t).icache i := by simp [Refilling, hIdle]
  have hPc := (pc_now hFire).1
  refine ⟨link_step h.link, ?_, fun _ => asked_now hFire, by simp [hState], by simp [hState], ?_⟩
  · intro i hValid _
    rw [hNext, hc] at hValid ⊢
    exact lines_keep h hFlush hValid (hNot i)
  · intro _
    simp only [Icache.hit, Bool.and_eq_true, beq_iff_eq] at hHit
    obtain ⟨a, u, hRefill⟩ := lines_keep h hFlush hHit.1 (hNot _)
    rw [hHit.2, lineAt_of] at hRefill
    have hAligned := h.link.aligned (by simp [(arFire_asking hFire).1])
    refine ⟨_, a, u, hPc ▸ hRefill, ?_⟩
    rw [hNext, hc, hPc, word]
    exact congrArg (Line.read _) (offset_aligned _ hAligned)

private theorem inv_miss (h : CacheInv s inp t) {c : Icache}
    (hFlush : (frontendAt s inp t).flush = false)
    (hIdle : (frontendAt s inp t).icache.state = .idle)
    (hFire : arFire ((frontendAt s inp t).ifuAxi (inp t))
      (frontendAt s inp t).icache.axiIn = true)
    (hc : c = { (frontendAt s inp t).icache with
      refillCnt := 0
      reqWordOffset := wordOffsetOf ((frontendAt s inp t).ifuAxi (inp t)).araddr
      refillAddr := lineAddrOf ((frontendAt s inp t).ifuAxi (inp t)).araddr
      araddr := lineAddrOf ((frontendAt s inp t).ifuAxi (inp t)).araddr
      arvalid := true, arburst := 0b01#2, arlen := 3, arsize := 0b010#3, state := .sendAr })
    (hNext : (frontendAt s inp (t + 1)).icache = c) : CacheInv s inp (t + 1) := by
  have hState : (frontendAt s inp (t + 1)).icache.state = .sendAr := by rw [hNext, hc]
  have hNot : ∀ i, ¬ Refilling (frontendAt s inp t).icache i := by simp [Refilling, hIdle]
  have hPc := (pc_now hFire).1
  refine ⟨link_step h.link, ?_, fun _ => asked_now hFire, ?_, by simp [hState], by simp [hState]⟩
  · intro i hValid _
    rw [hNext, hc] at hValid ⊢
    exact lines_keep h hFlush hValid (hNot i)
  · intro _
    rw [hNext, hc, hPc]
    exact ⟨lineAddrOf_eq _, lineAddrOf_eq _, rfl, rfl, rfl⟩

private theorem inv_respond (h : CacheInv s inp t) {c : Icache}
    (hFlush : (frontendAt s inp t).flush = false)
    (hResp : (frontendAt s inp t).icache.state = .resp)
    (hc : c = { (frontendAt s inp t).icache with rvalid := false, state := .idle })
    (hNext : (frontendAt s inp (t + 1)).icache = c) : CacheInv s inp (t + 1) := by
  have hState : (frontendAt s inp (t + 1)).icache.state = .idle := by rw [hNext, hc]
  refine ⟨link_step h.link, ?_, ?_, ?_, ?_, ?_⟩
  · intro i hValid _
    rw [hNext, hc] at hValid ⊢
    exact lines_keep h hFlush hValid (by simp [Refilling, hResp])
  all_goals simp [hState]

private theorem inv_sent (h : CacheInv s inp t) {c : Icache}
    (hFlush : (frontendAt s inp t).flush = false)
    (hSend : (frontendAt s inp t).icache.state = .sendAr)
    (hFire : arFire (frontendAt s inp t).icache.axiOut (inp t).axi = true)
    (hc : c = { (frontendAt s inp t).icache with
      arvalid := false, arburst := 0, arlen := 0, arsize := 0, state := .waitR })
    (hNext : (frontendAt s inp (t + 1)).icache = c) : CacheInv s inp (t + 1) := by
  have hState : (frontendAt s inp (t + 1)).icache.state = .waitR := by rw [hNext, hc]
  have hBusy : (frontendAt s inp t).icache.state ≠ .idle := by simp [hSend]
  have hOld := h.sending hSend
  refine ⟨link_step h.link, ?_, fun _ => asked_keep h hBusy, by simp [hState], ?_,
    by simp [hState]⟩
  · intro i hValid hNot
    rw [hNext, hc] at hValid hNot ⊢
    refine lines_keep h hFlush hValid fun hBad => hNot ⟨.inr rfl, hBad.2⟩
  · intro _
    have hAr : refillAr s inp t =
        some (wordAddr (lineOf (frontendAt s inp t).ifu.outstandingPc) 0, 3) := by
      simp only [refillAr, hFire, if_true, hOld.araddr, hOld.arlen]
    refine ⟨t, ⟨⟨Nat.lt_succ_self t, ?_, ?_, ?_⟩, ?_, ?_, quietBetween_next _ t, ?_, ?_⟩⟩
    · rw [outstandingPc_hold h.link hBusy]
      exact hAr
    · intro k h1 h2
      obtain rfl : k = t := by omega
      exact hFlush
    · intro k h1 h2
      omega
    · rw [outstandingPc_hold h.link hBusy, hNext, hc]
      exact hOld.refillAddr.trans (by rw [hOld.cnt])
    · rw [outstandingPc_hold h.link hBusy, hNext, hc]
      exact hOld.offset
    · rw [logFrom_self, hNext, hc]
      exact (congrArg BitVec.toNat hOld.cnt).symm
    · intro k hk
      rw [hNext, hc] at hk
      have hZero : (frontendAt s inp t).icache.refillCnt.toNat = 0 := congrArg BitVec.toNat hOld.cnt
      exact absurd hk (by rw [hZero]; exact Nat.not_lt_zero _)

/-- The open burst has received as many beats as its counter says, so the
memory flags the fourth. -/
private theorem last_iff (hMem : BurstMemory s inp) {c : Icache} {pc : Word} {a : Nat}
    (h : Waiting s inp t c pc a) (hFire : (refillBeat s inp t).isSome = true) :
    (inp t).axi.rlast = true ↔ c.refillCnt.toNat = 3 := by
  have hLast := hMem a t _ h.before h.ar h.quiet hFire
  rw [h.length] at hLast
  exact hLast

/-- Lines other than the one being filled are untouched by a beat. -/
private theorem filled_other {c : Icache} (data : Word) {i : BitVec 2}
    (hi : i ≠ indexOf c.refillAddr) : c.filled data i = c.dataArray i := by
  simp [Icache.filled, setAt, hi]

/-- The cache after a beat that is not the last. -/
private def beaten (c : Icache) (data : Word) : Icache :=
  { c with
    dataArray := c.filled data
    refillAddr := c.refillAddr + 4
    refillCnt := c.refillCnt + 1 }

/-- Before the fourth beat the address stays in the line and the counter counts. -/
private theorem beat_moves {c : Icache} {pc : Word} {a : Nat} (h : Waiting s inp t c pc a)
    (hNot3 : c.refillCnt.toNat ≠ 3) :
    (c.refillCnt + 1).toNat = c.refillCnt.toNat + 1 ∧
      c.refillAddr + 4 = wordAddr (lineOf pc) (c.refillCnt + 1) ∧
      indexOf (c.refillAddr + 4) = indexOf c.refillAddr := by
  have hLt := c.refillCnt.isLt
  have hCnt : (c.refillCnt + 1).toNat = c.refillCnt.toNat + 1 := by
    rw [BitVec.toNat_add]
    exact Nat.mod_eq_of_lt (by simp; omega)
  have hAddr : c.refillAddr + 4 = wordAddr (lineOf pc) (c.refillCnt + 1) := by
    rw [h.refillAddr]
    exact wordAddr_next _ _ (by omega)
  refine ⟨hCnt, hAddr, ?_⟩
  rw [hAddr, h.refillAddr, indexOf_wordAddr, indexOf_wordAddr]

/-- A beat before the fourth is recorded and stored. -/
private theorem Waiting.beat {c : Icache} {pc data : Word} {a : Nat} (h : Waiting s inp t c pc a)
    (hFlush : flushAt s inp t = false) (hArNone : refillAr s inp t = none)
    (hBeat : refillBeat s inp t = some data) (hNot3 : c.refillCnt.toNat ≠ 3) :
    Waiting s inp (t + 1) (beaten c data) pc a := by
  obtain ⟨hCnt, hAddr, hIndex⟩ := beat_moves h hNot3
  refine ⟨h.toRequested.succ hFlush (by simp [hArNone]), hAddr, h.offset, h.quiet.succ hArNone,
    ?_, fun k hk => ?_⟩
  · rw [logFrom_some h.before hBeat, List.length_append, h.length]
    exact hCnt.symm
  · have hLe : k.toNat < (c.refillCnt + 1).toNat := hk
    rw [hCnt] at hLe
    show _ = some (word (c.filled data (indexOf (c.refillAddr + 4))) k)
    rw [hIndex]
    exact h.beats_next hBeat (by omega)

private theorem inv_beat (h : CacheInv s inp t) (hMem : BurstMemory s inp) {c : Icache}
    (hFlush : (frontendAt s inp t).flush = false)
    (hWait : (frontendAt s inp t).icache.state = .waitR)
    (hFire : rFire (frontendAt s inp t).icache.axiOut (inp t).axi = true)
    (hLast : (inp t).axi.rlast = false)
    (hc : c = beaten (frontendAt s inp t).icache (inp t).axi.rdata)
    (hNext : (frontendAt s inp (t + 1)).icache = c) : CacheInv s inp (t + 1) := by
  have hState : (frontendAt s inp (t + 1)).icache.state = .waitR := by rw [hNext, hc]; exact hWait
  have hBusy : (frontendAt s inp t).icache.state ≠ .idle := by simp [hWait]
  obtain ⟨a, hOpen⟩ := h.waiting hWait
  have hBeat : refillBeat s inp t = some (inp t).axi.rdata := by simp [refillBeat, hFire]
  have hNot3 : (frontendAt s inp t).icache.refillCnt.toNat ≠ 3 := fun h3 => by
    rw [(last_iff hMem hOpen (by simp [hBeat])).mpr h3] at hLast
    cases hLast
  refine ⟨link_step h.link, ?_, fun _ => asked_keep h hBusy, by simp [hState], ?_,
    by simp [hState]⟩
  · intro i hValid hNot
    rw [hNext, hc] at hValid hNot ⊢
    have hi : i ≠ indexOf (frontendAt s inp t).icache.refillAddr := fun hBad =>
      hNot ⟨.inr hWait, hBad.trans (beat_moves hOpen hNot3).2.2.symm⟩
    obtain ⟨a, u, hRefill⟩ := lines_keep h hFlush hValid fun hBad => hi hBad.2
    rw [← filled_other (inp t).axi.rdata hi] at hRefill
    exact ⟨a, u, hRefill⟩
  · intro _
    rw [outstandingPc_hold h.link hBusy, hNext, hc]
    exact ⟨a, hOpen.beat hFlush (refillAr_none h.link (by simp [hWait])) hBeat hNot3⟩

/-- The words of the line once the last beat is in. -/
private theorem refill_last (h : CacheInv s inp t) (hMem : BurstMemory s inp)
    (hFlush : (frontendAt s inp t).flush = false)
    (hWait : (frontendAt s inp t).icache.state = .waitR)
    (hFire : rFire (frontendAt s inp t).icache.axiOut (inp t).axi = true)
    (hLast : (inp t).axi.rlast = true) :
    ∃ a, Refill s inp (t + 1) (lineOf (frontendAt s inp t).ifu.outstandingPc)
      (word ((frontendAt s inp t).icache.filled (inp t).axi.rdata
        (indexOf (frontendAt s inp t).icache.refillAddr))) a t := by
  obtain ⟨a, hOpen⟩ := h.waiting hWait
  have hBeat : refillBeat s inp t = some (inp t).axi.rdata := by simp [refillBeat, hFire]
  have hCnt : (frontendAt s inp t).icache.refillCnt.toNat = 3 :=
    (last_iff hMem hOpen (by simp [hBeat])).mp hLast
  have hArNone : refillAr s inp t = none := refillAr_none h.link (by simp [hWait])
  refine ⟨a, ⟨hOpen.toRequested.succ hFlush (by simp [hArNone]), ⟨?_, ?_, by simp [hBeat], hLast⟩,
    hOpen.before, Nat.lt_succ_self t⟩⟩
  · rw [logFrom_some hOpen.before hBeat, List.length_append, hOpen.length, hCnt]
    rfl
  · intro k
    have hk := k.isLt
    exact hOpen.beats_next hBeat (by omega)

private theorem inv_last (h : CacheInv s inp t) (hMem : BurstMemory s inp) {c : Icache}
    (hFlush : (frontendAt s inp t).flush = false)
    (hWait : (frontendAt s inp t).icache.state = .waitR)
    (hFire : rFire (frontendAt s inp t).icache.axiOut (inp t).axi = true)
    (hLast : (inp t).axi.rlast = true)
    (hc : c = { (frontendAt s inp t).icache with
      dataArray := (frontendAt s inp t).icache.filled (inp t).axi.rdata
      validArray := setAt (frontendAt s inp t).icache.validArray
        (indexOf (frontendAt s inp t).icache.refillAddr) true
      tagArray := setAt (frontendAt s inp t).icache.tagArray
        (indexOf (frontendAt s inp t).icache.refillAddr)
        (tagOf (frontendAt s inp t).icache.refillAddr)
      rdata :=
        if (frontendAt s inp t).icache.reqWordOffset = (frontendAt s inp t).icache.refillCnt then
          (inp t).axi.rdata
        else ((frontendAt s inp t).icache.dataArray
          (indexOf (frontendAt s inp t).icache.refillAddr)).read
            ((frontendAt s inp t).icache.reqWordOffset.toNat * 32)
      rvalid := true, rresp := 0, state := .resp })
    (hNext : (frontendAt s inp (t + 1)).icache = c) : CacheInv s inp (t + 1) := by
  have hState : (frontendAt s inp (t + 1)).icache.state = .resp := by rw [hNext, hc]
  have hBusy : (frontendAt s inp t).icache.state ≠ .idle := by simp [hWait]
  obtain ⟨b, hOpen⟩ := h.waiting hWait
  obtain ⟨a, hRefill⟩ := refill_last h hMem hFlush hWait hFire hLast
  refine ⟨link_step h.link, ?_, fun _ => asked_keep h hBusy, by simp [hState], by simp [hState],
    ?_⟩
  · intro i hValid _
    rw [hNext, hc] at hValid ⊢
    by_cases hi : i = indexOf (frontendAt s inp t).icache.refillAddr
    · refine ⟨a, t, ?_⟩
      have hLine : lineAt (tagOf (frontendAt s inp t).icache.refillAddr)
          (indexOf (frontendAt s inp t).icache.refillAddr) =
          lineOf (frontendAt s inp t).ifu.outstandingPc := by
        rw [lineAt_of, hOpen.refillAddr, lineOf_wordAddr]
      simp only [setAt, hi, if_true, hLine]
      exact hRefill
    · simp only [setAt, if_neg hi] at hValid ⊢
      obtain ⟨a, u, hOld⟩ := lines_keep h hFlush hValid fun hBad => hi hBad.2
      rw [← filled_other (inp t).axi.rdata hi] at hOld
      exact ⟨a, u, hOld⟩
  · intro _
    refine ⟨_, a, t, outstandingPc_hold h.link hBusy ▸ hRefill, ?_⟩
    rw [outstandingPc_hold h.link hBusy, hNext, hc, word_filled _ _ hOpen.refillAddr,
      ← hOpen.offset]
    rfl

private theorem inv_keep (h : CacheInv s inp t)
    (hFlush : (frontendAt s inp t).flush = false)
    (hSend : (frontendAt s inp t).icache.state = .sendAr →
      arFire (frontendAt s inp t).icache.axiOut (inp t).axi = false)
    (hWait : (frontendAt s inp t).icache.state = .waitR →
      rFire (frontendAt s inp t).icache.axiOut (inp t).axi = false)
    (hNext : (frontendAt s inp (t + 1)).icache = (frontendAt s inp t).icache) :
    CacheInv s inp (t + 1) := by
  have hAr : refillAr s inp t = none := by
    by_cases hState : (frontendAt s inp t).icache.state = .sendAr
    · simp [refillAr, hSend hState]
    · exact refillAr_none h.link hState
  have hBeat : refillBeat s inp t = none := by
    by_cases hState : (frontendAt s inp t).icache.state = .waitR
    · simp [refillBeat, hWait hState]
    · exact refillBeat_none hState
  refine ⟨link_step h.link, ?_, ?_, ?_, ?_, ?_⟩ <;> rw [hNext]
  · intro i hValid hNot
    exact lines_keep h hFlush hValid hNot
  · exact fun hState => asked_keep h hState
  · intro hState
    rw [outstandingPc_hold h.link (by simp [hState])]
    exact h.sending hState
  · intro hState
    obtain ⟨a, hOpen⟩ := h.waiting hState
    rw [outstandingPc_hold h.link (by simp [hState])]
    refine ⟨a, ⟨hOpen.toRequested.succ hFlush (by simp [hAr]), hOpen.refillAddr, hOpen.offset,
      hOpen.quiet.succ hAr, ?_, ?_⟩⟩
    · rw [logFrom_none hOpen.before hBeat]
      exact hOpen.length
    · rw [logFrom_none hOpen.before hBeat]
      exact hOpen.beats
  · intro hState
    obtain ⟨words, a, u, hRefill, hData⟩ := h.responding hState
    rw [outstandingPc_hold h.link (by simp [hState])]
    exact ⟨words, a, u, hRefill.succ hFlush (by simp [hAr]), hData⟩

theorem cacheInv_succ (h : CacheInv s inp t) (hMem : BurstMemory s inp) :
    CacheInv s inp (t + 1) := by
  have hMove := cacheMove (frontendAt s inp t).icache (frontendAt s inp t).flush
    ((frontendAt s inp t).ifuAxi (inp t)) (inp t).axi
  have hNext : (frontendAt s inp (t + 1)).icache =
      (frontendAt s inp t).icache.step (frontendAt s inp t).flush
        ((frontendAt s inp t).ifuAxi (inp t)) (inp t).axi := rfl
  generalize (frontendAt s inp t).icache.step (frontendAt s inp t).flush
    ((frontendAt s inp t).ifuAxi (inp t)) (inp t).axi = c at hMove hNext
  cases hMove with
  | flush hFlush => exact inv_flush h hFlush rfl hNext
  | hit hFlush hIdle hFire hHit => exact inv_hit h hFlush hIdle hFire hHit rfl hNext
  | miss hFlush hIdle hFire => exact inv_miss h hFlush hIdle hFire rfl hNext
  | respond hFlush hResp => exact inv_respond h hFlush hResp rfl hNext
  | sent hFlush hSend hFire => exact inv_sent h hFlush hSend hFire rfl hNext
  | beat hFlush hWait hFire hLast => exact inv_beat h hMem hFlush hWait hFire hLast rfl hNext
  | last hFlush hWait hFire hLast => exact inv_last h hMem hFlush hWait hFire hLast rfl hNext
  | keep hFlush _ _ hSend hWait => exact inv_keep h hFlush hSend hWait hNext

/-- The invariant holds in every cycle. -/
theorem cacheInv {arch : Arch} (hReset : s.AfterReset arch) (hMem : BurstMemory s inp) (t : Nat) :
    CacheInv s inp t := by
  induction t with
  | zero => exact cacheInv_zero hReset
  | succ t ih => exact cacheInv_succ ih hMem

end Step

/-! ## Correctness -/

/-- **The cache is correct behind the fetch unit.**  In every cycle of every
run: an idle cache holds in each valid line the last refill of that line's
address, requested after the last flush; a response carries the requested word
of such a refill; and a flush meets an idle cache that takes no request. -/
theorem icache_correct {arch : Arch} {s : Frontend} {inp : Nat → FrontendIn}
    (hReset : s.AfterReset arch) (hMem : BurstMemory s inp) (t : Nat) :
    ((frontendAt s inp t).icache.state = .idle →
      ∀ i, (frontendAt s inp t).icache.validArray i = true →
        ∃ a u, Refill s inp t (lineAt ((frontendAt s inp t).icache.tagArray i) i)
          (word ((frontendAt s inp t).icache.dataArray i)) a u) ∧
      ((frontendAt s inp t).icache.axiIn.rvalid = true →
        ∃ pc r, r < t ∧ fetchAr s inp r = some pc ∧ QuietBetween (fetchAr s inp) r t ∧
          ∃ words a u, Refill s inp t (lineOf pc) words a u ∧
            (frontendAt s inp t).icache.axiIn.rdata = words (wordOffsetOf pc)) ∧
      (flushAt s inp t = true →
        (frontendAt s inp t).icache.state = .idle ∧ fetchAr s inp t = none ∧
          refillAr s inp t = none ∧ refillBeat s inp t = none ∧ fetchR s inp t = none) := by
  have h : CacheInv s inp t := cacheInv hReset hMem t
  refine ⟨?_, ?_, ?_⟩
  · intro hIdle i hValid
    exact h.lines i hValid (by simp [Refilling, hIdle])
  · intro hValid
    have hState : (frontendAt s inp t).icache.state = .resp := by
      have hReg : (frontendAt s inp t).icache.rvalid = true := hValid
      rw [h.link.rvalid] at hReg
      simpa using hReg
    obtain ⟨r, hr, hAr, hQuiet⟩ := h.asked (by simp [hState])
    exact ⟨_, r, hr, hAr, hQuiet, h.responding hState⟩
  · intro hFlush
    obtain ⟨hAxi, hState⟩ := h.link.idle_of_flush hFlush
    refine ⟨hState, ?_, refillAr_none h.link (by simp [hState]),
      refillBeat_none (by simp [hState]), ?_⟩
    · simp [fetchAr, arFire, Frontend.ifuAxi, Ifu.axi, hAxi]
    · simp [fetchR, rFire, Frontend.ifuAxi, Ifu.axi, hAxi]

def sampleFrontend : Frontend := ⟨Ifu.reset .ysyxsoc, (default : Icache).reset⟩

/-- A memory that answers one burst at once: the request is accepted in cycle
2 and the beats come in cycles 3 to 6. -/
def sampleMemory (t : Nat) : FrontendIn where
  inFenceiDone := false
  inRedirectPc := 0
  inRedirectFire := false
  inReady := true
  axi :=
    if t < 8 then
      { arready := true, rvalid := true, rdata := BitVec.ofNat 32 t, rlast := t == 6 }
    else {}

private theorem sampleMemory_burst : BurstMemory sampleFrontend sampleMemory := by
  refine lastOnBeat_of_test (n := 8) (by decide +kernel) fun t ht => ?_
  simp [refillBeat, rFire, sampleMemory, show ¬ t < 8 by omega]

/-- In cycle 8 the line of the reset address is valid and the cache idle. -/
theorem icache_correct_sample :
    (frontendAt sampleFrontend sampleMemory 8).icache.validArray 0 = true ∧
      ∃ a u, Refill sampleFrontend sampleMemory 8
        (lineAt ((frontendAt sampleFrontend sampleMemory 8).icache.tagArray 0) 0)
        (word ((frontendAt sampleFrontend sampleMemory 8).icache.dataArray 0)) a u :=
  have hValid : (frontendAt sampleFrontend sampleMemory 8).icache.validArray 0 = true := by decide
  ⟨hValid, (@icache_correct .ysyxsoc _ _ ⟨rfl, Icache.reset_afterReset _⟩
    sampleMemory_burst 8).1 (by decide) 0 hValid⟩

end Riscv32.Cache
