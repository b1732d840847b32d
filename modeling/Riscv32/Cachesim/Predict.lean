import Riscv32.Cachesim.Model
import Riscv32.Cache.Link
import Riscv32.Clocked.Burst

/-!
# The simulator predicts the hardware

Both `ICACHE.sv` and `cachesim.cpp` with as many sets as lines are a
direct-mapped table of tags.  The simulator updates the table in the turn that
misses; the hardware does so with the last beat of the refill, several cycles
later, and accepts nothing in between.

`direct` is that table, one access at a time.  The simulator computes it whatever
`rand` returns (`hits_direct`), because a set has one way only.  On the hardware
side `Shows` counts a line under refill as resident, which is what makes every
accepted address one access of the table (`shows_access`) and every other cycle
none (`shows_quiet`).

`cachesim_predicts` compares the hit flags and the counters of both.
-/

namespace Riscv32.Cachesim

open Riscv32.Rtl
open Riscv32.Clocked
open Riscv32.Cache

/-! ## A direct-mapped table -/

section Direct

variable {ι τ : Type} [DecidableEq ι] [DecidableEq τ]

/-- One access: the tag asked for is there afterwards. -/
def direct (m : ι → Option τ) (k : ι × τ) : (ι → Option τ) × Bool :=
  (Function.update m k.1 (some k.2), m k.1 == some k.2)

theorem direct_hit {m : ι → Option τ} {k : ι × τ} (h : m k.1 = some k.2) :
    direct m k = (m, true) := by
  simp [direct, ← h]

theorem direct_miss {m : ι → Option τ} {k : ι × τ} (h : m k.1 ≠ some k.2) :
    direct m k = (Function.update m k.1 (some k.2), false) := by
  simpa [direct] using h

end Direct

/-- Index and tag of an address. -/
def split (addr : Word) : BitVec 2 × BitVec 26 := (indexOf addr, tagOf addr)

/-! ## The simulator -/

/-- Lines of sixteen bytes in four sets of one way. -/
def icacheWidths : Widths := ⟨4, 2, 2⟩

section Simulator

variable (rand : Nat → Nat)

theorem findSet_eq (addr : Word) : (icacheWidths.findSet addr).toNat = (indexOf addr).toNat := by
  have hMask : (1#32 <<< 2 - 1).toNat = 2 ^ 2 - 1 := rfl
  simp only [Widths.findSet, icacheWidths, indexOf, BitVec.toNat_and, hMask,
    BitVec.toNat_ushiftRight, Nat.and_two_pow_sub_one_eq_mod, BitVec.extractLsb'_toNat]

theorem findTag_eq (addr : Word) : icacheWidths.findTag addr = (tagOf addr).setWidth 32 := by
  apply BitVec.eq_of_toNat_eq
  have h := addr.isLt
  simp only [Widths.findTag, icacheWidths, tagOf, BitVec.toNat_ushiftRight,
    BitVec.toNat_setWidth, BitVec.extractLsb'_toNat, Nat.shiftRight_eq_div_pow]
  omega

/-- The table the simulator keeps in its only way. -/
structure Holds (s : Sim) (m : BitVec 2 → Option (BitVec 26)) : Prop where
  valid : ∀ i tag, m i = some tag → s.valids i.toNat 0 ≠ 0#32 ∧
    s.tags i.toNat 0 = tag.setWidth 32
  empty : ∀ i, m i = none → s.valids i.toNat 0 = 0#32

theorem setWidth_tag_inj {a b : BitVec 26} (h : a.setWidth 32 = b.setWidth 32) : a = b := by
  have hNat := congrArg BitVec.toNat h
  have ha := a.isLt
  have hb := b.isLt
  rw [BitVec.toNat_setWidth, BitVec.toNat_setWidth] at hNat
  exact BitVec.eq_of_toNat_eq (by omega)

/-- The search looks at one way. -/
theorem find_eq {s : Sim} {m : BitVec 2 → Option (BitVec 26)} (h : Holds s m)
    (i : BitVec 2) (tag : BitVec 26) :
    s.find icacheWidths i.toNat (tag.setWidth 32) = (m i == some tag) := by
  have hFind : s.find icacheWidths i.toNat (tag.setWidth 32) =
      (s.valids i.toNat 0 != 0 && s.tags i.toNat 0 == tag.setWidth 32) := by
    simp [Sim.find, icacheWidths, Widths.numWays, Widths.wayWidth]
  rw [hFind]
  cases hm : m i with
  | none => simp [h.empty i hm]
  | some old =>
      obtain ⟨hValid, hTag⟩ := h.valid i old hm
      have hEq : (old.setWidth 32 == tag.setWidth 32 : Bool) = (old == tag) := by
        rw [Bool.eq_iff_iff, beq_iff_eq, beq_iff_eq]
        exact ⟨setWidth_tag_inj, congrArg _⟩
      simp [hValid, hTag, hEq]

/-- The placement fills the only way, whatever `rand` returns. -/
theorem place_eq (s : Sim) (set : Nat) (tag : Word) :
    ∃ n, s.place icacheWidths rand set tag icacheWidths.numWays =
      { s with randCalls := n }.put set 0 tag := by
  by_cases hFree : s.valids set 0 = 0#32
  · exact ⟨s.randCalls, by
      simp [Sim.place, icacheWidths, Widths.numWays, Widths.wayWidth, hFree]⟩
  · exact ⟨s.randCalls + 1, by
      simp [Sim.place, icacheWidths, Widths.numWays, Widths.wayWidth, hFree, Nat.mod_one]⟩

theorem holds_put {s : Sim} {m : BitVec 2 → Option (BitVec 26)} (h : Holds s m)
    (i : BitVec 2) (tag : BitVec 26) :
    Holds (s.put i.toNat 0 (tag.setWidth 32)) (Function.update m i (some tag)) := by
  constructor
  · intro j t hj
    by_cases hIj : j = i
    · subst hIj
      have hTag : tag = t := by simpa using hj
      simp [Sim.put, hTag]
    · have hNe : j.toNat ≠ i.toNat := fun hBad => hIj (BitVec.eq_of_toNat_eq hBad)
      rw [Function.update_of_ne hIj] at hj
      simpa [Sim.put, Function.update_of_ne hNe] using h.valid j t hj
  · intro j hj
    have hIj : j ≠ i := by
      rintro rfl
      simp at hj
    have hNe : j.toNat ≠ i.toNat := fun hBad => hIj (BitVec.eq_of_toNat_eq hBad)
    rw [Function.update_of_ne hIj] at hj
    simpa [Sim.put, Function.update_of_ne hNe] using h.empty j hj

/-- The counters do not matter for what is held. -/
theorem Holds.congr {s s' : Sim} {m : BitVec 2 → Option (BitVec 26)} (h : Holds s m)
    (hValids : s'.valids = s.valids) (hTags : s'.tags = s.tags) : Holds s' m :=
  ⟨by rw [hValids, hTags]; exact h.valid, by rw [hValids]; exact h.empty⟩

/-- One turn of the main loop is one access of the table. -/
theorem access_direct {s : Sim} {m : BitVec 2 → Option (BitVec 26)} (h : Holds s m) (pc : Word) :
    Holds (s.access icacheWidths rand pc).1 (direct m (split pc)).1 ∧
      (s.access icacheWidths rand pc).2 = (direct m (split pc)).2 := by
  have hCount : Holds { s with cacheAccessCount := s.cacheAccessCount + 1 } m := h.congr rfl rfl
  have hFind := find_eq hCount (indexOf pc) (tagOf pc)
  simp only [Sim.access, findSet_eq, findTag_eq, hFind]
  by_cases hHit : m (indexOf pc) = some (tagOf pc)
  · rw [direct_hit hHit, if_pos (by simpa using hHit)]
    exact ⟨h.congr rfl rfl, rfl⟩
  · rw [direct_miss hHit, if_neg (by simpa using hHit)]
    obtain ⟨n, hPlace⟩ := place_eq rand
      { s with cacheAccessCount := s.cacheAccessCount + 1 } (indexOf pc).toNat
      ((tagOf pc).setWidth 32)
    rw [hPlace]
    exact ⟨(holds_put (h.congr rfl rfl) _ _).congr rfl rfl, rfl⟩

theorem holds_init : Holds Sim.init fun _ => none := ⟨by simp, fun _ _ => rfl⟩

/-- The simulator reports what the table reports. -/
theorem hits_direct (trace : List Word) :
    Sim.hits icacheWidths rand trace =
      feedOuts (fun m pc => direct m (split pc)) (fun _ => none) trace := by
  have h := feedOuts_simulate (f := fun m pc => direct m (split pc)) Holds id
    (fun s m pc h => access_direct rand h pc) _ _ holds_init trace
  rwa [List.map_id] at h

end Simulator

/-! ## The hardware -/

/-- What both sides of the cache drive in a cycle. -/
structure IcacheInput where
  req : AxiReq
  resp : AxiResp
deriving DecidableEq, Repr, Inhabited

section Hardware

variable (s : Icache) (inp : Nat → IcacheInput)

/-- The cache at the start of cycle `t`; nothing is flushed. -/
def icacheAt (t : Nat) : Icache := run (fun c i => c.step false i.req i.resp) s inp t

/-- The address accepted on `axi_in` in cycle `t`, and whether it hits. -/
def accepted (t : Nat) : Option (Word × Bool) :=
  if arFire (inp t).req (icacheAt s inp t).axiIn then
    some ((inp t).req.araddr, (icacheAt s inp t).hit (inp t).req.araddr)
  else none

/-- The `arlen` of the burst accepted on `axi_out` in cycle `t`. -/
def burstAr (t : Nat) : Option (BitVec 8) :=
  if arFire (icacheAt s inp t).axiOut (inp t).resp then some (icacheAt s inp t).arlen else none

/-- The beat taken from `axi_out` in cycle `t`. -/
def burstBeat (t : Nat) : Option Word :=
  if rFire (icacheAt s inp t).axiOut (inp t).resp then some (inp t).resp.rdata else none

/-- Every burst returns four beats; the fourth is flagged. -/
def FourBeats : Prop :=
  LastOnBeat (burstAr s inp) (fun _ => 3) (burstBeat s inp) fun t => (inp t).resp.rlast

/-- `perf_cnt` of `PERF_ICACHE_ACCESS`, `PERF_ICACHE_HIT` and `PERF_ICACHE_MISS`. -/
structure PerfCnt where
  access : BitVec 64
  hit : BitVec 64
  miss : BitVec 64
deriving DecidableEq, Repr, Inhabited

/-- The calls of `perf_event` for one accepted address. -/
def PerfCnt.event (c : PerfCnt) (hit : Bool) : PerfCnt where
  access := c.access + 1
  hit := if hit then c.hit + 1 else c.hit
  miss := if hit then c.miss else c.miss + 1

/-- The counters at the start of cycle `t`. -/
def perfAt : Nat → PerfCnt
  | 0 => ⟨0, 0, 0⟩
  | t + 1 => (accepted s inp t).elim (perfAt t) fun a => (perfAt t).event a.2

end Hardware

/-- The tags of the valid lines. -/
def resident (c : Icache) (i : BitVec 2) : Option (BitVec 26) :=
  if c.validArray i then some (c.tagArray i) else none

theorem hit_eq (c : Icache) (addr : Word) :
    c.hit addr = (resident c (indexOf addr) == some (tagOf addr)) := by
  unfold Icache.hit resident
  cases c.validArray (indexOf addr) <;> simp

/-- The last beat makes its line resident. -/
theorem resident_setAt (c c' : Icache) (i : BitVec 2) (tag : BitVec 26)
    (hValid : c'.validArray = setAt c.validArray i true)
    (hTag : c'.tagArray = setAt c.tagArray i tag) :
    resident c' = Function.update (resident c) i (some tag) := by
  funext j
  by_cases hj : j = i
  · subst hj
    simp [resident, hValid, hTag, setAt]
  · simp [resident, hValid, hTag, setAt, hj]

/-- All words of a line have the same index and tag. -/
theorem split_wordAddr (line : BitVec 28) (k : BitVec 2) :
    split (wordAddr line k) = (line.extractLsb' 0 2, line.extractLsb' 2 26) := by
  have hTag : tagOf (wordAddr line k) = line.extractLsb' 2 26 := by
    apply BitVec.eq_of_toNat_eq
    have hl := line.isLt
    have hk := k.isLt
    simp only [tagOf, BitVec.extractLsb'_toNat, toNat_wordAddr, Nat.shiftRight_eq_div_pow]
    omega
  rw [split, indexOf_wordAddr, hTag]

theorem split_lineAddrOf (addr : Word) : split (lineAddrOf addr) = split addr := by
  have h := addr.isLt
  rw [lineAddrOf_eq, split_wordAddr, split]
  congr 1
  · apply BitVec.eq_of_toNat_eq
    simp only [lineOf, indexOf, BitVec.extractLsb'_toNat, Nat.shiftRight_eq_div_pow]
    omega
  · apply BitVec.eq_of_toNat_eq
    simp only [lineOf, tagOf, BitVec.extractLsb'_toNat, Nat.shiftRight_eq_div_pow]
    omega

section Refill

variable {s : Icache} {inp : Nat → IcacheInput}

/-- The table in cycle `t`: a line under refill counts as resident. -/
inductive Shows (s : Icache) (inp : Nat → IcacheInput) (t : Nat) :
    (BitVec 2 → Option (BitVec 26)) → Prop
  /-- No refill is under way. -/
  | calm (hState : (icacheAt s inp t).state = .idle ∨ (icacheAt s inp t).state = .resp)
      (hAr : (icacheAt s inp t).arvalid = false) : Shows s inp t (resident (icacheAt s inp t))
  /-- The burst is asked for. -/
  | sending (line : BitVec 28) (hState : (icacheAt s inp t).state = .sendAr)
      (hCnt : (icacheAt s inp t).refillCnt = 0)
      (hAddr : (icacheAt s inp t).refillAddr = wordAddr line 0) :
      Shows s inp t (Function.update (resident (icacheAt s inp t)) (line.extractLsb' 0 2)
        (some (line.extractLsb' 2 26)))
  /-- The burst was accepted in cycle `a`; `refillCnt` beats have arrived. -/
  | waiting (line : BitVec 28) (a : Nat) (len : BitVec 8)
      (hState : (icacheAt s inp t).state = .waitR)
      (hAr : (icacheAt s inp t).arvalid = false)
      (hAddr : (icacheAt s inp t).refillAddr = wordAddr line (icacheAt s inp t).refillCnt)
      (hBefore : a < t) (hBurst : burstAr s inp a = some len)
      (hQuiet : QuietBetween (burstAr s inp) a t)
      (hBeats : (logFrom (burstBeat s inp) (a + 1) t).length =
        (icacheAt s inp t).refillCnt.toNat) :
      Shows s inp t (Function.update (resident (icacheAt s inp t)) (line.extractLsb' 0 2)
        (some (line.extractLsb' 2 26)))

/-- One edge, as one of the cache's moves. -/
theorem icacheMove (t : Nat) : CacheMove (icacheAt s inp t) false (inp t).req (inp t).resp
    (icacheAt s inp (t + 1)) := cacheMove _ _ _ _

theorem shows_zero (h : s.AfterReset) : Shows s inp 0 fun _ => none := by
  have hNone : resident (icacheAt s inp 0) = fun _ => none := by
    funext i
    simp [resident, icacheAt, h.valid]
  rw [← hNone]
  exact .calm (.inl h.state) h.arvalid

theorem accepted_none {t : Nat} (hNone : accepted s inp t = none) :
    arFire (inp t).req (icacheAt s inp t).axiIn = false := by
  by_contra hFire
  simp [accepted, Bool.eq_true_of_not_eq_false hFire] at hNone

theorem burstAr_none {t : Nat} (h : (icacheAt s inp t).arvalid = false) :
    burstAr s inp t = none := by
  simp [burstAr, arFire, Icache.axiOut, h]

private theorem quiet_calm {t : Nat}
    (hState : (icacheAt s inp t).state = .idle ∨ (icacheAt s inp t).state = .resp)
    (hAr : (icacheAt s inp t).arvalid = false)
    (hNoAr : arFire (inp t).req (icacheAt s inp t).axiIn = false) :
    Shows s inp (t + 1) (resident (icacheAt s inp t)) := by
  have hMove := @icacheMove s inp t
  generalize hc : icacheAt s inp (t + 1) = c at hMove
  have hCalm : resident c = resident (icacheAt s inp t) → (c.state = .idle ∨ c.state = .resp) →
      c.arvalid = false → Shows s inp (t + 1) (resident (icacheAt s inp t)) := by
    intro hRes hSt hArv
    subst hc
    exact hRes ▸ .calm hSt hArv
  cases hMove with
  | flush hFlush => cases hFlush
  | hit _ _ hFire | miss _ _ hFire => simp [hFire] at hNoAr
  | respond => exact hCalm rfl (.inl rfl) hAr
  | keep => exact hCalm rfl hState hAr
  | sent _ hSt | beat _ hSt | last _ hSt => simp [hSt] at hState

private theorem quiet_sending {t : Nat} {line : BitVec 28}
    (hState : (icacheAt s inp t).state = .sendAr) (hCnt : (icacheAt s inp t).refillCnt = 0)
    (hAddr : (icacheAt s inp t).refillAddr = wordAddr line 0) :
    Shows s inp (t + 1) (Function.update (resident (icacheAt s inp t)) (line.extractLsb' 0 2)
      (some (line.extractLsb' 2 26))) := by
  have hMove := @icacheMove s inp t
  generalize hc : icacheAt s inp (t + 1) = c at hMove
  cases hMove with
  | flush hFlush => cases hFlush
  | hit _ hSt | miss _ hSt | respond _ hSt | beat _ hSt | last _ hSt => simp [hSt] at hState
  | sent _ _ hFire =>
      -- no beat can have arrived: the burst opens in this cycle
      have hRes : resident (icacheAt s inp t) = resident (icacheAt s inp (t + 1)) := by
        rw [hc]
        rfl
      rw [hRes]
      refine .waiting line t (icacheAt s inp t).arlen ?_ ?_ ?_ (Nat.lt_succ_self t)
        (if_pos hFire) (quietBetween_next _ _) ?_
      · rw [hc]
      · rw [hc]
      · rw [hc, hAddr, hCnt]
      · rw [logFrom_self, hc, hCnt]
        rfl
  | keep =>
      rw [← hc]
      exact .sending line (hc ▸ hState) (hc ▸ hCnt) (hc ▸ hAddr)

/-- A beat without `rlast` is not the fourth. -/
private theorem beat_room (hBeats : FourBeats s inp) {t a : Nat} {len : BitVec 8} {data : Word}
    (hBefore : a < t) (hBurst : burstAr s inp a = some len)
    (hQuiet : QuietBetween (burstAr s inp) a t)
    (hLen : (logFrom (burstBeat s inp) (a + 1) t).length = (icacheAt s inp t).refillCnt.toNat)
    (hBeat : burstBeat s inp t = some data) (hLast : (inp t).resp.rlast = false) :
    (icacheAt s inp t).refillCnt.toNat + 1 < 4 := by
  have hNotLast : (icacheAt s inp t).refillCnt.toNat ≠ 3 := by
    intro hThree
    have hFlag := (hBeats a t len hBefore hBurst hQuiet (by simp [hBeat])).mpr (hLen.trans hThree)
    simp [hLast] at hFlag
  have hCnt := (icacheAt s inp t).refillCnt.isLt
  omega

private theorem quiet_waiting (hBeats : FourBeats s inp) {t a : Nat} {line : BitVec 28}
    {len : BitVec 8} (hState : (icacheAt s inp t).state = .waitR)
    (hAr : (icacheAt s inp t).arvalid = false)
    (hAddr : (icacheAt s inp t).refillAddr = wordAddr line (icacheAt s inp t).refillCnt)
    (hBefore : a < t) (hBurst : burstAr s inp a = some len)
    (hQuiet : QuietBetween (burstAr s inp) a t)
    (hLen : (logFrom (burstBeat s inp) (a + 1) t).length = (icacheAt s inp t).refillCnt.toNat) :
    Shows s inp (t + 1) (Function.update (resident (icacheAt s inp t)) (line.extractLsb' 0 2)
      (some (line.extractLsb' 2 26))) := by
  have hStill := hQuiet.succ (burstAr_none hAr)
  have hMove := @icacheMove s inp t
  generalize hc : icacheAt s inp (t + 1) = c at hMove
  cases hMove with
  | flush hFlush => cases hFlush
  | hit _ hSt | miss _ hSt | respond _ hSt | sent _ hSt => simp [hSt] at hState
  | beat _ _ hFire hLast =>
      have hBeat : burstBeat s inp t = some (inp t).resp.rdata := if_pos hFire
      have hRoom := beat_room hBeats hBefore hBurst hQuiet hLen hBeat hLast
      have hRes : resident (icacheAt s inp t) = resident (icacheAt s inp (t + 1)) := by
        rw [hc]
        rfl
      rw [hRes]
      refine .waiting line a len ?_ ?_ ?_ (Nat.lt_succ_of_lt hBefore) hBurst hStill ?_
      · rw [hc]
        exact hState
      · rw [hc]
        exact hAr
      · rw [hc, hAddr, wordAddr_next _ _ hRoom]
      · rw [logFrom_some hBefore hBeat, List.length_append, hLen, hc, BitVec.toNat_add]
        simp only [List.length_singleton, BitVec.ofNat_eq_ofNat, BitVec.toNat_ofNat]
        omega
  | last =>
      have hSplit := split_wordAddr line (icacheAt s inp t).refillCnt
      rw [← hAddr, split, Prod.mk.injEq] at hSplit
      have hRes : resident (icacheAt s inp (t + 1)) = _ :=
        resident_setAt (icacheAt s inp t) _ _ _ (congrArg Icache.validArray hc)
          (congrArg Icache.tagArray hc)
      rw [hSplit.1, hSplit.2] at hRes
      rw [← hRes]
      refine .calm (.inr ?_) ?_
      · rw [hc]
      · rw [hc]
        exact hAr
  | keep _ _ _ _ hNoBeat =>
      have hNone : burstBeat s inp t = none := by simp [burstBeat, hNoBeat hState]
      rw [← hc]
      refine .waiting line a len (hc ▸ hState) (hc ▸ hAr) (hc ▸ hAddr)
        (Nat.lt_succ_of_lt hBefore) hBurst hStill ?_
      rw [logFrom_none hBefore hNone, hLen, hc]

/-- A cycle that accepts no address leaves the table. -/
theorem shows_quiet (hBeats : FourBeats s inp) (t : Nat) (m : BitVec 2 → Option (BitVec 26))
    (h : Shows s inp t m) (hNone : accepted s inp t = none) : Shows s inp (t + 1) m := by
  cases h with
  | calm hState hAr => exact quiet_calm hState hAr (accepted_none hNone)
  | sending line hState hCnt hAddr => exact quiet_sending hState hCnt hAddr
  | waiting line a len hState hAr hAddr hBefore hBurst hQuiet hLen =>
      exact quiet_waiting hBeats hState hAr hAddr hBefore hBurst hQuiet hLen

/-- An accepted address is one access of the table. -/
theorem shows_access (t : Nat) (m : BitVec 2 → Option (BitVec 26)) (addr : Word) (hit : Bool)
    (h : Shows s inp t m) (hSome : accepted s inp t = some (addr, hit)) :
    Shows s inp (t + 1) (direct m (split addr)).1 ∧ hit = (direct m (split addr)).2 := by
  have hFire : arFire (inp t).req (icacheAt s inp t).axiIn = true := by
    by_contra hNo
    simp [accepted, hNo] at hSome
  simp only [accepted, hFire, if_true, Option.some.injEq, Prod.mk.injEq] at hSome
  obtain ⟨rfl, hHit⟩ := hSome
  have hIdle : (icacheAt s inp t).state = .idle := by
    simp only [arFire, Icache.axiIn, Bool.and_eq_true, beq_iff_eq] at hFire
    exact hFire.2
  rw [hit_eq] at hHit
  cases h with
  | sending line hState | waiting line a len hState => simp [hIdle] at hState
  | calm hState hAr =>
      refine ⟨?_, hHit.symm⟩
      have hMove := @icacheMove s inp t
      generalize hc : icacheAt s inp (t + 1) = c at hMove
      cases hMove with
      | flush hFlush => cases hFlush
      | respond _ hSt | sent _ hSt | beat _ hSt | last _ hSt => simp [hIdle] at hSt
      | keep _ hNo => simp [hNo hIdle] at hFire
      | hit _ _ _ hPresent =>
          rw [hit_eq, beq_iff_eq] at hPresent
          have hRes : resident (icacheAt s inp t) = resident (icacheAt s inp (t + 1)) := by
            rw [hc]
            rfl
          rw [direct_hit hPresent, hRes]
          refine .calm (.inr ?_) ?_
          · rw [hc]
          · rw [hc]
            exact hAr
      | miss _ _ _ hAbsent =>
          rw [hit_eq, beq_eq_false_iff_ne] at hAbsent
          have hRes : resident (icacheAt s inp t) = resident (icacheAt s inp (t + 1)) := by
            rw [hc]
            rfl
          have hSplit := split_lineAddrOf (inp t).req.araddr
          rw [lineAddrOf_eq, split_wordAddr] at hSplit
          rw [direct_miss hAbsent, ← hSplit, hRes]
          refine .sending (lineOf (inp t).req.araddr) ?_ ?_ ?_
          · rw [hc]
          · rw [hc]
          · rw [hc]
            exact lineAddrOf_eq _

end Refill

/-! ## Counters -/

/-- The simulator's counters. -/
def Sim.counts (s : Sim) : PerfCnt := ⟨s.cacheAccessCount, s.cacheHitCount, s.cacheMissCount⟩

theorem counts_place (w : Widths) (rand : Nat → Nat) (s : Sim) (set : Nat) (tag : Word) (n : Nat) :
    (s.place w rand set tag n).counts = s.counts := by
  induction n generalizing s with
  | zero => rfl
  | succ n ih =>
      simp only [Sim.place]
      split
      · rfl
      · split
        · rw [ih]
          rfl
        · rw [ih]

theorem counts_access (w : Widths) (rand : Nat → Nat) (s : Sim) (pc : Word) :
    (s.access w rand pc).1.counts = s.counts.event (s.access w rand pc).2 := by
  simp only [Sim.access]
  split
  · rfl
  · have hPlace := counts_place w rand { s with cacheAccessCount := s.cacheAccessCount + 1 }
      (w.findSet pc).toNat (w.findTag pc) w.numWays
    simp only [Sim.counts, PerfCnt.mk.injEq] at hPlace
    simp only [Sim.counts, PerfCnt.event, hPlace]
    rfl

/-- Both machines count their hit flags the same way. -/
theorem counts_main (w : Widths) (rand : Nat → Nat) (trace : List Word) :
    (Sim.main w rand trace).counts =
      (Sim.hits w rand trace).foldl PerfCnt.event ⟨0, 0, 0⟩ := by
  induction trace using List.reverseRecOn with
  | nil => rfl
  | append_singleton trace pc ih =>
      rw [Sim.main, Sim.hits, feedState_concat, feedOuts_concat, List.foldl_append, counts_access,
        ← Sim.hits, ← ih]
      rfl

theorem perfAt_eq (s : Icache) (inp : Nat → IcacheInput) (t : Nat) :
    perfAt s inp t =
      ((logFrom (accepted s inp) 0 t).map Prod.snd).foldl PerfCnt.event ⟨0, 0, 0⟩ := by
  induction t with
  | zero => rfl
  | succ t ih =>
      rw [perfAt, logFrom_succ _ (Nat.zero_le t), ih]
      cases accepted s inp t <;> simp

/-! ## Prediction -/

/-- In every run after reset without a flush, for every refill latency: the
cache reports the hits the simulator reports for the same addresses, and
counts them the same, whatever `rand` returns. -/
theorem cachesim_predicts {s : Icache} {inp : Nat → IcacheInput} (rand : Nat → Nat)
    (hReset : s.AfterReset) (hBeats : FourBeats s inp) (t : Nat) :
    (logFrom (accepted s inp) 0 t).map Prod.snd =
      Sim.hits icacheWidths rand ((logFrom (accepted s inp) 0 t).map Prod.fst) ∧
    perfAt s inp t =
      (Sim.main icacheWidths rand ((logFrom (accepted s inp) 0 t).map Prod.fst)).counts := by
  have hHits := (log_simulate (f := fun m pc => direct m (split pc)) (accepted s inp)
    (Shows s inp) _ (shows_zero hReset) (shows_quiet hBeats) shows_access t).2
  rw [← hits_direct rand] at hHits
  refine ⟨hHits, ?_⟩
  rw [perfAt_eq, counts_main, hHits]

/-- Four beats on a miss, then a hit in the line and a miss in another. -/
def sampleIcache (t : Nat) : IcacheInput where
  req :=
    { araddr := if t = 0 then 0x30000000 else if t < 9 then 0x30000008 else 0x30000040
      arvalid := true
      rready := true }
  resp :=
    { arready := true, rvalid := decide (t < 6), rdata := t, rlast := t == 5 }

theorem sampleIcache_fourBeats : FourBeats (default : Icache).reset sampleIcache := by
  refine lastOnBeat_of_test (n := 6) (by decide +kernel) fun t ht => ?_
  have hLow : (sampleIcache t).resp.rvalid = false := by
    simp only [sampleIcache, decide_eq_false_iff_not]
    omega
  simp [burstBeat, rFire, hLow]

theorem cachesim_predicts_sample :
    (logFrom (accepted (default : Icache).reset sampleIcache) 0 12).map Prod.fst =
      [0x30000000, 0x30000008, 0x30000040] ∧
    Sim.hits icacheWidths (fun n => n) [0x30000000, 0x30000008, 0x30000040] =
      [false, true, false] ∧
    perfAt (default : Icache).reset sampleIcache 12 = ⟨3, 1, 2⟩ := by
  obtain ⟨hHits, hCounts⟩ := cachesim_predicts (fun n => n)
    (Icache.reset_afterReset default) sampleIcache_fourBeats 12
  have hTrace : (logFrom (accepted (default : Icache).reset sampleIcache) 0 12).map Prod.fst =
      [0x30000000, 0x30000008, 0x30000040] := by decide +kernel
  refine ⟨hTrace, ?_, ?_⟩
  · rw [← hTrace, ← hHits]
    decide +kernel
  · rw [hCounts, hTrace]
    decide +kernel

end Riscv32.Cachesim
