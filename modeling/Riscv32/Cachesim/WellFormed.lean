import Riscv32.Cachesim.Model

/-!
# The simulated cache stays well formed

`cachesim.cpp` for every geometry, trace and sequence of `rand` results.  The
loop that places a tag finds the first free way, or, with all ways taken,
replaces a random one from inside its last turn; either way the ways in front
of the chosen one are taken.

That is all the invariant needs: `place_spec` says it, and `tagTable_put` puts a
new tag into such a way of any table of distinct tags.

## Main results

* `access_spec` — one turn keeps the cache well formed and does what it should.
* `cache_well_formed` — so does every access of every trace.
-/

namespace Riscv32.Cachesim

open Riscv32.Rtl
open Riscv32.Clocked

/-- `CACHE_NUM_SETS`. -/
def Widths.numSets (w : Widths) : Nat := 1 <<< w.setWidth

/-- The widths describe a cache: a set has a way, and an address a tag. -/
structure Widths.Geometry (w : Widths) : Prop where
  ways : w.setWidth ≤ w.indexWidth
  bits : w.offsetWidth + w.setWidth < 32

/-- The tag is in a valid way of the set. -/
def Resident (w : Widths) (s : Sim) (set : Nat) (tag : Word) : Prop :=
  ∃ i < w.numWays, s.valids set i ≠ 0 ∧ s.tags set i = tag

/-- A set-associative table of tags. -/
structure TagTable (w : Widths) (s : Sim) : Prop where
  validPrefix : ∀ set i j, i ≤ j → j < w.numWays → s.valids set j ≠ 0 → s.valids set i ≠ 0
  distinct : ∀ set i j, i < w.numWays → j < w.numWays → s.valids set i ≠ 0 →
    s.valids set j ≠ 0 → s.tags set i = s.tags set j → i = j

structure WellFormed (w : Widths) (s : Sim) : Prop extends TagTable w s where
  count : s.cacheAccessCount = s.cacheHitCount + s.cacheMissCount

/-- What the turn for `pc` makes of the globals `s`. -/
structure Accessed (w : Widths) (s : Sim) (pc : Word) (s' : Sim) : Prop where
  inRange : (w.findSet pc).toNat < w.numSets
  resident : Resident w s' (w.findSet pc).toNat (w.findTag pc)
  oneWay : ∃ way < w.numWays, ∀ set i, ¬ (set = (w.findSet pc).toNat ∧ i = way) →
    s'.valids set i = s.valids set i ∧ s'.tags set i = s.tags set i
  hit : Resident w s (w.findSet pc).toNat (w.findTag pc) →
    s'.cacheHitCount = s.cacheHitCount + 1 ∧ s'.cacheMissCount = s.cacheMissCount
  miss : ¬ Resident w s (w.findSet pc).toNat (w.findTag pc) →
    s'.cacheHitCount = s.cacheHitCount ∧ s'.cacheMissCount = s.cacheMissCount + 1

variable {w : Widths} {rand : Nat → Nat} {s : Sim} {set : Nat} {tag : Word}

/-! ## The two loops -/

theorem find_iff : s.find w set tag = true ↔ Resident w s set tag := by
  simp [Sim.find, Resident]

theorem numWays_pos (w : Widths) : 0 < w.numWays := by
  rw [Widths.numWays, Nat.one_shiftLeft]
  exact Nat.two_pow_pos _

theorem findSet_lt (h : w.setWidth < 32) (pc : Word) : (w.findSet pc).toNat < w.numSets := by
  have hPos : 0 < 2 ^ w.setWidth := Nat.two_pow_pos _
  have hLt : 2 ^ w.setWidth < 2 ^ 32 := Nat.pow_lt_pow_right (by decide) h
  have hMask : (1#32 <<< w.setWidth - 1).toNat = 2 ^ w.setWidth - 1 := by
    have hOne : (1#32).toNat = 1 := rfl
    have hShift : (1#32 <<< w.setWidth).toNat = 2 ^ w.setWidth := by
      rw [BitVec.toNat_shiftLeft, hOne, Nat.one_shiftLeft, Nat.mod_eq_of_lt hLt]
    rw [BitVec.toNat_sub, hShift, show (1 : Word).toNat = 1 from rfl]
    omega
  rw [Widths.findSet, BitVec.toNat_and, hMask, Widths.numSets, Nat.one_shiftLeft]
  have := @Nat.and_le_right (pc >>> w.offsetWidth).toNat (2 ^ w.setWidth - 1)
  omega

/-- **The placing loop**: one way is written, and those in front of it are
taken.  By induction over the ways to go. -/
theorem place_spec (n : Nat) (hn : n + 1 ≤ w.numWays)
    (hTaken : ∀ j < w.numWays - (n + 1), s.valids set j ≠ 0) :
    ∃ way < w.numWays, ∃ calls, (∀ j < way, s.valids set j ≠ 0) ∧
      s.place w rand set tag (n + 1) = { s with randCalls := calls }.put set way tag := by
  induction n with
  | zero =>
      unfold Sim.place
      by_cases hFree : s.valids set (w.numWays - (0 + 1)) = 0
      · exact ⟨w.numWays - 1, by omega, s.randCalls, hTaken, by simp [hFree]⟩
      · refine ⟨rand s.randCalls % w.numWays, Nat.mod_lt _ (by omega), s.randCalls + 1, ?_, ?_⟩
        · intro j hj
          have hLt := Nat.mod_lt (rand s.randCalls) (by omega : 0 < w.numWays)
          by_cases hLast : j = w.numWays - 1
          · rw [hLast]
            exact hFree
          · exact hTaken j (by omega)
        · dsimp only
          rw [if_neg hFree, if_pos rfl]
          rfl
  | succ n ih =>
      unfold Sim.place
      by_cases hFree : s.valids set (w.numWays - (n + 1 + 1)) = 0
      · exact ⟨w.numWays - (n + 1 + 1), by omega, s.randCalls, hTaken, by simp [hFree]⟩
      · have hNotLast : w.numWays - (n + 1 + 1) ≠ w.numWays - 1 := by omega
        simp only [hFree, if_false, hNotLast]
        apply ih (by omega)
        intro j hj
        by_cases hHere : j = w.numWays - (n + 1 + 1)
        · rw [hHere]
          exact hFree
        · exact hTaken j (by omega)

/-! ## One turn -/

theorem resident_put {way calls : Nat} (hWay : way < w.numWays) :
    Resident w ({ s with randCalls := calls }.put set way tag) set tag :=
  ⟨way, hWay, by simp [Sim.put], by simp [Sim.put]⟩

theorem put_of_ne {way calls set' i : Nat} (h : ¬ (set' = set ∧ i = way)) :
    ({ s with randCalls := calls }.put set way tag).valids set' i = s.valids set' i ∧
      ({ s with randCalls := calls }.put set way tag).tags set' i = s.tags set' i := by
  by_cases hSet : set' = set
  · have hWay : i ≠ way := fun hi => h ⟨hSet, hi⟩
    subst hSet
    simp [Sim.put, Function.update_of_ne hWay]
  · simp [Sim.put, Function.update_of_ne hSet]

/-- The chosen way is valid and holds the tag. -/
theorem put_self {way calls : Nat} :
    ({ s with randCalls := calls }.put set way tag).valids set way = 1 ∧
      ({ s with randCalls := calls }.put set way tag).tags set way = tag := by
  simp [Sim.put]

theorem validPrefix_put {way calls : Nat} (h : TagTable w s)
    (hTaken : ∀ j < way, s.valids set j ≠ 0) (set' i j : Nat) (hij : i ≤ j) (hj : j < w.numWays)
    (hValid : ({ s with randCalls := calls }.put set way tag).valids set' j ≠ 0) :
    ({ s with randCalls := calls }.put set way tag).valids set' i ≠ 0 := by
  by_cases hi : set' = set ∧ i = way
  · obtain ⟨rfl, rfl⟩ := hi
    rw [put_self.1]
    decide
  · rw [(put_of_ne hi).1]
    by_cases hjWay : set' = set ∧ j = way
    · obtain ⟨rfl, rfl⟩ := hjWay
      exact hTaken i (by omega)
    · rw [(put_of_ne hjWay).1] at hValid
      exact h.validPrefix set' i j hij hj hValid

theorem distinct_put {way calls : Nat} (h : TagTable w s) (hMiss : ¬ Resident w s set tag)
    (set' i j : Nat) (hi : i < w.numWays) (hj : j < w.numWays)
    (hValidI : ({ s with randCalls := calls }.put set way tag).valids set' i ≠ 0)
    (hValidJ : ({ s with randCalls := calls }.put set way tag).valids set' j ≠ 0)
    (hTag : ({ s with randCalls := calls }.put set way tag).tags set' i =
      ({ s with randCalls := calls }.put set way tag).tags set' j) : i = j := by
  by_cases hiWay : set' = set ∧ i = way
  · by_cases hjWay : set' = set ∧ j = way
    · rw [hiWay.2, hjWay.2]
    · obtain ⟨rfl, rfl⟩ := hiWay
      rw [(put_of_ne hjWay).1] at hValidJ
      rw [put_self.2, (put_of_ne hjWay).2] at hTag
      exact absurd ⟨j, hj, hValidJ, hTag.symm⟩ hMiss
  · rw [(put_of_ne hiWay).1] at hValidI
    rw [(put_of_ne hiWay).2] at hTag
    by_cases hjWay : set' = set ∧ j = way
    · obtain ⟨rfl, rfl⟩ := hjWay
      rw [put_self.2] at hTag
      exact absurd ⟨i, hi, hValidI, hTag⟩ hMiss
    · rw [(put_of_ne hjWay).1] at hValidJ
      rw [(put_of_ne hjWay).2] at hTag
      exact h.distinct set' i j hi hj hValidI hValidJ hTag

/-- A new tag in front of which no way is free. -/
theorem tagTable_put {way calls : Nat} (h : TagTable w s) (hTaken : ∀ j < way, s.valids set j ≠ 0)
    (hMiss : ¬ Resident w s set tag) :
    TagTable w ({ s with randCalls := calls }.put set way tag) :=
  ⟨validPrefix_put h hTaken, distinct_put h hMiss⟩

/-- **One turn** of the main loop keeps the cache well formed. -/
theorem access_spec (hRange : w.setWidth < 32) (h : WellFormed w s) (pc : Word) :
    WellFormed w (s.access w rand pc).1 ∧ Accessed w s pc (s.access w rand pc).1 := by
  have hSet := findSet_lt hRange pc
  let counted : Sim := { s with cacheAccessCount := s.cacheAccessCount + 1 }
  have hFind : counted.find w (w.findSet pc).toNat (w.findTag pc) = true ↔
      Resident w s (w.findSet pc).toNat (w.findTag pc) := find_iff
  by_cases hHit : Resident w s (w.findSet pc).toNat (w.findTag pc)
  · have hAccess : s.access w rand pc =
        ({ counted with cacheHitCount := s.cacheHitCount + 1 }, true) := by
      unfold Sim.access
      exact if_pos (hFind.2 hHit)
    rw [hAccess]
    refine ⟨⟨⟨h.validPrefix, h.distinct⟩, ?_⟩, hSet, hHit, ?_, fun _ => ⟨rfl, rfl⟩,
      fun hMiss => absurd hHit hMiss⟩
    · change s.cacheAccessCount + 1 = s.cacheHitCount + 1 + s.cacheMissCount
      rw [h.count, BitVec.add_assoc, BitVec.add_comm s.cacheMissCount, ← BitVec.add_assoc]
    · exact ⟨0, numWays_pos w, fun _ _ _ => ⟨rfl, rfl⟩⟩
  · obtain ⟨way, hWay, calls, hTaken, hPlace⟩ := @place_spec w rand counted (w.findSet pc).toNat
      (w.findTag pc) (w.numWays - 1) (by have := numWays_pos w; omega) (by omega)
    rw [Nat.sub_add_cancel (numWays_pos w)] at hPlace
    have hAccess : (s.access w rand pc).1 =
        { { counted with randCalls := calls }.put (w.findSet pc).toNat way (w.findTag pc) with
          cacheMissCount := s.cacheMissCount + 1 } := by
      unfold Sim.access
      dsimp only
      rw [if_neg (mt hFind.1 hHit)]
      exact congrArg (fun p : Sim => { p with cacheMissCount := p.cacheMissCount + 1 }) hPlace
    rw [hAccess]
    have hTable : TagTable w
        ({ counted with randCalls := calls }.put (w.findSet pc).toNat way (w.findTag pc)) :=
      tagTable_put ⟨h.validPrefix, h.distinct⟩ hTaken hHit
    refine ⟨⟨⟨hTable.validPrefix, hTable.distinct⟩, ?_⟩, hSet, resident_put hWay,
      ⟨way, hWay, fun _ _ hNe => put_of_ne hNe⟩, fun hBad => absurd hBad hHit,
      fun _ => ⟨rfl, rfl⟩⟩
    change s.cacheAccessCount + 1 = s.cacheHitCount + (s.cacheMissCount + 1)
    rw [h.count, BitVec.add_assoc]

/-! ## Traces -/

theorem wellFormed_init (w : Widths) : WellFormed w Sim.init :=
  ⟨⟨fun _ _ _ _ _ hValid => absurd rfl hValid, fun _ _ _ _ _ hValid => absurd rfl hValid⟩, rfl⟩

theorem wellFormed_main (hRange : w.setWidth < 32) (rand : Nat → Nat) (trace : List Word) :
    WellFormed w (Sim.main w rand trace) := by
  induction trace using List.reverseRecOn with
  | nil => exact wellFormed_init w
  | append_singleton trace pc ih =>
      rw [Sim.main, feedState_concat]
      exact (access_spec hRange ih pc).1

/-- **After every access** the cache is well formed and the access has done
what it should. -/
theorem cache_well_formed (h : w.Geometry) (rand : Nat → Nat) (trace : List Word) (pc : Word) :
    WellFormed w (Sim.main w rand (trace ++ [pc])) ∧
      Accessed w (Sim.main w rand trace) pc (Sim.main w rand (trace ++ [pc])) := by
  have hRange : w.setWidth < 32 := by
    have := h.bits
    omega
  have hStep : Sim.main w rand (trace ++ [pc]) = ((Sim.main w rand trace).access w rand pc).1 :=
    feedState_concat _ _ _ _
  rw [hStep]
  exact access_spec hRange (wellFormed_main hRange rand trace) pc

/-- A geometry of the sweep: two sets of two ways.  The third block of set 0
replaces the first. -/
theorem cache_well_formed_sweep :
    (Sim.main ⟨2, 2, 1⟩ (fun _ => 4) [0x0#32, 0x8#32, 0x10#32]).tags 0 0 = 2#32 ∧
      WellFormed ⟨2, 2, 1⟩ (Sim.main ⟨2, 2, 1⟩ (fun _ => 4) ([0x0#32, 0x8#32] ++ [0x10#32])) := by
  refine ⟨by decide, ?_⟩
  have hGeometry : Widths.Geometry ⟨2, 2, 1⟩ := ⟨by decide, by decide⟩
  exact (cache_well_formed hGeometry (fun _ => 4) [0x0#32, 0x8#32] 0x10#32).1

end Riscv32.Cachesim
