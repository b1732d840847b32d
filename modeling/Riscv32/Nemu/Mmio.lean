import Riscv32.Nemu.Devices
import Riscv32.Nemu.Regions
import Mathlib.Data.List.Perm.Basic

/-!
# Registering devices

`add_mmio_map` and `fetch_mmio_map` of `device/io/mmio.c`.  A new window is
checked against `pmem` by its two end points and against the windows before it
by comparing end points, all of them 32-bit.

`Windows` is what a table of devices should promise: windows that do not wrap,
stay off `pmem` and do not meet.  `register_iff` says which sequences of calls
return, `windows_iff` which of them keep the promise; what is left between the
two are windows that wrap or that span `pmem` (`MmioCall.Fits`).

## Main results

* `registered_collisionless_iff` — for every sequence of calls.
* `register_devices`, `devices_collisionless` — the devices of the repository are
  registered, and do not collide.
-/

namespace Riscv32.Nemu

open Riscv32.Rtl

variable {δ : Type}

/-! ## Registration -/

/-- The arguments of `add_mmio_map`, without the name. -/
structure MmioCall (δ : Type) where
  addr : Word
  len : Word
  space : δ → Pmem
  setSpace : Pmem → δ → δ
  callback : Option (Word → Nat → Bool → δ → Option δ)

/-- `NR_MAP`. -/
abbrev nrMap : Nat := 16

/-- The entry a call fills. -/
def MmioCall.map (c : MmioCall δ) : IOMap δ :=
  ⟨c.addr, c.addr + c.len - 1#32, c.space, c.setSpace, c.callback⟩

/-- `left <= maps[i].high && right >= maps[i].low`. -/
def overlaps (left right : Word) (map : IOMap δ) : Bool :=
  decide (left ≤ map.high) && decide (map.low ≤ right)

/-- `add_mmio_map`; `none` where the assertion fails or an overlap is reported. -/
def addMmioMap (maps : List (IOMap δ)) (c : MmioCall δ) : Option (List (IOMap δ)) :=
  let left := c.addr
  let right := c.addr + c.len - 1#32
  if ¬ maps.length < nrMap then none
  else if inPmem left || inPmem right then none
  else if maps.any (overlaps left right) then none
  else some (maps ++ [c.map])

/-- The calls of a program, one after the other. -/
def register (maps : List (IOMap δ)) (calls : List (MmioCall δ)) : Option (List (IOMap δ)) :=
  calls.foldlM addMmioMap maps

/-- `fetch_mmio_map`. -/
def fetchMmioMap (maps : List (IOMap δ)) (addr : Word) : Option (IOMap δ) :=
  maps.find? (·.inside addr)

/-! ## What a run of calls checks -/

/-- The checks of a call that do not depend on the calls before it. -/
def MmioCall.EndsOutside (c : MmioCall δ) : Prop :=
  inPmem c.map.low = false ∧ inPmem c.map.high = false

instance (c : MmioCall δ) : Decidable c.EndsOutside := inferInstanceAs (Decidable (_ ∧ _))

/-- The comparison of two windows does not depend on which was first. -/
def Meets (a b : IOMap δ) : Prop := overlaps a.low a.high b = true

instance (a b : IOMap δ) : Decidable (Meets a b) := inferInstanceAs (Decidable (_ = true))

theorem Meets.symm {a b : IOMap δ} (h : Meets a b) : Meets b a := by
  simp only [Meets, overlaps, Bool.and_eq_true, decide_eq_true_eq] at h ⊢
  exact ⟨h.2, h.1⟩

theorem addMmioMap_iff {maps maps' : List (IOMap δ)} {c : MmioCall δ} :
    addMmioMap maps c = some maps' ↔
      maps.length < nrMap ∧ c.EndsOutside ∧ (∀ m ∈ maps, ¬ Meets m c.map) ∧
        maps' = maps ++ [c.map] := by
  have hAny : maps.any (overlaps c.addr (c.addr + c.len - 1#32)) = true ↔
      ∃ m ∈ maps, Meets m c.map := by
    rw [List.any_eq_true]
    exact exists_congr fun m => and_congr_right fun _ => ⟨fun h => Meets.symm h, Meets.symm⟩
  unfold addMmioMap
  dsimp only
  by_cases hFull : maps.length < nrMap
  · rw [if_neg (not_not.2 hFull)]
    by_cases hPmem : (inPmem c.addr || inPmem (c.addr + c.len - 1#32)) = true
    · rw [if_pos hPmem]
      refine iff_of_false (by simp) fun h => ?_
      obtain ⟨hLow, hHigh⟩ := h.2.1
      rcases Bool.or_eq_true_iff.1 hPmem with hIn | hIn
      · exact absurd (hIn.symm.trans hLow) (by decide)
      · exact absurd (hIn.symm.trans hHigh) (by decide)
    · rw [if_neg hPmem]
      have hEnds : inPmem c.addr = false ∧ inPmem (c.addr + c.len - 1#32) = false := by
        simpa using hPmem
      by_cases hOverlap : maps.any (overlaps c.addr (c.addr + c.len - 1#32)) = true
      · obtain ⟨m, hm, hMeets⟩ := hAny.1 hOverlap
        rw [if_pos hOverlap]
        exact iff_of_false (by simp) fun h => h.2.2.1 m hm hMeets
      · have hApart : ∀ m ∈ maps, ¬ Meets m c.map := fun m hm hMeets =>
          hOverlap (hAny.2 ⟨m, hm, hMeets⟩)
        rw [if_neg hOverlap]
        refine ⟨fun h => ⟨hFull, hEnds, hApart, (Option.some.inj h).symm⟩, fun h => ?_⟩
        rw [h.2.2.2]
  · rw [if_pos hFull]
    exact iff_of_false (by simp) fun h => hFull h.1

/-- A run returns when the table is long enough, the ends are outside `pmem` and
no two windows meet. -/
theorem register_iff {maps maps' : List (IOMap δ)} {calls : List (MmioCall δ)}
    (hLength : maps.length ≤ nrMap) (hApart : maps.Pairwise fun a b => ¬ Meets a b) :
    register maps calls = some maps' ↔
      maps.length + calls.length ≤ nrMap ∧ (∀ c ∈ calls, c.EndsOutside) ∧
        (maps ++ calls.map MmioCall.map).Pairwise (fun a b => ¬ Meets a b) ∧
        maps' = maps ++ calls.map MmioCall.map := by
  induction calls generalizing maps with
  | nil =>
      simp only [register, List.foldlM_nil, List.map_nil, List.append_nil, List.length_nil]
      refine ⟨fun h => ⟨hLength, by simp, hApart, (Option.some.inj h).symm⟩, fun h => ?_⟩
      rw [h.2.2.2]
      rfl
  | cons c calls ih =>
      have hTable : maps ++ (c :: calls).map MmioCall.map =
          (maps ++ [c.map]) ++ calls.map MmioCall.map := by simp
      have hStep : register maps (c :: calls) = some maps' ↔
          ∃ t, addMmioMap maps c = some t ∧ register t calls = some maps' := by
        simp only [register, List.foldlM_cons]
        exact Option.bind_eq_some_iff
      rw [hStep, hTable, List.forall_mem_cons, List.length_cons]
      constructor
      · rintro ⟨t, hCall, hRest⟩
        obtain ⟨hRoom, hEnds, hNew, rfl⟩ := addMmioMap_iff.1 hCall
        have hGrown : (maps ++ [c.map]).Pairwise fun a b => ¬ Meets a b := by
          refine List.pairwise_append.2 ⟨hApart, List.pairwise_singleton _ _, fun m hm b hb => ?_⟩
          rw [List.mem_singleton.1 hb]
          exact hNew m hm
        obtain ⟨hFits, hEnds', hAll, hMaps⟩ := (ih (by rwa [List.length_append]) hGrown).1 hRest
        rw [List.length_append, List.length_singleton] at hFits
        exact ⟨by omega, ⟨hEnds, hEnds'⟩, hAll, hMaps⟩
      · rintro ⟨hFits, ⟨hEnds, hEnds'⟩, hAll, hMaps⟩
        have hGrown := (List.pairwise_append.1 hAll).1
        refine ⟨maps ++ [c.map], addMmioMap_iff.2 ⟨by omega, hEnds, fun m hm => ?_, rfl⟩, ?_⟩
        · exact (List.pairwise_append.1 hGrown).2.2 m hm _ (List.mem_singleton_self _)
        · refine (ih ?_ hGrown).2 ⟨?_, hEnds', hAll, hMaps⟩
          · simp only [List.length_append, List.length_singleton]
            omega
          · simp only [List.length_append, List.length_singleton]
            omega

/-! ## Windows -/

/-- What the windows of a table promise. -/
structure Windows (maps : List (IOMap δ)) : Prop where
  ordered : ∀ m ∈ maps, m.low ≤ m.high
  apart : maps.Pairwise fun a b => ∀ x, ¬ (a.inside x = true ∧ b.inside x = true)
  offPmem : ∀ m ∈ maps, ∀ x, m.inside x = true → inPmem x = false

/-- The window of a call ends in the address space and does not span `pmem`. -/
def MmioCall.Fits (c : MmioCall δ) : Prop :=
  c.addr.toNat + c.len.toNat ≤ 2 ^ 32 ∧
    ¬ (c.addr.toNat ≤ 0x80000000 ∧ 0x82000000 ≤ c.addr.toNat + c.len.toNat)

instance (c : MmioCall δ) : Decidable c.Fits := inferInstanceAs (Decidable (_ ∧ _))

theorem inside_iff {m : IOMap δ} {x : Word} :
    m.inside x = true ↔ m.low.toNat ≤ x.toNat ∧ x.toNat ≤ m.high.toNat := by
  simp only [IOMap.inside, Bool.and_eq_true, decide_eq_true_eq, BitVec.le_def]

theorem meets_iff {a b : IOMap δ} :
    Meets a b ↔ a.low.toNat ≤ b.high.toNat ∧ b.low.toNat ≤ a.high.toNat := by
  simp only [Meets, overlaps, Bool.and_eq_true, decide_eq_true_eq, BitVec.le_def]

theorem inPmem_iff {x : Word} : inPmem x = true ↔ 0x80000000 ≤ x.toNat ∧ x.toNat < 0x82000000 := by
  rw [inPmem, within_iff (by decide)]
  rfl

section Call

variable {c : MmioCall δ} (hLen : c.len ≠ 0#32)

include hLen

/-- The high end of a window, as a number. -/
theorem high_toNat : c.map.high.toNat = (c.addr.toNat + c.len.toNat - 1) % 2 ^ 32 := by
  have hPos := BitVec.toNat_pos_of_ne_zero hLen
  have hLt := c.len.isLt
  show (c.addr + c.len - 1#32).toNat = _
  simp only [BitVec.toNat_sub, BitVec.toNat_add, BitVec.toNat_ofNat]
  omega

theorem ordered_iff : c.map.low ≤ c.map.high ↔ c.addr.toNat + c.len.toNat ≤ 2 ^ 32 := by
  have hPos := BitVec.toNat_pos_of_ne_zero hLen
  have hLt := c.len.isLt
  have hAddr := c.addr.isLt
  rw [BitVec.le_def, high_toNat hLen]
  show c.addr.toNat ≤ _ ↔ _
  omega

/-- A window whose ends are outside `pmem` meets it only by spanning it. -/
theorem offPmem_iff (hEnds : c.EndsOutside) (hOrdered : c.addr.toNat + c.len.toNat ≤ 2 ^ 32) :
    (∀ x, c.map.inside x = true → inPmem x = false) ↔
      ¬ (c.addr.toNat ≤ 0x80000000 ∧ 0x82000000 ≤ c.addr.toNat + c.len.toNat) := by
  have hPos := BitVec.toNat_pos_of_ne_zero hLen
  have hHigh : c.map.high.toNat = c.addr.toNat + c.len.toNat - 1 := by
    rw [high_toNat hLen]
    omega
  have hLow : c.map.low.toNat = c.addr.toNat := rfl
  obtain ⟨hLowOut, hHighOut⟩ := hEnds
  rw [← Bool.not_eq_true, inPmem_iff] at hLowOut hHighOut
  constructor
  · rintro h ⟨hBelow, hAbove⟩
    have hFirst := h 0x80000000#32 (by
      rw [inside_iff, BitVec.toNat_ofNat]
      omega)
    exact absurd hFirst (by decide)
  · intro hSpan x hx
    rw [inside_iff] at hx
    rw [← Bool.not_eq_true, inPmem_iff]
    omega

end Call

/-- Windows that share an address meet. -/
theorem meets_of_inside {a b : IOMap δ} {x : Word} (ha : a.inside x = true)
    (hb : b.inside x = true) : Meets a b := by
  rw [inside_iff] at ha hb
  exact meets_iff.2 (by omega)

/-- Where a run of calls gives the promised windows. -/
theorem windows_iff {calls : List (MmioCall δ)} {maps : List (IOMap δ)}
    (hLen : ∀ c ∈ calls, c.len ≠ 0#32) (hRun : register [] calls = some maps) :
    Windows maps ↔ ∀ c ∈ calls, c.Fits := by
  obtain ⟨-, hEnds, hApart, rfl⟩ := (register_iff (Nat.zero_le _) List.Pairwise.nil).1 hRun
  rw [List.nil_append] at hApart ⊢
  constructor
  · intro h c hc
    have hOrdered := (ordered_iff (hLen c hc)).1 (h.ordered _ (List.mem_map_of_mem hc))
    exact ⟨hOrdered, (offPmem_iff (hLen c hc) (hEnds c hc) hOrdered).1
      (h.offPmem _ (List.mem_map_of_mem hc))⟩
  · intro h
    have hOrdered : ∀ m ∈ calls.map MmioCall.map, m.low ≤ m.high := by
      refine List.forall_mem_map.2 fun c hc => ?_
      exact (ordered_iff (hLen c hc)).2 (h c hc).1
    refine ⟨hOrdered, ?_, List.forall_mem_map.2 fun c hc => ?_⟩
    · exact hApart.imp fun hab x hx => hab (meets_of_inside hx.1 hx.2)
    · exact (offPmem_iff (hLen c hc) (hEnds c hc) (h c hc).1).2 (h c hc).2

/-! ## Lookup -/

section Lookup

variable {α : Type} {p : α → Bool}

/-- A predicate that no two members of a list share holds of one at most. -/
theorem length_filter_le_one {l : List α}
    (h : l.Pairwise fun a b => ¬ (p a = true ∧ p b = true)) : (l.filter p).length ≤ 1 := by
  induction l with
  | nil => exact Nat.zero_le 1
  | cons a l ih =>
      obtain ⟨hHead, hTail⟩ := List.pairwise_cons.1 h
      by_cases ha : p a = true
      · have hRest : l.filter p = [] :=
          List.filter_eq_nil_iff.2 fun b hb hp => hHead b hb ⟨ha, hp⟩
        rw [List.filter_cons_of_pos ha, hRest]
        exact Nat.le_refl 1
      · rw [List.filter_cons_of_neg ha]
        exact ih hTail

/-- The first match is the only one, whatever the order. -/
theorem find?_perm {l l' : List α} (hPerm : l'.Perm l) (h : (l.filter p).length ≤ 1) :
    l'.find? p = l.find? p := by
  have hFilter := hPerm.filter p
  rw [← List.head?_filter, ← List.head?_filter]
  match hCase : l.filter p, h with
  | [], _ =>
      rw [hCase] at hFilter
      rw [hFilter.eq_nil]
  | [a], _ =>
      rw [hCase] at hFilter
      rw [List.perm_singleton.1 hFilter]
  | _ :: _ :: _, hTwo => simp at hTwo

end Lookup

/-! ## Runs of calls -/

/-- The windows are as promised, an address has one device at most, and the
same calls in another order give a table that answers alike. -/
structure Collisionless (calls : List (MmioCall δ)) (maps : List (IOMap δ)) : Prop where
  windows : Windows maps
  unique : ∀ x, (maps.filter (·.inside x)).length ≤ 1
  order : ∀ calls' : List (MmioCall δ), calls'.Perm calls →
    ∃ maps', register [] calls' = some maps' ∧ ∀ x, fetchMmioMap maps' x = fetchMmioMap maps x

/-- **Device windows do not collide exactly where every window ends in the
address space and none spans `pmem`.** -/
theorem registered_collisionless_iff (calls : List (MmioCall δ)) (maps : List (IOMap δ))
    (hLen : ∀ c ∈ calls, c.len ≠ 0#32) (hRun : register [] calls = some maps) :
    Collisionless calls maps ↔ ∀ c ∈ calls, c.Fits := by
  refine ⟨fun h => (windows_iff hLen hRun).1 h.windows, fun h => ?_⟩
  have hWindows := (windows_iff hLen hRun).2 h
  have hUnique (x : Word) : (maps.filter (·.inside x)).length ≤ 1 :=
    length_filter_le_one (hWindows.apart.imp fun hApart => hApart x)
  refine ⟨hWindows, hUnique, fun calls' hPerm => ?_⟩
  obtain ⟨hLength, hEnds, hApart, rfl⟩ :=
    (register_iff (Nat.zero_le _) List.Pairwise.nil).1 hRun
  refine ⟨calls'.map MmioCall.map, (register_iff (Nat.zero_le _) List.Pairwise.nil).2
    ⟨?_, fun c hc => hEnds c (hPerm.mem_iff.1 hc), ?_, rfl⟩, fun x => ?_⟩
  · rwa [hPerm.length_eq]
  · refine (List.Perm.pairwise_iff (fun hab hba => hab (Meets.symm hba)) ?_).2 hApart
    exact (hPerm.map MmioCall.map).append_left []
  · exact find?_perm (hPerm.map MmioCall.map) (hUnique x)

/-! ## The devices of the repository -/

/-- The call that fills an entry. -/
def MmioCall.of (m : IOMap δ) : MmioCall δ :=
  ⟨m.low, m.high - m.low + 1#32, m.space, m.setSpace, m.callback⟩

theorem map_of (m : IOMap δ) : (MmioCall.of m).map = m := by
  have hHigh : m.low + (m.high - m.low + 1#32) - 1#32 = m.high := by
    apply BitVec.eq_of_toNat_eq
    simp only [BitVec.toNat_sub, BitVec.toNat_add, BitVec.toNat_ofNat]
    omega
  simp only [MmioCall.map, MmioCall.of, hHigh]

/-- The calls of `init_device` with the default `Kconfig`. -/
def deviceCalls : List (MmioCall Devices) := Devices.maps.map MmioCall.of

/-- `init_device` registers every device. -/
theorem register_devices : register [] deviceCalls = some Devices.maps := by
  have hMaps : deviceCalls.map MmioCall.map = Devices.maps := by
    rw [deviceCalls, List.map_map]
    exact List.map_id'' (fun m => map_of m) _
  refine (register_iff (Nat.zero_le _) List.Pairwise.nil).2 ⟨by decide, by decide, ?_, ?_⟩
  · rw [hMaps]
    decide
  · rw [hMaps]
    rfl

/-- The devices of the repository do not collide. -/
theorem devices_collisionless : Collisionless deviceCalls Devices.maps :=
  (registered_collisionless_iff deviceCalls Devices.maps (by decide) register_devices).2 (by decide)

/-- A window of 512 MiB that ends at `0x90000000`. -/
def spanningCall : MmioCall Unit :=
  ⟨0x70000000#32, 0x20000000#32, fun _ _ => 0#8, fun _ d => d, none⟩

/-- It spans `pmem`, and its ends are all that is looked at. -/
theorem spanning_registered :
    register [] [spanningCall] = some [spanningCall.map] ∧
      ¬ Collisionless [spanningCall] [spanningCall.map] := by
  have hRun : register [] [spanningCall] = some [spanningCall.map] :=
    (register_iff (Nat.zero_le _) List.Pairwise.nil).2 ⟨by decide, by decide, by decide, rfl⟩
  refine ⟨hRun, fun h => ?_⟩
  have hFits := (windows_iff (by decide) hRun).1 h.windows
  exact absurd hFits (by decide)

end Riscv32.Nemu
