import Riscv32.Boot.Loader
import Mathlib.Data.List.Pairwise

/-!
# What the bootloader installs

The loops transfer `size / 4` words.  The data and bss sections are closed by
an `ALIGN`, so that is all of them; of the other sections the bytes after the
last whole word stay in flash.

The two stages are a list of `Data.Bytes` transfers; that no destination is
another's source follows from the regions of the linker script, which keep images
and destinations apart (`transfers_source`).  So every whole word arrives
(`boot_apply`), and a tail is outside every transfer (`boot_tail`).

`boot_installs` is the equivalence, for every layout of the script and every
memory: the program is in place exactly when the tails already were.
-/

namespace Riscv32.Boot

open Riscv32.Data

/-- The transfers of both stages. -/
def transfers (l : Layout) : List Transfer :=
  (l.images.map fun s => .copy s.start s.lma (wordCount s.toSpan)) ++
    [.zero l.bss.start (wordCount l.bss), .zero l.bssExtra.start (wordCount l.bssExtra)]

theorem boot_transfers (l : Layout) (mem : Bytes) :
    boot l mem = Transfer.runAll mem (transfers l) := rfl

/-- The bytes of the whole words of a section. -/
def Span.words (s : Span) : Nat := 4 * (s.size / 4)

/-- A byte after the last whole word. -/
def Span.Tail (s : Span) (x : BitVec 32) : Prop := s.Holds x ∧ ¬ InRange s.start s.words x

section Sizes

variable {s region : Span}

/-- The pointer difference is the number of whole words. -/
theorem wordCount_eq (h : s.In region) (hSmall : region.size < 2147483648) :
    4 * wordCount s = s.words := by
  have hOrder := h.order
  have hEnd := s.end_.isLt
  have hLow := h.low
  have hHigh := h.high
  unfold Span.size at hSmall
  have hDiff : (s.end_ - s.start).toNat = s.size := by
    unfold Span.size
    rw [BitVec.toNat_sub]
    omega
  have hMsb : (s.end_ - s.start).msb = false := by
    rw [BitVec.msb_eq_false_iff_two_mul_lt, hDiff, Span.size]
    omega
  rw [wordCount, BitVec.sshiftRight_eq_of_msb_false hMsb, BitVec.toNat_ushiftRight, hDiff,
    Nat.shiftRight_eq_div_pow]
  rfl

theorem words_le (s : Span) : s.words ≤ s.size := by
  unfold Span.words
  omega

/-- The bytes of a section: whole words, and the tail. -/
theorem holds_iff (x : BitVec 32) : s.Holds x ↔ InRange s.start s.words x ∨ s.Tail x := by
  have hLe := words_le s
  unfold Span.Tail Span.Holds InRange
  omega

/-- A section of whole words has no tail. -/
theorem no_tail (h : s.size % 4 = 0) (x : BitVec 32) : ¬ s.Tail x := by
  unfold Span.Tail Span.Holds Span.words InRange
  omega

end Sizes

/-! ## The transfers do not meet -/

/-- What the region of a section gives. -/
structure Placed (s : Span) : Prop where
  count : 4 * wordCount s = s.words
  aligned : s.start.toNat % 4 = 0
  order : s.start.toNat + s.size = s.end_.toNat
  offFlash : flash.end_.toNat ≤ s.start.toNat ∨ s.end_.toNat ≤ flash.start.toNat

/-- The tails in RAM hold what flash holds for them. -/
def TailsMatch (l : Layout) (mem : Bytes) : Prop :=
  ∀ s ∈ [l.ssblText, l.text, l.rodata], ∀ x, s.Tail x → mem x = mem (s.lma + (x - s.start))

instance : Std.Symm Span.Disjoint := ⟨fun _ _ => Or.symm⟩

instance : DecidableRel Span.Disjoint := fun _ _ => inferInstanceAs (Decidable (_ ∨ _))

section Layout

variable {l : Layout} (h : l.Linked)

include h

theorem placed {s : Span} (hs : s ∈ l.spans) : Placed s := by
  rcases List.mem_cons.mp hs with rfl | hTail
  · have hIn := h.ssblText
    refine ⟨wordCount_eq hIn (by decide), hIn.aligned, ?_, .inr ?_⟩
    · have := hIn.order
      unfold Span.size
      omega
    · exact Nat.le_trans hIn.high (by decide)
  · have hIn := h.inRun s hTail
    refine ⟨wordCount_eq hIn (by decide), hIn.aligned, ?_, .inl ?_⟩
    · have := hIn.order
      unfold Span.size
      omega
    · exact Nat.le_trans (by decide) hIn.low

/-- Destinations are the sections, up to their last whole word. -/
theorem transfers_dst :
    (transfers l).map (fun t => (t.dst, t.bytes)) = l.spans.map fun s => (s.start, s.words) := by
  have hCount : ∀ s ∈ l.spans, (s.start, s.words) = (s.start, 4 * wordCount s) :=
    fun s hs => by rw [(placed h hs).count]
  rw [List.map_congr_left hCount]
  rfl

theorem transfers_pairwise :
    (transfers l).Pairwise fun t u => Apart t.dst t.bytes u.dst u.bytes := by
  have hSpans : (l.spans.map fun s => (s.start, s.words)).Pairwise
      fun a b => Apart a.1 a.2 b.1 b.2 := by
    rw [List.pairwise_map]
    refine h.disjoint.imp_of_mem fun {s s'} hs hs' hDisj => ?_
    have hPlaced := (placed h hs).order
    have hPlaced' := (placed h hs').order
    have hLe := words_le s
    have hLe' := words_le s'
    unfold Span.Disjoint at hDisj
    change s.start.toNat + s.words ≤ s'.start.toNat ∨ s'.start.toNat + s'.words ≤ s.start.toNat
    omega
  rw [← transfers_dst h, List.pairwise_map] at hSpans
  exact hSpans

/-- The section a transfer fills. -/
theorem span_of_transfer {t : Transfer} (ht : t ∈ transfers l) :
    ∃ s ∈ l.spans, t.dst = s.start ∧ t.bytes = s.words := by
  have hMem : (t.dst, t.bytes) ∈ (transfers l).map fun t => (t.dst, t.bytes) :=
    List.mem_map_of_mem ht
  rw [transfers_dst h, List.mem_map] at hMem
  obtain ⟨s, hs, hEq⟩ := hMem
  exact ⟨s, hs, (congrArg Prod.fst hEq).symm, (congrArg Prod.snd hEq).symm⟩

omit h in
theorem mem_spans_of_image {s : Image} (hs : s ∈ l.images) : s.toSpan ∈ l.spans := by
  have hMap : s.toSpan ∈ l.images.map Image.toSpan := List.mem_map_of_mem hs
  have hPrefix : l.spans = l.images.map Image.toSpan ++ [l.bss, l.bssExtra] := rfl
  rw [hPrefix]
  exact List.mem_append_left _ hMap

omit h in
/-- A transfer copies a section or clears one. -/
theorem transfer_cases {t : Transfer} (ht : t ∈ transfers l) :
    (∃ s ∈ l.images, t = .copy s.start s.lma (wordCount s.toSpan)) ∨
      ∃ s ∈ [l.bss, l.bssExtra], t = .zero s.start (wordCount s) := by
  rcases List.mem_append.mp ht with hCopy | hZero
  · obtain ⟨s, hs, rfl⟩ := List.mem_map.mp hCopy
    exact .inl ⟨s, hs, rfl⟩
  · rcases List.mem_pair.mp hZero with rfl | rfl
    · exact .inr ⟨l.bss, by simp, rfl⟩
    · exact .inr ⟨l.bssExtra, by simp, rfl⟩

omit h in
theorem mem_spans_of_bss {s : Span} (hs : s ∈ [l.bss, l.bssExtra]) : s ∈ l.spans := by
  have hPrefix : l.spans = l.images.map Image.toSpan ++ [l.bss, l.bssExtra] := rfl
  rw [hPrefix]
  exact List.mem_append_right _ hs

theorem transfers_fit {t : Transfer} (ht : t ∈ transfers l) : t.Fits := by
  rcases transfer_cases ht with ⟨s, hs, rfl⟩ | ⟨s, hs, rfl⟩
  · have hPlaced := placed h (mem_spans_of_image hs)
    have hLoaded := h.loaded s hs
    have hLe := words_le s.toSpan
    have hEnd := s.end_.isLt
    have hFlash := hLoaded.high
    have hOrder := hPlaced.order
    have hTop : flash.end_.toNat ≤ 4294967296 := by decide
    change s.start.toNat + 4 * wordCount s.toSpan ≤ 4294967296 ∧
      s.lma.toNat + 4 * wordCount s.toSpan ≤ 4294967296
    rw [hPlaced.count]
    omega
  · have hPlaced := placed h (mem_spans_of_bss hs)
    have hLe := words_le s
    have hEnd := s.end_.isLt
    have hOrder := hPlaced.order
    change s.start.toNat + 4 * wordCount s ≤ 4294967296
    rw [hPlaced.count]
    omega

/-- Images lie in flash, destinations do not. -/
theorem transfers_source {t u : Transfer} (ht : t ∈ transfers l) (hu : u ∈ transfers l) :
    t.SourceApart u.dst u.bytes := by
  rcases transfer_cases ht with ⟨s, hs, rfl⟩ | ⟨s, hs, rfl⟩
  · obtain ⟨s', hs', hDst, hBytes⟩ := span_of_transfer h hu
    have hCount := (placed h (mem_spans_of_image hs)).count
    have hLe := words_le s.toSpan
    have hLe' := words_le s'
    have hLow := (h.loaded s hs).low
    have hHigh := (h.loaded s hs).high
    have hOrder := (placed h hs').order
    have hOff := (placed h hs').offFlash
    change Apart s.lma (4 * wordCount s.toSpan) u.dst u.bytes
    rw [hDst, hBytes, hCount]
    unfold Apart
    omega
  · trivial

/-! ## Both stages -/

/-- The whole words arrive, and nothing else changes. -/
theorem boot_apply (mem : Bytes) :
    (∀ s ∈ l.images, ∀ x, InRange s.start s.words x →
      boot l mem x = mem (s.lma + (x - s.start))) ∧
    (∀ s ∈ [l.bss, l.bssExtra], ∀ x, InRange s.start s.words x → boot l mem x = 0) ∧
    ∀ x, (∀ s ∈ l.spans, ¬ InRange s.start s.words x) → boot l mem x = mem x := by
  obtain ⟨hIn, hOut⟩ := runAll_apply mem (fun t ht => transfers_fit h ht) (transfers_pairwise h)
    fun t ht u hu => transfers_source h ht hu
  rw [boot_transfers]
  refine ⟨fun s hs x hx => ?_, fun s hs x hx => ?_, fun x hx => ?_⟩
  · have hMem : Transfer.copy s.start s.lma (wordCount s.toSpan) ∈ transfers l :=
      List.mem_append_left _ (List.mem_map_of_mem hs)
    rw [← (placed h (mem_spans_of_image hs)).count] at hx
    exact hIn _ hMem x hx
  · have hMem : Transfer.zero s.start (wordCount s) ∈ transfers l := by
      refine List.mem_append_right _ ?_
      rcases List.mem_pair.mp hs with rfl | rfl <;> simp
    rw [← (placed h (mem_spans_of_bss hs)).count] at hx
    exact hIn _ hMem x hx
  · refine hOut x fun t ht hWrites => ?_
    obtain ⟨s, hs, hDst, hBytes⟩ := span_of_transfer h ht
    unfold Transfer.Writes at hWrites
    rw [hDst, hBytes] at hWrites
    exact hx s hs hWrites

/-- A tail is outside every transfer. -/
theorem boot_tail (mem : Bytes) {s : Image} (hs : s ∈ l.images) {x : BitVec 32}
    (hx : s.Tail x) : boot l mem x = mem x := by
  refine (boot_apply h mem).2.2 x fun s' hs' hIn => ?_
  have hMine := mem_spans_of_image hs
  by_cases hEq : s' = s.toSpan
  · subst hEq
    exact hx.2 hIn
  · have hDisj := h.disjoint.forall hMine hs' (Ne.symm hEq)
    have hOrder := (placed h hMine).order
    have hOrder' := (placed h hs').order
    have hLe := words_le s'
    have hTail := hx.1
    unfold Span.Disjoint at hDisj
    unfold Span.Holds at hTail
    unfold InRange at hIn hTail
    omega

/-- The sections that an `ALIGN` closes have no tail. -/
theorem closed_no_tail {s : Span} (hs : s ∈ l.spans) (hEnd : s.end_.toNat % 4 = 0)
    (x : BitVec 32) : ¬ s.Tail x := by
  refine no_tail ?_ x
  have hOrder := (placed h hs).order
  have hAligned := (placed h hs).aligned
  omega

/-- An image is open, or an `ALIGN` closes it. -/
theorem image_cases {s : Image} (hs : s ∈ l.images) :
    s ∈ [l.ssblText, l.text, l.rodata] ∨ s.end_.toNat % 4 = 0 := by
  simp only [Layout.images, List.mem_cons, List.not_mem_nil, or_false] at hs ⊢
  have hData := h.data
  have hExtra := h.dataExtra
  rcases hs with rfl | rfl | rfl | rfl | rfl
  · exact .inl (.inl rfl)
  · exact .inl (.inr (.inl rfl))
  · exact .inl (.inr (.inr rfl))
  · exact .inr hData
  · exact .inr (by omega)

theorem boot_bss (mem : Bytes) {s : Span} (hs : s ∈ [l.bss, l.bssExtra]) {x : BitVec 32}
    (hx : s.Holds x) : boot l mem x = 0 := by
  have hEnd : s.end_.toNat % 4 = 0 := by
    have hExtra := h.bssExtra
    rcases List.mem_pair.mp hs with rfl | rfl
    · exact h.bss
    · omega
  rcases (holds_iff x).mp hx with hWords | hTail
  · exact (boot_apply h mem).2.1 s hs x hWords
  · exact absurd hTail (closed_no_tail h (mem_spans_of_bss hs) hEnd x)

/-- The program is in place exactly when the tails already were. -/
theorem installed_iff (mem : Bytes) : l.Installed mem (boot l mem) ↔ TailsMatch l mem := by
  constructor
  · intro hDone s hs x hx
    have hImage : s ∈ l.images := by
      simp only [List.mem_cons, List.not_mem_nil, or_false] at hs
      rcases hs with rfl | rfl | rfl <;> simp [Layout.images]
    rw [← boot_tail h mem hImage hx]
    exact hDone.image s hImage x hx.1
  · intro hTails
    refine ⟨fun s hs x hx => ?_, fun x hx => ?_, fun x hx => ?_, fun x hx => ?_⟩
    · rcases (holds_iff x).mp hx with hWords | hTail
      · exact (boot_apply h mem).1 s hs x hWords
      · rcases image_cases h hs with hOpen | hEnd
        · rw [boot_tail h mem hs hTail]
          exact hTails s hOpen x hTail
        · exact absurd hTail (closed_no_tail h (mem_spans_of_image hs) hEnd x)
    · exact boot_bss h mem (by simp) hx
    · exact boot_bss h mem (by simp) hx
    · refine (boot_apply h mem).2.2 x fun s hs hIn => hx s hs ?_
      exact (holds_iff x).mpr (.inl hIn)

/-- A tail can differ from its flash image. -/
theorem tail_differs {s : Image} (hs : s ∈ l.images) (hOpen : s.size % 4 ≠ 0) :
    ∃ mem : Bytes, ∃ x, s.Tail x ∧ mem x ≠ mem (s.lma + (x - s.start)) := by
  have hPlaced := placed h (mem_spans_of_image hs)
  have hLoaded := h.loaded s hs
  have hOrder := hPlaced.order
  have hOff := hPlaced.offFlash
  have hEnd := s.end_.isLt
  have hLow := hLoaded.low
  have hHigh := hLoaded.high
  have hTop : flash.end_.toNat < 4294967296 := by decide
  -- the last byte of the section
  have hLast : (s.end_ - 1).toNat = s.end_.toNat - 1 := by
    rw [BitVec.toNat_sub]
    change (4294967296 - 1 + s.end_.toNat) % 4294967296 = _
    omega
  refine ⟨fun y => if y = s.end_ - 1 then 1 else 0, s.end_ - 1, ⟨?_, ?_⟩, ?_⟩
  · unfold Span.Holds InRange
    omega
  · unfold InRange Span.words
    omega
  · have hFar : s.lma + (s.end_ - 1 - s.start) ≠ s.end_ - 1 := by
      intro hEq
      have hNat := congrArg BitVec.toNat hEq
      rw [BitVec.toNat_add, BitVec.toNat_sub, hLast] at hNat
      omega
    beta_reduce
    rw [if_pos rfl, if_neg hFar]
    decide

/-- **Installation.**  For every layout of the script the two stages put the
program in place exactly when the bytes after the last whole word of
`.ssbl_text`, `.text` and `.rodata` already hold their flash image; whatever
RAM holds before, exactly when these sections have none. -/
theorem boot_installs :
    (∀ mem, l.Installed mem (boot l mem) ↔ TailsMatch l mem) ∧
    ((∀ mem, l.Installed mem (boot l mem)) ↔
      l.ssblText.size % 4 = 0 ∧ l.text.size % 4 = 0 ∧ l.rodata.size % 4 = 0) := by
  refine ⟨installed_iff h, ⟨fun hAll => ?_, fun hSizes mem => ?_⟩⟩
  · have hWhole : ∀ s ∈ [l.ssblText, l.text, l.rodata], s.size % 4 = 0 := by
      intro s hs
      by_contra hOpen
      have hImage : s ∈ l.images := by
        simp only [List.mem_cons, List.not_mem_nil, or_false] at hs
        rcases hs with rfl | rfl | rfl <;> simp [Layout.images]
      obtain ⟨mem, x, hTail, hNe⟩ := tail_differs h hImage hOpen
      exact hNe ((installed_iff h mem).mp (hAll mem) s hs x hTail)
    exact ⟨hWhole _ (by simp), hWhole _ (by simp), hWhole _ (by simp)⟩
  · refine (installed_iff h mem).mpr fun s hs x hx => absurd hx (no_tail ?_ x)
    simp only [List.mem_cons, List.not_mem_nil, or_false] at hs
    rcases hs with rfl | rfl | rfl
    · exact hSizes.1
    · exact hSizes.2.1
    · exact hSizes.2.2

end Layout

/-- A program with three bytes of read-only data. -/
def oddRodata : Layout where
  ssblText := ⟨⟨0x0f000000, 0x0f000010⟩, 0x30000100⟩
  text := ⟨⟨0xa0000000, 0xa0000010⟩, 0x30000110⟩
  rodata := ⟨⟨0xa0000010, 0xa0000013⟩, 0x30000120⟩
  data := ⟨⟨0xa0000020, 0xa0000024⟩, 0x30000124⟩
  dataExtra := ⟨⟨0xa0000030, 0xa0000038⟩, 0x30000128⟩
  bss := ⟨0xa0000040, 0xa0000044⟩
  bssExtra := ⟨0xa0000050, 0xa0000058⟩

theorem oddRodata_linked : oddRodata.Linked := by
  refine ⟨⟨by decide, by decide, by decide, by decide⟩, ?_, ?_, by decide, by decide, by decide,
    by decide, by decide⟩
  · intro s hs
    simp only [oddRodata, Layout.spans, List.tail_cons, List.mem_cons, List.not_mem_nil,
      or_false] at hs
    rcases hs with rfl | rfl | rfl | rfl | rfl | rfl <;>
      exact ⟨by decide, by decide, by decide, by decide⟩
  · intro s hs
    simp only [oddRodata, Layout.images, List.mem_cons, List.not_mem_nil, or_false] at hs
    rcases hs with rfl | rfl | rfl | rfl | rfl <;> exact ⟨by decide, by decide, by decide⟩

theorem boot_installs_oddRodata :
    (∀ mem, oddRodata.Installed mem (boot oddRodata mem)) ↔
      oddRodata.ssblText.size % 4 = 0 ∧ oddRodata.text.size % 4 = 0 ∧
        oddRodata.rodata.size % 4 = 0 :=
  (boot_installs oddRodata_linked).2

/-- Flash holds text in `.rodata`, RAM zeros: the text never arrives. -/
theorem rodata_dropped :
    oddRodata.Linked ∧
      ¬ oddRodata.Installed (fun x => if x = 0x30000120 then 0x68 else 0)
        (boot oddRodata fun x => if x = 0x30000120 then 0x68 else 0) := by
  refine ⟨oddRodata_linked, fun hDone => ?_⟩
  have hByte := hDone.image oddRodata.rodata (by simp [Layout.images]) 0xa0000010
    ⟨by decide, by decide⟩
  revert hByte
  decide +kernel

end Riscv32.Boot
