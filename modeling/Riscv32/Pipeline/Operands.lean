import Riscv32.Pipeline.Front

/-!
# Operands in flight

The interlock keeps a word out of decode while any of the four producer
windows writes a register it uses.  So the operands latched with an
instruction are current, and no older instruction still in flight is going to
change them; both stay true while the older ones commit.

The instructions in flight are seen as a queue (`window`): the oldest leaves with
its commit, a word that decode takes joins at the end, and nothing else moves it
(`window_step`).  `producerMatch_of_writes` connects the queue with the comparators
of the source, which look at stages and at four bits of a register number; hence
`RegsBelow16`.

`operandsOk_of_take` is the interlock, and `AllOk.retire` keeps what it gives
while older instructions commit.
-/

namespace Riscv32.Pipeline

open Riscv32.Rtl

/-- The decoded instruction writes register `r` when it commits. -/
def Writes (d : IduOut) (r : BitVec 5) : Prop :=
  d.rfWe = true ∧ d.rd ≠ 0 ∧ d.rd = r

/-- RV32E: every register field the word uses names one of sixteen registers. -/
structure RegsBelow16 (inst : Word) : Prop where
  rs1 : usesRs1 inst = true → (rs1Idx inst).toNat < 16
  rs2 : usesRs2 inst = true → (rs2Idx inst).toNat < 16
  rd : (decodeTaken inst).rfWe = true → (rdIdx inst).toNat < 16

instance (inst : Word) : Decidable (RegsBelow16 inst) :=
  decidable_of_iff
    ((usesRs1 inst = true → (rs1Idx inst).toNat < 16) ∧
      (usesRs2 inst = true → (rs2Idx inst).toNat < 16) ∧
      ((decodeTaken inst).rfWe = true → (rdIdx inst).toNat < 16))
    ⟨fun ⟨h1, h2, h3⟩ => ⟨h1, h2, h3⟩, fun h => ⟨h.rs1, h.rs2, h.rd⟩⟩

/-- `v` is the value of register `r` and stays so while `older` commit. -/
structure Current (rf : RegFile) (older : List IduOut) (r : BitVec 5) (v : Word) : Prop where
  value : v = rf.read r
  noWriter : ∀ o ∈ older, ¬ Writes o r

/-- The operands latched in `d` are current. -/
structure OperandsOk (rf : RegFile) (older : List IduOut) (d : IduOut) : Prop where
  src1 : usesRs1 d.inst = true → (rs1Idx d.inst).toNat < 16 →
    Current rf older (rs1Idx d.inst) d.src1Data
  src2 : usesRs2 d.inst = true → (rs2Idx d.inst).toNat < 16 →
    Current rf older (rs2Idx d.inst) d.src2Data

/-- Each instruction of `l`, oldest first, has operands current with respect to
the ones before it. -/
def AllOk (rf : RegFile) (l : List IduOut) : Prop :=
  ∀ older d younger, l = older ++ d :: younger → OperandsOk rf older d

theorem AllOk.concat {rf : RegFile} {l : List IduOut} {d : IduOut} (h : AllOk rf l)
    (hd : OperandsOk rf l d) : AllOk rf (l ++ [d]) := by
  intro older d' younger hEq
  rcases List.eq_nil_or_concat younger with rfl | ⟨younger', d'', rfl⟩
  · obtain ⟨rfl, hLast⟩ := List.append_inj' hEq rfl
    cases hLast
    exact hd
  · refine h older d' younger' ?_
    have hAssoc : l ++ [d] = (older ++ d' :: younger') ++ [d''] := by simp [hEq]
    exact (List.append_inj' hAssoc rfl).1

/-! ## Commits -/

/-- Below sixteen the low four bits of a register number determine it. -/
private theorem setWidth_four_inj {a b : BitVec 5} (ha : a.toNat < 16) (hb : b.toNat < 16)
    (h : a.setWidth 4 = b.setWidth 4) : a = b := by
  apply BitVec.eq_of_toNat_eq
  have := congrArg BitVec.toNat h
  simp only [BitVec.toNat_setWidth] at this
  omega

/-- Retiring an instruction leaves the registers it does not write. -/
theorem read_retire {rf : RegFile} {e : Entry} {data : Word} {r : BitVec 5}
    (hNo : ¬ Writes e.d r) (hr : r.toNat < 16)
    (hrd : e.d.rfWe = true → e.d.rd.toNat < 16) :
    (retire rf (e.retired data)).read r = rf.read r := by
  cases hWe : e.d.rfWe && e.d.rd != 0 with
  | false => simp only [retire, Entry.retired, hWe, Bool.false_eq_true, if_false]
  | true =>
      simp only [retire, Entry.retired, hWe, if_true, RegFile.read, RegFile.write]
      simp only [Bool.and_eq_true, bne_iff_ne] at hWe
      by_cases hz : r = 0
      · simp [hz]
      · have hne : r.setWidth 4 ≠ e.d.rd.setWidth 4 := by
          intro hEq
          exact hNo ⟨hWe.1, hWe.2, (setWidth_four_inj hr (hrd hWe.1) hEq).symm⟩
        simp [hne]

section Retire

variable {rf : RegFile} {e : Entry} {older : List IduOut} {data : Word}

theorem Current.retire {r : BitVec 5} {v : Word} (h : Current rf (e.d :: older) r v)
    (hr : r.toNat < 16) (hrd : e.d.rfWe = true → e.d.rd.toNat < 16) :
    Current (Pipeline.retire rf (e.retired data)) older r v where
  value := by
    rw [read_retire (h.noWriter e.d (by simp)) hr hrd]
    exact h.value
  noWriter := fun o ho => h.noWriter o (by simp [ho])

/-- Operands stay current when the oldest instruction commits. -/
theorem AllOk.retire (h : AllOk rf (e.d :: older))
    (hrd : e.d.rfWe = true → e.d.rd.toNat < 16) :
    AllOk (Pipeline.retire rf (e.retired data)) older := by
  rintro older' d younger rfl
  have hOk := h (e.d :: older') d younger rfl
  exact ⟨fun hUse hLt => (hOk.src1 hUse hLt).retire hLt hrd,
    fun hUse hLt => (hOk.src2 hUse hLt).retire hLt hrd⟩

end Retire

/-! ## The interlock -/

/-- The decoded instructions behind fetch, oldest first. -/
def window (s : Core) (f : Flight) : List IduOut :=
  (f.lsu.toList ++ f.exu.toList).map Entry.d ++ if s.idu.outValid then [s.idu.out] else []

section Interlock

variable {arch : Arch} {s : Core} {g : Trace} {f f' : Flight} {i : CoreIn}

/-- Every instruction behind fetch that writes `r` shows in a producer window. -/
theorem producerMatch_of_writes (h : BackInv arch s g f) {o : IduOut} {r : BitVec 5}
    (hWrites : Writes o r) (hFlight : o ∈ window s f) :
    s.idu.producerMatch s.iduIn r = true := by
  obtain ⟨hWe, hNz, hRd⟩ := hWrites
  have hHit : ∀ p : Producer, p.valid = true → p.rfWe = true → p.rd = o.rd →
      p.hits r = true := by
    intro p hv hw hd
    simp only [Producer.hits, hv, hw, hd, hRd, bne_iff_ne.mpr (hRd ▸ hNz), beq_self_eq_true,
      Bool.and_self]
  simp only [window, List.map_append, List.mem_append, List.mem_map, Option.mem_toList] at hFlight
  rcases hFlight with (⟨e, hLsu, rfl⟩ | ⟨e, hExu, rfl⟩) | hIdu
  · have hPhase := h.phase
    rw [hLsu] at hPhase
    have hLatch := lsuPhase_latched hPhase
    rw [Latched] at hLatch
    have hw : s.lsu.outRfWe = true := by rw [hLatch]; exact hWe
    have hd : s.lsu.outRd = e.d.rd := by rw [hLatch]; rfl
    rcases lsuPhase_window hPhase with hV | hP
    · have hHits : s.iduIn.wbu.hits r = true := by
        refine hHit _ hV ?_ hd
        simp only [Core.iduIn, Core.commit, Lsu.commit, hw, hd, bne_iff_ne.mpr hNz, Bool.and_self]
      simp [Idu.producerMatch, hHits]
    · have hHits : s.iduIn.lsuPending.hits r = true := hHit _ hP hw hd
      simp [Idu.producerMatch, hHits]
  · have hOut := h.exuOut e hExu
    have hHits : s.iduIn.exu.hits r = true := by
      refine hHit _ ?_ ?_ ?_
      · simp [Core.iduIn, Exu.producer, h.exuValid, hExu]
      · simp [Core.iduIn, Exu.producer, hOut, IduOut.execute, hWe]
      · simp [Core.iduIn, Exu.producer, hOut, IduOut.execute]
    simp [Idu.producerMatch, hHits]
  · cases hValid : s.idu.outValid with
    | false => simp [hValid] at hIdu
    | true =>
        simp only [hValid, if_true, List.mem_singleton] at hIdu
        subst hIdu
        have hHits : s.idu.producer.hits r = true := hHit _ hValid hWe rfl
        simp [Idu.producerMatch, hHits]

/-- What decode latches when it takes the word in the fetch slot. -/
def taken (s : Core) : IduOut :=
  latch s.ifu.outInst s.ifu.outPc (s.rf.read (rs1Idx s.ifu.outInst))
    (s.rf.read (rs2Idx s.ifu.outInst)) s.ifu.outExceptionValid s.ifu.outExceptionCause

/-- **The interlock**: the operands of a word decode takes are current, and no
instruction still in flight is going to write them. -/
theorem operandsOk_of_take (h : BackInv arch s g f) (hFire : s.iduInFire = true) :
    OperandsOk s.rf (window s f) (taken s) := by
  have hClear : s.idu.rawHazard s.iduIn = false ∧ s.iduIn.inValid = true := by
    simp only [Core.iduInFire, Idu.inFire, Idu.outReady, Bool.and_eq_true,
      Bool.not_eq_true'] at hFire
    exact ⟨hFire.2.1.2, hFire.1⟩
  obtain ⟨hHazard, hIn⟩ := hClear
  have hInst : s.iduIn.inInst = s.ifu.outInst := rfl
  simp only [Idu.rawHazard, Idu.rawHazardRs1, Idu.rawHazardRs2, hIn, hInst,
    Bool.or_eq_false_iff] at hHazard
  constructor
  · intro hUse _
    refine ⟨rfl, fun o ho hWrites => ?_⟩
    have hMatch := producerMatch_of_writes h hWrites ho
    have hNz : rs1Idx s.ifu.outInst ≠ 0 := hWrites.2.2 ▸ hWrites.2.1
    have hUse' : usesRs1 s.ifu.outInst = true := hUse
    have hMatch' : s.idu.producerMatch s.iduIn (rs1Idx s.ifu.outInst) = true := hMatch
    have hFalse := hHazard.1
    simp only [hUse', hMatch', bne_iff_ne.mpr hNz, Bool.and_self, reduceCtorEq] at hFalse
  · intro hUse _
    refine ⟨rfl, fun o ho hWrites => ?_⟩
    have hMatch := producerMatch_of_writes h hWrites ho
    have hNz : rs2Idx s.ifu.outInst ≠ 0 := hWrites.2.2 ▸ hWrites.2.1
    have hUse' : usesRs2 s.ifu.outInst = true := hUse
    have hMatch' : s.idu.producerMatch s.iduIn (rs2Idx s.ifu.outInst) = true := hMatch
    have hFalse := hHazard.2
    simp only [hUse', hMatch', bne_iff_ne.mpr hNz, Bool.and_self, reduceCtorEq] at hFalse

/-- What decode holds leaves with its entry into the execution unit, and a
taken word follows. -/
private theorem iduPart_step (arch : Arch) (s : Core) (i : CoreIn) :
    (if (s.step arch i).idu.outValid then [(s.step arch i).idu.out] else []) =
      (if s.exuInFire then [] else if s.idu.outValid then [s.idu.out] else []) ++
        if s.iduInFire then [taken s] else [] := by
  cases hRedirect : s.redirectFire with
  | true =>
      have hX := (redirectFire_enters hRedirect).1
      have hNo : s.iduInFire = false := by
        cases hFire : s.iduInFire with
        | false => rfl
        | true => simp [(iduInFire_open hFire).2.1] at hRedirect
      simp [iduValid_step, hRedirect, hX, hNo]
  | false =>
      cases hFire : s.iduInFire with
      | true =>
          obtain ⟨-, -, -, hLeave⟩ := iduInFire_open hFire
          have hOut : (s.step arch i).idu.out = taken s := iduOut_take arch i hRedirect hFire
          cases hValid : s.idu.outValid with
          | true => simp [iduValid_step, hRedirect, hFire, hOut, hLeave hValid]
          | false => simp [iduValid_step, hRedirect, hFire, hOut]
      | false =>
          have hOut := iduOut_keep arch i hRedirect hFire
          cases hX : s.exuInFire with
          | true => simp [iduValid_step, hRedirect, hFire, hX]
          | false => simp [iduValid_step, hRedirect, hFire, hX, hOut]

/-- The window is a queue: the oldest leaves with its commit, a taken word
joins at the end, and nothing else changes it. -/
theorem window_step (h : BackInv arch s g f) (hLsu : f'.lsu = lsuNext s f)
    (hExu : f'.exu = exuNext s f) :
    window (s.step arch i) f' =
      (if s.commitFire then (window s f).tail else window s f) ++
        if s.iduInFire then [taken s] else [] := by
  have hEnter := h.exuInFire
  have hCommit := h.commitFire_some
  unfold window
  rw [iduPart_step, hLsu, hExu, lsuNext, exuNext]
  cases hL : f.lsu with
  | none =>
      have hNo : s.commitFire = false := by
        cases hFire : s.commitFire with
        | false => rfl
        | true => obtain ⟨e, he⟩ := hCommit hFire; simp [hL] at he
      cases hX : s.exuInFire with
      | true => simp [hNo, exuInFire_valid hX]
      | false => simp [hNo]
  | some e =>
      cases hX : s.exuInFire with
      | true =>
          rw [hX, hL] at hEnter
          have hE : f.exu = none := by
            cases hE : f.exu with
            | none => rfl
            | some e' => simp [hE] at hEnter
          cases hV : s.lsu.outValid <;>
            simp [Core.commitFire, hV, hE, exuInFire_valid hX]
      | false => cases hV : s.lsu.outValid <;> simp [Core.commitFire, hV]

end Interlock

end Riscv32.Pipeline
