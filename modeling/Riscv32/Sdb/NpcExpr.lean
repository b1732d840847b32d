import Riscv32.Sdb.Inspect

/-!
# The simulator's debugger against NEMU's

`npc/csrc/monitor/sdb/expr.cpp` is the text of NEMU's `expr.c` with three other
ways to the machine: `$pc` is the pc register of the decode stage, a register is a
word of `rf` in `WBU.sv`, and a dereference indexes the array `memory` with the
guest address itself.  Every mapped guest address lies far behind that array.

Both debuggers are `expr` at a `Target` each, in states that agree in everything
architectural (`StatesAgree`).  On an expression without dereferences they read
the same tokens alike, except for `$pc`; with one, the simulator has no answer.

`answers_agree_iff` has the exact conditions, for every expression in the domain.
-/

namespace Riscv32.Sdb

open Riscv32.Rtl Riscv32.Nemu

variable {δ : Type}

/-- What the simulator's debugger reads: `idu_pc`, `cpu.pc`, `rf` and `memory`. -/
structure NpcSim where
  iduPc : Word
  cpuPc : Word
  rf : Nat → Word
  memory : Nat → Word

/-- `N`, the length of `memory`. -/
abbrev memoryLen : Nat := 16777216

/-- `eval` of `expr.cpp`; an index behind `memory` has no value. -/
def npcTarget : Target NpcSim where
  pc n := n.iduPc
  gpr n i := n.rf i
  load addr n :=
    if (addr >>> 2).toNat < memoryLen then .ok (n.memory (addr >>> 2).toNat, n)
    else .error .access

/-- The guest byte at `addr`, where `pmem_read` finds it. -/
def NpcSim.guestByte (n : NpcSim) (addr : Word) : BitVec 8 :=
  let off := addr - 0x80000000#32
  (n.memory (off >>> 2).toNat).extractLsb' (8 * (off.toNat % 4)) 8

/-- The architectural pc, `x0` to `x15` and the guest bytes that `memory` holds agree. -/
structure StatesAgree (n : NpcSim) (s : Sys δ) : Prop where
  pc : n.cpuPc = s.pc
  gpr : ∀ i < 16, n.rf i = s.gpr (BitVec.ofNat 5 i)
  bytes : ∀ addr, inPmem addr = true → ((addr - 0x80000000#32) >>> 2).toNat < memoryLen →
    n.guestByte addr = s.pmem addr

/-- The register a token names. -/
def regIndex (tok : Token) : Option Nat := regs.findIdx? (· = tok.str.drop 1)

/-- A token `$pc`. -/
def isPc (tok : Token) : Prop := tok.type = .dollar ∧ tok.str.drop 1 = ['p', 'c']

/-- NEMU returns for `e`, which names only `x1` to `x15` and the pc and
dereferences only mapped guest memory. -/
structure InDomain (cfg : Config δ) (e : List Char) (s : Sys δ) : Prop where
  returns : ∃ r s', expr (nemuTarget cfg) e false s = .ok (r, s')
  names : ∀ tokens, makeToken e = .ok (some tokens) → ∀ tok ∈ tokens, tok.type = .dollar →
    ∀ i, regIndex tok = some i → i < 16
  mapped : MemoryOnly cfg s e

/-- Both debuggers return the same value. -/
def SameAnswer (cfg : Config δ) (e : List Char) (s : Sys δ) (n : NpcSim) : Prop :=
  ∃ r s' n', expr (nemuTarget cfg) e false s = .ok (r, s') ∧ expr npcTarget e false n = .ok (r, n')

/-- `e` has a token `$pc`. -/
def NamesPc (e : List Char) : Prop :=
  ∃ tokens, makeToken e = .ok (some tokens) ∧ ∃ tok ∈ tokens, isPc tok

section Agreement

variable {cfg : Config δ} {s : Sys δ} {n : NpcSim}

/-- Tokens are read alike. -/
theorem single_alike {tok : Token} (hAgree : StatesAgree n s) (hPc : isPc tok → n.iduPc = s.pc)
    (hName : tok.type = .dollar → ∀ i, regIndex tok = some i → i < 16) :
    (nemuTarget cfg).single tok s = npcTarget.single tok n := by
  unfold Target.single
  split
  · rfl
  · rfl
  case h_3 hType =>
    split
    case isTrue hStr => exact (hPc ⟨hType, hStr⟩).symm
    case isFalse =>
      cases hIdx : regs.findIdx? (· = tok.str.drop 1) with
      | none => rfl
      | some i => exact (hAgree.gpr i (hName hType i hIdx)).symm
  · rfl

/-- Every mapped address is behind `memory`. -/
theorem memoryLen_le {b : Build} {addr : Word} (hMem : readable b addr = true) :
    memoryLen ≤ (addr >>> 2).toNat := by
  have hLow : 0x0f000000 ≤ addr.toNat := by
    have hLt := addr.isLt
    by_contra hSmall
    cases b <;>
      simp only [readable, inSram, inMrom, inFlash, inPsram, inSdram, inPmem, within, BitVec.ult,
        Bool.or_eq_true, decide_eq_true_eq, BitVec.toNat_sub, BitVec.toNat_ofNat] at hMem <;>
      omega
  rw [BitVec.toNat_ushiftRight, Nat.shiftRight_eq_div_pow]
  simp only [memoryLen]
  omega

theorem npc_load_mapped {b : Build} {addr : Word} (hMem : readable b addr = true) :
    npcTarget.load addr n = .error .access :=
  if_neg (Nat.not_lt.2 (memoryLen_le hMem))

/-- NEMU without its devices. -/
def memTarget (cfg : Config δ) : Target (Sys δ) where
  pc s := s.pc
  gpr s i := s.gpr (BitVec.ofNat 5 i)
  load addr s :=
    if readable cfg.build addr then .ok (hostRead s.pmem addr 4, s) else .error .access

theorem load_mapped {addr : Word} {s : Sys δ} (hMem : readable cfg.build addr = true) :
    (nemuTarget cfg).load addr s = .ok (hostRead s.pmem addr 4, s) := by
  simp [nemuTarget, Sys.vaddrRead, hMem]

/-- An evaluation inside guest memory does not need the devices. -/
theorem evals_memory {e : List Char} {tokens : List Token} {s' : Sys δ} {v : Word}
    (hTok : makeToken e = .ok (some tokens)) (h : Evals (nemuTarget cfg) tokens s v s')
    (hMem : MemoryOnly cfg s e) :
    Evals (memTarget cfg).logged tokens (s, []) v (s', derefs (nemuTarget cfg) e s) := by
  obtain ⟨r', hEval, rfl⟩ := (evals_logged hTok h).simulateOn (u := (memTarget cfg).logged)
    (R := fun x r => r = x) (r := (s, [])) hMem (fun tok _ x r hR => by subst hR; rfl) (by
      rintro addr v x s' r hAddr hLoad rfl
      rw [load_mapped hAddr] at hLoad
      cases hLoad
      exact ⟨_, by simp [Target.logged, memTarget, hAddr, Except.map], rfl⟩) rfl
  exact hEval

theorem tokens_alike {e : List Char} {tokens : List Token} (hAgree : StatesAgree n s)
    (hDom : InDomain cfg e s) (hPc : n.iduPc = s.pc ∨ ¬ NamesPc e)
    (hTok : makeToken e = .ok (some tokens)) :
    ∀ tok ∈ tokens, (nemuTarget cfg).single tok s = npcTarget.single tok n := by
  intro tok hMem
  refine single_alike hAgree (fun hIs => ?_) (hDom.names tokens hTok tok hMem)
  rcases hPc with hPc | hPc
  · exact hPc
  · exact absurd ⟨tokens, hTok, tok, hMem, hIs⟩ hPc

/-- Where `$pc` is no obstacle, the answers agree exactly without dereferences. -/
theorem sameAnswer_iff {e : List Char} (hAgree : StatesAgree n s) (hDom : InDomain cfg e s)
    (hPc : n.iduPc = s.pc ∨ ¬ NamesPc e) :
    SameAnswer cfg e s n ↔ derefs (nemuTarget cfg) e s = [] := by
  obtain ⟨⟨⟨v, b⟩, s', hNemu⟩, -, hMapped⟩ := id hDom
  rcases expr_ok hNemu with ⟨hTok, -, -, -⟩ | ⟨tokens, hTok, -, hEval⟩
  · exact ⟨fun _ => derefs_of_makeToken_none hTok, fun _ =>
      ⟨_, _, _, expr_of_makeToken_none hTok, expr_of_makeToken_none hTok⟩⟩
  · have hAlike := tokens_alike hAgree hDom hPc hTok
    constructor
    · rintro ⟨⟨w, b'⟩, -, n', -, hNpc⟩
      rcases expr_ok hNpc with ⟨hTok', -⟩ | ⟨tokens', hTok', -, hEval'⟩
      · rw [hTok] at hTok'
        cases hTok'
      · rw [hTok] at hTok'
        cases hTok'
        -- the first dereference would have to succeed on both sides
        have hBoth := (evals_memory hTok hEval hMapped).agree hEval' hAlike (by
          intro addr p q hNemu hNpc
          have hMem : readable cfg.build addr = true := by
            by_contra hOut
            simp [Target.logged, memTarget, hOut, Except.map] at hNemu
          rw [npc_load_mapped hMem] at hNpc
          cases hNpc)
        exact congrArg Prod.snd hBoth.2.1
    · intro hNone
      have hLogged := evals_logged hTok hEval
      rw [hNone] at hLogged
      obtain ⟨n', hNpc, -⟩ := hLogged.simulateOn (u := npcTarget) (P := fun _ => False)
        (R := fun x r => x.1 = s ∧ r = n) (r := n) (by simp)
        (fun tok hMem x r hR => by rw [hR.1, hR.2]; exact hAlike tok hMem)
        (fun hFalse => hFalse.elim) ⟨rfl, rfl⟩
      exact ⟨(v, false), s', n', expr_of_evals hTok hEval false, expr_of_evals hTok hNpc false⟩

/-! ## `$pc` -/

/-- `$pc`. -/
def pcText : List Char := ['$', 'p', 'c']

theorem makeToken_pc : makeToken pcText = .ok (some [Lexeme.pc.token]) :=
  makeToken_spells (spells_singleton .pc) (follow_lexemes .pc) (by decide)

theorem expr_pc {σ : Type} (t : Target σ) (s : σ) :
    expr t pcText false s = .ok ((t.pc s, false), s) :=
  @expr_spells σ t s .pc trivial pcText (spells_singleton .pc) (by decide) false

theorem derefs_pc : derefs (nemuTarget cfg) pcText s = [] := by
  rw [derefs, expr_pc]

theorem inDomain_pc : InDomain cfg pcText s where
  returns := ⟨_, _, expr_pc _ s⟩
  names := by
    intro tokens hTok tok hMem _ i hIdx
    rw [makeToken_pc] at hTok
    cases hTok
    rw [List.mem_singleton.1 hMem] at hIdx
    exact absurd hIdx (by decide +revert)
  mapped := by
    intro a ha
    rw [derefs_pc] at ha
    cases ha

/-- In agreeing states the answers to an expression that does not name a stale
`$pc` are the same exactly if it dereferences nothing, and the answers to all
expressions without dereference are the same exactly if the decode stage holds
the architectural pc. -/
theorem answers_agree_iff (cfg : Config δ) (s : Sys δ) (n : NpcSim) (hAgree : StatesAgree n s) :
    (∀ e, InDomain cfg e s → n.iduPc = s.pc ∨ ¬ NamesPc e →
      (SameAnswer cfg e s n ↔ derefs (nemuTarget cfg) e s = [])) ∧
    ((∀ e, InDomain cfg e s → derefs (nemuTarget cfg) e s = [] → SameAnswer cfg e s n) ↔
      n.iduPc = s.pc) := by
  refine ⟨fun e hDom hPc => sameAnswer_iff hAgree hDom hPc, ?_, ?_⟩
  · intro hAll
    obtain ⟨r, s', n', hNemu, hNpc⟩ := hAll pcText inDomain_pc derefs_pc
    have hSys : s.pc = r.1 := by
      rw [expr_pc] at hNemu
      cases hNemu
      rfl
    have hSim : n.iduPc = r.1 := by
      rw [expr_pc] at hNpc
      cases hNpc
      rfl
    exact hSim.trans hSys.symm
  · intro hPc e hDom hNone
    exact (sameAnswer_iff hAgree hDom (.inl hPc)).2 hNone

end Agreement

/-- The simulator in the state of `stoppedSys`. -/
def stoppedSim : NpcSim where
  iduPc := 0x80000000#32
  cpuPc := 0x80000000#32
  rf _ := 0
  memory _ := 0x13131313#32

theorem stoppedSim_agrees : StatesAgree stoppedSim stoppedSys where
  pc := rfl
  gpr _ _ := rfl
  bytes := by
    intro addr _ _
    have hByte : ∀ k < 4, (0x13131313#32).extractLsb' (8 * k) 8 = 0x13#8 := by decide
    exact hByte _ (Nat.mod_lt _ (by decide))

theorem answers_agree_iff_pc :
    StatesAgree stoppedSim stoppedSys ∧ InDomain defaultConfig pcText stoppedSys ∧
      SameAnswer defaultConfig pcText stoppedSys stoppedSim :=
  ⟨stoppedSim_agrees, inDomain_pc,
    (answers_agree_iff defaultConfig stoppedSys stoppedSim stoppedSim_agrees).2.2 rfl pcText
      inDomain_pc derefs_pc⟩

/-- `*0x80000000`, the first word of guest memory, has no answer in the simulator. -/
theorem deref_answers_differ :
    StatesAgree stoppedSim stoppedSys ∧ stoppedSim.iduPc = stoppedSys.pc ∧
      InDomain defaultConfig ('*' :: pmemNumeral.text) stoppedSys ∧
      ¬ SameAnswer defaultConfig ('*' :: pmemNumeral.text) stoppedSys stoppedSim := by
  refine ⟨stoppedSim_agrees, rfl, ⟨?_, ?_, pmem_memoryOnly⟩, ?_⟩
  · rw [expr_star, load_pmem]
    exact ⟨_, _, rfl⟩
  · intro tokens hTok tok hMem hType
    rw [makeToken_star] at hTok
    cases hTok
    rcases List.mem_cons.1 hMem with rfl | hMem
    · cases hType
    · rw [List.mem_singleton.1 hMem] at hType
      cases hType
  · rintro ⟨r, s', n', -, hNpc⟩
    rw [expr_star, npc_load_mapped (show readable .plain _ = true by decide)] at hNpc
    cases hNpc

end Riscv32.Sdb
