import Riscv32.Chip.Run
import Riscv32.Data.Halves

/-!
# Reading the timer

`timer.c` of the npc and ysyxsoc ports over `CLINT.sv`.  The counter runs on
between the bus reads of a call; the second read of the high word shows whether
the pair can be trusted.

A call is a list of `Access`es, each with the cycles its address and its data are
taken in, at any distance from each other.  `Served` says that the timer answers
them; on the chip this is no assumption but a property of loads from its window
(`busRead_of_load`, `served_of_loads`).

## Main results

* `uptime_is_snapshot` — a call that ends returns the counter as it was in one
  cycle, so later calls do not return less.
* `amTimerUptime_returns` — it ends within two rounds, if these take less than
  `2 ^ 32` cycles.
* `amTimerUptime_on_chip` — both for the chip's own timer and loads.
-/

namespace Riscv32.Am

open Riscv32.Rtl
open Riscv32.Clocked
open Riscv32.Data
open Riscv32.Fabric
open Riscv32.Chip

/-! ## The counter -/

/-- `{mtime_hi, mtime_lo}`. -/
def mtime (c : Clint) : BitVec 64 := c.mtimeHi ++ c.mtimeLo

/-- The timer at the start of cycle `t`. -/
def clintAt (c : Clint) (req : Nat → AxiReq) (t : Nat) : Clint := run Clint.step c req t

theorem mtime_step (c : Clint) (req : AxiReq) : mtime (c.step req) = mtime c + 1 := by
  rw [mtime, mtime, halves_add_one, halves_inj]
  refine ⟨rfl, ?_⟩
  by_cases hTop : c.mtimeLo = 0xffffffff#32
  · simp [Clint.step, hTop]
  · simp [Clint.step, hTop]

/-- The counter counts cycles, whatever is on the bus. -/
theorem mtime_at (c : Clint) (req : Nat → AxiReq) (t : Nat) :
    mtime (clintAt c req t) = mtime c + BitVec.ofNat 64 t := by
  induction t with
  | zero => simp [clintAt]
  | succ t ih =>
      have hStep : clintAt c req (t + 1) = (clintAt c req t).step (req t) := rfl
      rw [hStep, mtime_step, ih, BitVec.add_assoc, BitVec.ofNat_add]
      rfl

/-! ## Bus reads -/

/-- A read of the timer: its address is taken in cycle `ar`, its data in cycle
`r`.  Addresses are the core's. -/
structure Access where
  addr : Word
  ar : Nat
  r : Nat
  data : Word
deriving DecidableEq, Repr

/-- The timer answers the access; no other address is taken in between. -/
structure BusRead (base : Word) (c : Clint) (req : Nat → AxiReq) (a : Access) : Prop where
  before : a.ar < a.r
  arFire : Rtl.arFire (req a.ar) (clintAt c req a.ar).axi = true
  araddr : (req a.ar).araddr = a.addr - base
  quiet : ∀ k, a.ar < k → k < a.r → Rtl.arFire (req k) (clintAt c req k).axi = false
  rFire : Rtl.rFire (req a.r) (clintAt c req a.r).axi = true
  rdata : (clintAt c req a.r).axi.rdata = a.data

/-- The accesses of a program: one after the other, each answered. -/
structure Served (base : Word) (c : Clint) (req : Nat → AxiReq) (l : List Access) : Prop where
  read : ∀ a ∈ l, BusRead base c req a
  order : l.Pairwise fun a b => a.r < b.ar

section Reads

variable {base : Word} {c : Clint} {req : Nat → AxiReq} {a : Access}

/-- Data stays on the bus until the next address is taken. -/
theorem rdata_held {t u : Nat} (ht : t ≤ u)
    (hQuiet : ∀ k, t ≤ k → k < u → Rtl.arFire (req k) (clintAt c req k).axi = false) :
    (clintAt c req u).rdata = (clintAt c req t).rdata := by
  refine run_held Clint.rdata (fun c i => Rtl.arFire i c.axi) ?_ ht hQuiet
  intro c i hNone
  exact if_neg (Bool.eq_false_iff.1 hNone)

/-- What a read returns was put on the bus in the cycle after its address. -/
theorem BusRead.data_eq (h : BusRead base c req a) :
    a.data = (clintAt c req (a.ar + 1)).rdata := by
  rw [← rdata_held (Nat.succ_le_of_lt h.before) fun k h1 => h.quiet k h1, ← h.rdata]
  rfl

/-- A read returns the half it asks for, as it was when the address was taken. -/
theorem BusRead.sample (h : BusRead base c req a) :
    (a.addr = base + 0x48#32 → a.data = (clintAt c req a.ar).mtimeLo) ∧
      (a.addr = base + 0x4c#32 → a.data = (clintAt c req a.ar).mtimeHi) := by
  have hData : a.data = ((clintAt c req a.ar).step (req a.ar)).rdata := h.data_eq
  rw [Clint.step] at hData
  simp only [h.arFire, if_true, h.araddr] at hData
  constructor
  · intro hAddr
    have hLow : a.addr - base = 0x48#32 := by
      rw [hAddr]
      bv_omega
    simpa [hLow] using hData
  · intro hAddr
    have hHigh : a.addr - base = 0x4c#32 := by
      rw [hAddr]
      bv_omega
    simpa [hHigh] using hData

end Reads

/-! ## Loads of the chip -/

section Loads

variable {s : Soc} {io : Nat → AxiResp} {t a : Nat} {r : ReadReq}

/-- What the chip asks of its timer. -/
def clintReqAt (s : Soc) (io : Nat → AxiResp) (t : Nat) : AxiReq := (socAt s io t).fabric.clintReq

theorem clint_socAt (s : Soc) (io : Nat → AxiResp) (t : Nat) :
    (socAt s io t).clint = clintAt s.clint (clintReqAt s io) t :=
  run_project Soc.clint (fun s _ => s.fabric.clintReq) (fun _ _ => rfl) s io t

/-- On the chip a load from the timer is such an access: the arbiter lets no
second read onto the bus before the first has its data. -/
theorem busRead_of_load (hReset : s.AfterReset) (hSoc : SocBursts s.fabric (fabricInp s io))
    (hLast : LastRead s.fabric (fabricInp s io) a r t) (hClint : r.slave = .clint)
    (hTaken : Rtl.rFire (socAt s io t).fabric.lsu.axi
      ((socAt s io t).fabric.lsuResp (fabricInp s io t)) = true) :
    BusRead (clintBase .ysyxsoc) s.clint (clintReqAt s io)
      ⟨r.addr, a, t, ((socAt s io t).fabric.lsuResp (fabricInp s io t)).rdata⟩ := by
  have hRoute := routeInv (Soc.fabric_afterReset hReset) hSoc t
  have hAxi : ∀ k, (clintAt s.clint (clintReqAt s io) k).axi = (fabricInp s io k).clint := by
    intro k
    rw [← clint_socAt]
    rfl
  have hReq : ∀ k, clintReqAt s io k = (fabricAt s.fabric (fabricInp s io) k).clintReq := by
    intro k
    rw [clintReqAt, fabric_socAt]
  rw [fabric_socAt] at hTaken ⊢
  have hOwner := lsuR_eq (fabricAt s.fabric (fabricInp s io) t) (fabricInp s io t)
  rw [hTaken] at hOwner
  have hR : arbR (fabricAt s.fabric (fabricInp s io) t) (fabricInp s io t) = true :=
    (Bool.and_eq_true_iff.1 hOwner.symm).2
  obtain ⟨a', r', hOut⟩ := hRoute.owned (arbR_owned hR)
  obtain ⟨rfl, rfl⟩ := hOut.toLastRead.unique hLast
  have hSlave := hOut.selected hR
  rw [hClint] at hSlave
  have hShake := handshake_of_readAr hLast.ar
  refine ⟨hLast.before, ?_, ?_, ?_, ?_, ?_⟩
  · rw [hReq, hAxi]
    exact hShake.clint.2 hClint
  · rw [hReq]
    exact hShake.clintPayload hClint
  · intro k h1 h2
    have hNone := hLast.quiet k h1 h2
    rw [hReq, hAxi, clintAr_eq]
    cases hFire : arbAr (fabricAt s.fabric (fabricInp s io) k) (fabricInp s io k) with
    | false => simp
    | true => simp [readAr, hFire] at hNone
  · rw [hReq, hAxi, clintR_eq, hR, ← hSlave]
    rfl
  · have hLsu : (fabricAt s.fabric (fabricInp s io) t).arb.readOwner = .lsu := by
      simpa using (Bool.and_eq_true_iff.1 hOwner.symm).1
    rw [hAxi]
    simp [Fabric.lsuResp, Arbiter.axiLsu, hLsu, Fabric.arbResp, SocXbar.axiArb, ← hSlave]

end Loads

/-! ## The call -/

/-- The timer's low word, as the port of the architecture addresses it. -/
def rtcAddr : Arch → Word
  | .npc => 0xa0000048#32
  | .ysyxsoc => 0x02000048#32

/-- What the loop is left with, and the cycle the low word was sampled in. -/
structure Uptime where
  high1 : Word
  low : Word
  sampled : Nat
deriving DecidableEq, Repr

/-- `((uint64_t)high1 << 32) | low`. -/
def Uptime.value (u : Uptime) : BitVec 64 := (u.high1.zeroExtend 64 <<< 32) ||| u.low.zeroExtend 64

/-- The loop of `__am_timer_uptime` along the accesses of the program; the
accesses left over are returned.  `none`: the accesses are not those of a call
that ends. -/
def uptimeLoop (arch : Arch) : List Access → Option (Uptime × List Access)
  | a₁ :: a₂ :: a₃ :: rest =>
      if a₁.addr = rtcAddr arch + 4 ∧ a₂.addr = rtcAddr arch + 0 ∧ a₃.addr = rtcAddr arch + 4 then
        if a₁.data ≠ a₃.data then uptimeLoop arch rest
        else some (⟨a₁.data, a₂.data, a₂.ar⟩, rest)
      else none
  | _ => none

/-- `systemFrequency`. -/
def systemFrequency : BitVec 64 := 5

/-- `uptime->us`. -/
def amTimerUptime (arch : Arch) (l : List Access) : Option (BitVec 64 × List Access) :=
  (uptimeLoop arch l).map fun p => (p.1.value * systemFrequency, p.2)

theorem Uptime.value_eq (u : Uptime) : u.value = (u.high1 ++ u.low : BitVec 64) := by
  apply BitVec.eq_of_toNat_eq
  have hHigh : u.high1.toNat < 4294967296 := u.high1.isLt
  have hLow : u.low.toNat < 4294967296 := u.low.isLt
  rw [Uptime.value, BitVec.toNat_or, BitVec.toNat_shiftLeft, BitVec.toNat_append]
  simp only [BitVec.truncate_eq_setWidth, BitVec.toNat_setWidth]
  rw [Nat.mod_eq_of_lt (by omega : u.high1.toNat < 2 ^ 64),
    Nat.mod_eq_of_lt (by omega : u.low.toNat < 2 ^ 64),
    Nat.mod_eq_of_lt (by rw [Nat.shiftLeft_eq]; omega)]

/-! ## Snapshots -/

/-- The counter does not wrap before the addresses of the accesses are taken. -/
def NoWrap (c : Clint) (l : List Access) : Prop :=
  ∀ a ∈ l, (mtime c).toNat + a.ar < 18446744073709551616

section Snapshot

variable {arch : Arch} {c : Clint} {req : Nat → AxiReq} {l rest : List Access} {u : Uptime}

theorem mtime_toNat {t : Nat} (h : (mtime c).toNat + t < 18446744073709551616) :
    (mtime (clintAt c req t)).toNat = (mtime c).toNat + t := by
  rw [mtime_at, BitVec.toNat_add, BitVec.toNat_ofNat]
  omega

/-- Equal high words at two times are the high word at all times between. -/
theorem mtimeHi_between {t₁ t₂ t₃ : Nat} (h₁ : t₁ ≤ t₂) (h₂ : t₂ ≤ t₃)
    (hWrap : (mtime c).toNat + t₃ < 18446744073709551616)
    (hSame : (clintAt c req t₁).mtimeHi = (clintAt c req t₃).mtimeHi) :
    (clintAt c req t₂).mtimeHi = (clintAt c req t₁).mtimeHi := by
  have hOne := @mtime_toNat c req t₁ (by omega)
  have hTwo := @mtime_toNat c req t₂ (by omega)
  have hThree := @mtime_toNat c req t₃ hWrap
  rw [mtime, toNat_halves] at hOne hTwo hThree
  have hLow₁ := (clintAt c req t₁).mtimeLo.isLt
  have hLow₂ := (clintAt c req t₂).mtimeLo.isLt
  have hLow₃ := (clintAt c req t₃).mtimeLo.isLt
  rw [← BitVec.toNat_inj] at hSame ⊢
  omega

theorem Served.tail {a : Access} {base : Word} (h : Served base c req (a :: l)) :
    Served base c req l :=
  ⟨fun b hb => h.read b (List.mem_cons_of_mem a hb), (List.pairwise_cons.1 h.order).2⟩

theorem Served.append_right {base : Word} {l' : List Access} (h : Served base c req (l' ++ l)) :
    Served base c req l := by
  induction l' with
  | nil => exact h
  | cons a l' ih => exact ih h.tail

/-- Each access is answered before the address of the next. -/
theorem Served.addresses_increase {base : Word} (h : Served base c req l) :
    l.Pairwise fun a b => a.ar < b.ar :=
  h.order.imp_of_mem fun ha _ hLt => Nat.lt_trans (h.read _ ha).before hLt

theorem rtcAddr_eq (arch : Arch) :
    rtcAddr arch + 0 = clintBase arch + 0x48#32 ∧
      rtcAddr arch + 4 = clintBase arch + 0x4c#32 := by
  cases arch <;> decide

/-- The loop is left after an iteration that read the same high word twice.
By induction over the iterations. -/
theorem uptimeLoop_some (hRun : uptimeLoop arch l = some (u, rest)) :
    ∃ l' a₁ a₂ a₃, l = l' ++ a₁ :: a₂ :: a₃ :: rest ∧ a₁.addr = rtcAddr arch + 4 ∧
      a₂.addr = rtcAddr arch + 0 ∧ a₃.addr = rtcAddr arch + 4 ∧ a₁.data = a₃.data ∧
      u = ⟨a₁.data, a₂.data, a₂.ar⟩ := by
  fun_induction uptimeLoop arch l with
  | case1 a₁ a₂ a₃ tail hAddr hNe ih =>
      obtain ⟨l', b₁, b₂, b₃, hTail, hRest⟩ := ih hRun
      exact ⟨a₁ :: a₂ :: a₃ :: l', b₁, b₂, b₃, by rw [hTail]; rfl, hRest⟩
  | case2 a₁ a₂ a₃ tail hAddr hSame =>
      cases hRun
      exact ⟨[], a₁, a₂, a₃, rfl, hAddr.1, hAddr.2.1, hAddr.2.2, not_not.1 hSame, rfl⟩
  | case3 => cases hRun
  | case4 => cases hRun

/-- The loop is left with the counter as it was when the low word was sampled. -/
theorem uptimeLoop_snapshot (h : Served (clintBase arch) c req l) (hWrap : NoWrap c l)
    (hRun : uptimeLoop arch l = some (u, rest)) :
    u.value = mtime (clintAt c req u.sampled) := by
  obtain ⟨l', a₁, a₂, a₃, rfl, hAddr₁, hAddr₂, hAddr₃, hSame, rfl⟩ := uptimeLoop_some hRun
  have hServed := h.append_right
  have hOrder₁ := (List.pairwise_cons.1 hServed.order).1
  have hOrder₂ := (List.pairwise_cons.1 hServed.tail.order).1
  have hRead₁ := hServed.read a₁ (by simp)
  have hRead₂ := hServed.read a₂ (by simp)
  have hRead₃ := hServed.read a₃ (by simp)
  rw [(rtcAddr_eq arch).1] at hAddr₂
  rw [(rtcAddr_eq arch).2] at hAddr₁ hAddr₃
  have hSameHi : (clintAt c req a₁.ar).mtimeHi = (clintAt c req a₃.ar).mtimeHi := by
    rw [← hRead₁.sample.2 hAddr₁, ← hRead₃.sample.2 hAddr₃, hSame]
  have hHigh : (clintAt c req a₂.ar).mtimeHi = (clintAt c req a₁.ar).mtimeHi :=
    mtimeHi_between (Nat.le_of_lt (Nat.lt_trans hRead₁.before (hOrder₁ a₂ (by simp))))
      (Nat.le_of_lt (Nat.lt_trans hRead₂.before (hOrder₂ a₃ (by simp))))
      (hWrap a₃ (by simp)) hSameHi
  rw [Uptime.value_eq, mtime, hHigh, ← hRead₁.sample.2 hAddr₁, ← hRead₂.sample.1 hAddr₂]

/-- A later call samples later. -/
theorem sampled_lt {mid l₂ rest' : List Access} {u' : Uptime}
    (h : Served (clintBase arch) c req l) (hRun : uptimeLoop arch l = some (u, mid ++ l₂))
    (hRun' : uptimeLoop arch l₂ = some (u', rest')) : u.sampled < u'.sampled := by
  obtain ⟨l', a₁, a₂, a₃, rfl, -, -, -, -, rfl⟩ := uptimeLoop_some hRun
  obtain ⟨l'', b₁, b₂, b₃, rfl, -, -, -, -, rfl⟩ := uptimeLoop_some hRun'
  have hServed := h.append_right
  exact (List.pairwise_cons.1 hServed.tail.addresses_increase).1 b₂ (by simp)

/-- The reads of two iterations, within `2 ^ 32` cycles. -/
structure TwoRounds (arch : Arch) (a₁ a₂ a₃ b₁ b₂ b₃ : Access) : Prop where
  high : ∀ a ∈ [a₁, a₃, b₁, b₃], a.addr = rtcAddr arch + 4
  low : ∀ a ∈ [a₂, b₂], a.addr = rtcAddr arch + 0
  short : b₃.ar < a₁.ar + 4294967296

section Leaving

variable {a₁ a₂ a₃ b₁ b₂ b₃ : Access}
  (h : Served (clintBase arch) c req (a₁ :: a₂ :: a₃ :: b₁ :: b₂ :: b₃ :: rest))
  (hWrap : NoWrap c (a₁ :: a₂ :: a₃ :: b₁ :: b₂ :: b₃ :: rest))
  (hRounds : TwoRounds arch a₁ a₂ a₃ b₁ b₂ b₃)
include h hWrap hRounds

/-- Two iterations are enough: only one of them can see the carry. -/
theorem uptimeLoop_leaves : ∃ u rest', a₁.ar < u.sampled ∧ u.sampled < b₃.ar ∧
    uptimeLoop arch (a₁ :: a₂ :: a₃ :: b₁ :: b₂ :: b₃ :: rest) = some (u, rest') := by
  have hHigh : ∀ a ∈ [a₁, a₃, b₁, b₃], a.data.toNat = ((mtime c).toNat + a.ar) / 4294967296 := by
    intro a ha
    have hMem : a ∈ a₁ :: a₂ :: a₃ :: b₁ :: b₂ :: b₃ :: rest := by
      simp only [List.mem_cons] at ha ⊢
      tauto
    have hAt := @mtime_toNat c req a.ar (hWrap a hMem)
    rw [mtime, toNat_halves] at hAt
    rw [(h.read a hMem).sample.2 ((hRounds.high a ha).trans (rtcAddr_eq arch).2), ← hAt]
    have hLow := (clintAt c req a.ar).mtimeLo.isLt
    omega
  have hOrder := h.addresses_increase
  simp only [List.pairwise_cons, List.forall_mem_cons] at hOrder
  obtain ⟨⟨h₁₂, h₁₃, -, h₁₅, -⟩, ⟨-, -, -, h₂₆, -⟩, ⟨h₃₄, -⟩, ⟨-, h₄₆, -⟩, ⟨h₅₆, -⟩, -⟩ := hOrder
  rw [uptimeLoop, if_pos ⟨hRounds.high a₁ (by simp), hRounds.low a₂ (by simp),
    hRounds.high a₃ (by simp)⟩]
  by_cases hSame : a₁.data = a₃.data
  · rw [if_neg (not_not.2 hSame)]
    exact ⟨_, _, h₁₂, h₂₆, rfl⟩
  · have hNext : b₁.data = b₃.data := by
      have h₁ := hHigh a₁ (by simp)
      have h₂ := hHigh a₃ (by simp)
      have h₃ := hHigh b₁ (by simp)
      have h₄ := hHigh b₃ (by simp)
      have hShort := hRounds.short
      rw [← BitVec.toNat_inj] at hSame ⊢
      omega
    rw [if_pos hSame, uptimeLoop, if_pos ⟨hRounds.high b₁ (by simp), hRounds.low b₂ (by simp),
      hRounds.high b₃ (by simp)⟩, if_neg (not_not.2 hNext)]
    exact ⟨_, _, h₁₅, h₅₆, rfl⟩

/-- **The call returns**, with the counter of a cycle in between. -/
theorem amTimerUptime_returns : ∃ t rest', a₁.ar < t ∧ t < b₃.ar ∧
    amTimerUptime arch (a₁ :: a₂ :: a₃ :: b₁ :: b₂ :: b₃ :: rest) =
      some (mtime (clintAt c req t) * systemFrequency, rest') := by
  obtain ⟨u, rest', hFrom, hTo, hRun⟩ := uptimeLoop_leaves h hWrap hRounds
  refine ⟨u.sampled, rest', hFrom, hTo, ?_⟩
  rw [amTimerUptime, hRun, ← uptimeLoop_snapshot h hWrap hRun]
  rfl

end Leaving

theorem sampled_mem (hRun : uptimeLoop arch l = some (u, rest)) : ∃ a ∈ l, a.ar = u.sampled := by
  obtain ⟨l', a₁, a₂, a₃, rfl, -, -, -, -, rfl⟩ := uptimeLoop_some hRun
  exact ⟨a₂, by simp, rfl⟩

/-- **Uptime** is a snapshot of the counter, so later calls do not return less;
the counter counts the cycles since reset. -/
theorem uptime_is_snapshot (arch : Arch) (c : Clint) (req : Nat → AxiReq) :
    (∀ t, mtime (clintAt c.reset req t) = BitVec.ofNat 64 t) ∧
      ∀ l u rest, Served (clintBase arch) c req l → NoWrap c l →
        uptimeLoop arch l = some (u, rest) →
        u.value = mtime (clintAt c req u.sampled) ∧
          ∀ mid l₂ u' rest', rest = mid ++ l₂ → uptimeLoop arch l₂ = some (u', rest') →
            u.value ≤ u'.value := by
  constructor
  · intro t
    have hZero : mtime c.reset = 0#64 := by
      change ((0 : Word) ++ (0 : Word) : BitVec 64) = 0#64
      decide
    rw [mtime_at, hZero, BitVec.zero_add]
  · intro l u rest h hWrap hRun
    refine ⟨uptimeLoop_snapshot h hWrap hRun, ?_⟩
    rintro mid l₂ u' rest' rfl hRun'
    obtain ⟨l', a₁, a₂, a₃, hParts, -⟩ := uptimeLoop_some hRun
    have hSplit : l = (l' ++ a₁ :: a₂ :: a₃ :: mid) ++ l₂ := by simp [hParts]
    have hWrap' : NoWrap c l₂ := fun a ha => hWrap a (by simp [hSplit, ha])
    have hServed' : Served (clintBase arch) c req l₂ := (hSplit ▸ h).append_right
    have hLt := sampled_lt h hRun hRun'
    obtain ⟨b, hMem, hAr⟩ := sampled_mem hRun'
    have hLater := hWrap' b hMem
    rw [uptimeLoop_snapshot h hWrap hRun, uptimeLoop_snapshot hServed' hWrap' hRun',
      BitVec.le_def, mtime_toNat (by omega), mtime_toNat (by omega)]
    omega

end Snapshot

/-! ## A call on the chip -/

section OnChip

variable {s : Soc} {io : Nat → AxiResp} {l rest : List Access}

/-- The access is a load of the chip from its timer. -/
structure TimerLoad (s : Soc) (io : Nat → AxiResp) (a : Access) : Prop where
  read : ∃ r, LastRead s.fabric (fabricInp s io) a.ar r a.r ∧ r.slave = .clint ∧ r.addr = a.addr
  taken : Rtl.rFire (socAt s io a.r).fabric.lsu.axi
    ((socAt s io a.r).fabric.lsuResp (fabricInp s io a.r)) = true
  data : a.data = ((socAt s io a.r).fabric.lsuResp (fabricInp s io a.r)).rdata

theorem served_of_loads (hReset : s.AfterReset) (hSoc : SocBursts s.fabric (fabricInp s io))
    (hLoads : ∀ a ∈ l, TimerLoad s io a) (hOrder : l.Pairwise fun a b => a.r < b.ar) :
    Served (clintBase .ysyxsoc) s.clint (clintReqAt s io) l := by
  refine ⟨fun a ha => ?_, hOrder⟩
  obtain ⟨⟨r, hLast, hClint, hAddr⟩, hTaken, hData⟩ := hLoads a ha
  have hRead := busRead_of_load hReset hSoc hLast hClint hTaken
  rwa [hAddr, ← hData] at hRead

/-- **Uptime on the chip**: a call whose loads the bus answers within `2 ^ 32`
cycles leaves the chip's own counter, of a cycle during the call, times
`systemFrequency` in `uptime->us`. -/
theorem amTimerUptime_on_chip {a₁ a₂ a₃ b₁ b₂ b₃ : Access} (hReset : s.AfterReset)
    (hSoc : SocBursts s.fabric (fabricInp s io))
    (hLoads : ∀ a ∈ a₁ :: a₂ :: a₃ :: b₁ :: b₂ :: b₃ :: rest, TimerLoad s io a)
    (hOrder : (a₁ :: a₂ :: a₃ :: b₁ :: b₂ :: b₃ :: rest).Pairwise fun a b => a.r < b.ar)
    (hWrap : NoWrap s.clint (a₁ :: a₂ :: a₃ :: b₁ :: b₂ :: b₃ :: rest))
    (hRounds : TwoRounds .ysyxsoc a₁ a₂ a₃ b₁ b₂ b₃) :
    ∃ t rest', a₁.ar < t ∧ t < b₃.ar ∧
      amTimerUptime .ysyxsoc (a₁ :: a₂ :: a₃ :: b₁ :: b₂ :: b₃ :: rest) =
        some (mtime (socAt s io t).clint * systemFrequency, rest') := by
  simp only [clint_socAt]
  exact amTimerUptime_returns (served_of_loads hReset hSoc hLoads hOrder) hWrap hRounds

end OnChip

/-- A timer one cycle before a carry. -/
def beforeCarry : Clint := ⟨0xfffffffe#32, 0, true, false, 0, 0⟩

/-- Reads of the high, low and high word in turn, one in three cycles. -/
def pollReq (t : Nat) : AxiReq :=
  { ({} : AxiReq) with
    araddr := if t % 9 = 4 then 0x48#32 else 0x4c#32
    arvalid := t % 3 == 1
    rready := true }

/-- The carry falls into the first iteration. -/
def carryAccesses : List Access :=
  [⟨0x0200004c#32, 1, 2, 0⟩, ⟨0x02000048#32, 4, 5, 2⟩, ⟨0x0200004c#32, 7, 8, 1⟩,
    ⟨0x0200004c#32, 10, 11, 1⟩, ⟨0x02000048#32, 13, 14, 11⟩, ⟨0x0200004c#32, 16, 17, 1⟩]

theorem uptime_is_snapshot_carry :
    uptimeLoop .ysyxsoc carryAccesses = some (⟨1, 11, 13⟩, []) ∧
      (⟨1, 11, 13⟩ : Uptime).value = mtime (clintAt beforeCarry pollReq 13) := by
  have hRun : uptimeLoop .ysyxsoc carryAccesses = some (⟨1, 11, 13⟩, []) := by decide
  have hServed : Served (clintBase .ysyxsoc) beforeCarry pollReq carryAccesses := by
    refine ⟨?_, by decide⟩
    intro a ha
    have hPrompt : ∀ a ∈ carryAccesses, a.r = a.ar + 1 ∧
        Rtl.arFire (pollReq a.ar) (clintAt beforeCarry pollReq a.ar).axi = true ∧
        (pollReq a.ar).araddr = a.addr - clintBase .ysyxsoc ∧
        Rtl.rFire (pollReq a.r) (clintAt beforeCarry pollReq a.r).axi = true ∧
        (clintAt beforeCarry pollReq a.r).axi.rdata = a.data := by decide +kernel
    obtain ⟨hNext, hAr, hAddr, hR, hData⟩ := hPrompt a ha
    exact ⟨by omega, hAr, hAddr, fun k h1 h2 => by omega, hR, hData⟩
  have hWrap : NoWrap beforeCarry carryAccesses := by
    have hStart : (mtime beforeCarry).toNat = 4294967294 := by decide
    unfold NoWrap
    rw [hStart]
    decide
  exact ⟨hRun, ((uptime_is_snapshot .ysyxsoc beforeCarry pollReq).2 _ _ _ hServed hWrap hRun).1⟩

end Riscv32.Am
