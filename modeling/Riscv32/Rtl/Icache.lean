import Riscv32.Rtl.Ifu

/-!
# Instruction cache

`ICACHE.sv`: four direct-mapped lines of sixteen bytes between the fetch unit
(`axi_in`) and the arbiter (`axi_out`).  A miss refills the whole line with one
burst; the line is overwritten beat by beat while its old tag and valid bit
stay in place, and both are set with the last beat.

The registers are in two groups, `IcacheIn` towards the fetch unit and
`IcacheOut` towards memory; `step` is the state machine with the flush over it.
Tags and data have no reset, and `AfterReset` leaves them arbitrary.

`Frontend` is the fetch unit with the cache on its port.
-/

namespace Riscv32.Rtl

/-- `IDLE`, `RESP`, `SEND_AR`, `WAIT_R`. -/
inductive IcacheState where
  | idle
  | resp
  | sendAr
  | waitR
deriving DecidableEq, Repr, Inhabited

/-! ## Address fields -/

/-- `addr[31:6]`. -/
def tagOf (addr : Word) : BitVec 26 := addr.extractLsb' 6 26

/-- `addr[5:4]`. -/
def indexOf (addr : Word) : BitVec 2 := addr.extractLsb' 4 2

/-- `addr[3:0]`. -/
def offsetOf (addr : Word) : BitVec 4 := addr.extractLsb' 0 4

/-- `addr[3:2]`. -/
def wordOffsetOf (addr : Word) : BitVec 2 := addr.extractLsb' 2 2

/-- `{addr[31:4], 4'b0}`. -/
def lineAddrOf (addr : Word) : Word := (addr.extractLsb' 4 28 ++ 0#4 : BitVec 32)

/-! ## Lines -/

abbrev Line := BitVec 128

/-- `line[lo +: 32]`. -/
def Line.read (line : Line) (lo : Nat) : Word := line.extractLsb' lo 32

/-- `line[lo +: 32] <= data`. -/
def Line.write (line : Line) (lo : Nat) (data : Word) : Line :=
  (line &&& ~~~((BitVec.allOnes 32).setWidth 128 <<< lo)) ||| (data.setWidth 128 <<< lo)

/-! ## The cache -/

/-- Registers of the response side. -/
structure IcacheIn where
  rvalid : Bool
  rdata : Word
  rresp : BitVec 2
deriving DecidableEq, Repr, Inhabited

/-- Registers of the request side. -/
structure IcacheOut where
  araddr : Word
  arvalid : Bool
  arlen : BitVec 8
  arsize : BitVec 3
  arburst : BitVec 2
deriving DecidableEq, Repr, Inhabited

structure Icache extends IcacheIn, IcacheOut where
  state : IcacheState
  validArray : BitVec 2 → Bool
  tagArray : BitVec 2 → BitVec 26
  dataArray : BitVec 2 → Line
  refillAddr : Word
  reqWordOffset : BitVec 2
  refillCnt : BitVec 2
deriving Inhabited

/-- `array[i] <= v`. -/
def setAt {α : Type} (array : BitVec 2 → α) (i : BitVec 2) (v : α) : BitVec 2 → α :=
  fun j => if j = i then v else array j

namespace Icache

/-- `axi_in` as driven by the cache; `rlast` is undriven. -/
def axiIn (s : Icache) : AxiResp where
  arready := s.state == .idle
  rdata := s.rdata
  rresp := s.rresp
  rvalid := s.rvalid

/-- `axi_out` as driven by the cache. -/
def axiOut (s : Icache) : AxiReq where
  araddr := s.araddr
  arvalid := s.arvalid
  arlen := s.arlen
  arsize := s.arsize
  arburst := s.arburst
  rready := s.state == .waitR

/-- The line of `addr` is present. -/
def hit (s : Icache) (addr : Word) : Bool :=
  s.validArray (indexOf addr) && s.tagArray (indexOf addr) == tagOf addr

/-- A request for `addr` is accepted. -/
def lookup (s : Icache) (addr : Word) : Icache :=
  if s.hit addr then
    { s with
      rdata := (s.dataArray (indexOf addr)).read ((offsetOf addr).toNat * 8)
      rvalid := true
      rresp := 0
      state := .resp }
  else
    { s with
      refillCnt := 0
      reqWordOffset := wordOffsetOf addr
      refillAddr := lineAddrOf addr
      araddr := lineAddrOf addr
      arvalid := true
      arburst := 0b01#2
      arlen := 3
      arsize := 0b010#3
      state := .sendAr }

/-- The refill request is accepted. -/
def sent (s : Icache) : Icache :=
  { s with arvalid := false, arburst := 0, arlen := 0, arsize := 0, state := .waitR }

/-- `data_array` with the beat `data` written. -/
def filled (s : Icache) (data : Word) : BitVec 2 → Line :=
  setAt s.dataArray (indexOf s.refillAddr)
    ((s.dataArray (indexOf s.refillAddr)).write ((offsetOf s.refillAddr).toNat * 8) data)

/-- A beat of the refill arrives.  The forwarded word is read from the array
as it was before the beat. -/
def beat (s : Icache) (data : Word) (last : Bool) : Icache :=
  if last then
    { s with
      dataArray := s.filled data
      validArray := setAt s.validArray (indexOf s.refillAddr) true
      tagArray := setAt s.tagArray (indexOf s.refillAddr) (tagOf s.refillAddr)
      rdata :=
        if s.reqWordOffset = s.refillCnt then data
        else (s.dataArray (indexOf s.refillAddr)).read (s.reqWordOffset.toNat * 32)
      rvalid := true
      rresp := 0
      state := .resp }
  else
    { s with
      dataArray := s.filled data
      refillAddr := s.refillAddr + 4
      refillCnt := s.refillCnt + 1 }

/-- One clock edge with `reset` low: `req` from the fetch unit, `resp` from
the memory side.  A flush overrides the state machine. -/
def step (s : Icache) (inIcacheFlush : Bool) (req : AxiReq) (resp : AxiResp) : Icache :=
  if inIcacheFlush then { s with validArray := fun _ => false }
  else
    match s.state with
    | .idle => if arFire req s.axiIn then s.lookup req.araddr else s
    | .resp => if rFire req s.axiIn then { s with rvalid := false, state := .idle } else s
    | .sendAr => if arFire s.axiOut resp then s.sent else s
    | .waitR => if rFire s.axiOut resp then s.beat resp.rdata resp.rlast else s

/-- One clock edge with `reset` high. -/
def reset (s : Icache) : Icache :=
  { s with
    refillAddr := 0
    validArray := fun _ => false
    rvalid := false
    arvalid := false
    state := .idle }

/-- What a reset edge leaves behind; tags and data are arbitrary. -/
structure AfterReset (s : Icache) : Prop where
  state : s.state = .idle
  valid : s.validArray = fun _ => false
  rvalid : s.rvalid = false
  arvalid : s.arvalid = false

theorem reset_afterReset (s : Icache) : s.reset.AfterReset := ⟨rfl, rfl, rfl, rfl⟩

end Icache

/-! ## The fetch unit with its cache -/

structure Frontend where
  ifu : Ifu
  icache : Icache
deriving Inhabited

/-- What the pipeline and the memory side drive. -/
structure FrontendIn where
  inFenceiDone : Bool
  inRedirectPc : Word
  inRedirectFire : Bool
  inReady : Bool
  axi : AxiResp
deriving DecidableEq, Repr, Inhabited

namespace Frontend

def ifuIn (s : Frontend) (i : FrontendIn) : IfuIn where
  inFenceiDone := i.inFenceiDone
  inRedirectPc := i.inRedirectPc
  inRedirectFire := i.inRedirectFire
  inReady := i.inReady
  axi := s.icache.axiIn

/-- The fetch unit's port. -/
def ifuAxi (s : Frontend) (i : FrontendIn) : AxiReq := s.ifu.axi i.inRedirectFire i.inReady

/-- `in_icache_flush`. -/
def flush (s : Frontend) : Bool := s.ifu.outIcacheFlush

/-- One clock edge with `reset` low. -/
def step (s : Frontend) (i : FrontendIn) : Frontend where
  ifu := s.ifu.step (s.ifuIn i)
  icache := s.icache.step s.flush (s.ifuAxi i) i.axi

/-- What a reset edge leaves behind. -/
structure AfterReset (arch : Arch) (s : Frontend) : Prop where
  ifu : s.ifu = Ifu.reset arch
  icache : s.icache.AfterReset

end Frontend

end Riscv32.Rtl
