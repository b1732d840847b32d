import Riscv32.Rtl.Params

/-!
# Instruction fetch unit

`IFU.sv`.  Three clocked blocks share the unit: the AXI read channel (one
outstanding fetch and the flag that marks it stale), the `fence.i` sequencer,
and the one-entry output slot.  Each block owns its registers and reads the
others', so each is a function of the whole unit; `Ifu.step` is the common
clock edge.

A pc that is not a multiple of four is not fetched: the slot is filled at once
with the zero word and the exception bit.  The unit's checks for the simulator
are in `Rtl.Checks`.
-/

namespace Riscv32.Rtl

/-- `axi_state_t`. -/
inductive AxiState where
  | idle
  | sendAr
  | waitR
deriving DecidableEq, Repr, Inhabited

/-- `fencei_state_t`. -/
inductive FenceiState where
  | idle
  | wait
  | busy
deriving DecidableEq, Repr, Inhabited

/-- `ifu_state_t`. -/
inductive IfuState where
  | empty
  | valid
deriving DecidableEq, Repr, Inhabited

/-- Registers of the AXI block. -/
structure IfuAxi where
  axiState : AxiState
  outstandingPc : Word
  outstandingStale : Bool
deriving DecidableEq, Repr, Inhabited

/-- Registers of the `fence.i` block. -/
structure IfuFencei where
  fenceiState : FenceiState
  outIcacheFlush : Bool
  outFenceiFlushDone : Bool
deriving DecidableEq, Repr, Inhabited

/-- Registers of the output slot. -/
structure IfuSlot where
  ifuState : IfuState
  fetchPc : Word
  outPc : Word
  outInst : Word
  outExceptionValid : Bool
  outExceptionCause : Word
  exceptionPending : Bool
deriving DecidableEq, Repr, Inhabited

structure Ifu extends IfuAxi, IfuFencei, IfuSlot
deriving DecidableEq, Repr, Inhabited

/-- What the rest of the core and the bus drive into the unit. -/
structure IfuIn where
  inFenceiDone : Bool
  inRedirectPc : Word
  inRedirectFire : Bool
  inReady : Bool
  axi : AxiResp
deriving DecidableEq, Repr, Inhabited

/-- `|pc[1:0]`. -/
def misaligned (pc : Word) : Bool := pc.extractLsb' 0 2 != 0

namespace Ifu

/-- `out_valid`. -/
def outValid (s : Ifu) (redirectFire : Bool) : Bool :=
  s.ifuState == .valid && !redirectFire

/-- `ifu_out_fire`. -/
def outFire (s : Ifu) (i : IfuIn) : Bool := s.outValid i.inRedirectFire && i.inReady

/-- The read channel as driven by the unit; it never writes. -/
def axi (s : Ifu) (redirectFire inReady : Bool) : AxiReq where
  araddr := s.outstandingPc
  arvalid := s.axiState == .sendAr
  rready := s.axiState == .waitR && (!s.outValid redirectFire || inReady)

/-- `ifu_ar_fire`. -/
def ifuArFire (s : Ifu) (i : IfuIn) : Bool :=
  arFire (s.axi i.inRedirectFire i.inReady) i.axi

/-- `ifu_r_fire`. -/
def ifuRFire (s : Ifu) (i : IfuIn) : Bool :=
  rFire (s.axi i.inRedirectFire i.inReady) i.axi

/-- `drop_response`. -/
def dropResponse (s : Ifu) (i : IfuIn) : Bool :=
  s.ifuRFire i && (s.outstandingStale || i.inRedirectFire)

/-- The AXI block. -/
def axiBlock (s : Ifu) (i : IfuIn) : IfuAxi :=
  match s.axiState with
  | .idle =>
      if s.ifuState == .empty && s.fenceiState == .idle && !i.inFenceiDone &&
          !i.inRedirectFire && !misaligned s.fetchPc && !s.exceptionPending then
        { axiState := .sendAr, outstandingPc := s.fetchPc, outstandingStale := false }
      else
        { s.toIfuAxi with outstandingStale := false }
  | .sendAr =>
      { s.toIfuAxi with
        outstandingStale := if i.inRedirectFire then true else s.outstandingStale
        axiState := if s.ifuArFire i then .waitR else .sendAr }
  | .waitR =>
      if s.ifuRFire i then
        { s.toIfuAxi with axiState := .idle, outstandingStale := false }
      else if i.inRedirectFire then
        { s.toIfuAxi with outstandingStale := true }
      else s.toIfuAxi

/-- The `fence.i` block: wait until the channel is idle and the slave behind
it takes requests, pulse the flush, report. -/
def fenceiBlock (s : Ifu) (i : IfuIn) : IfuFencei :=
  match s.fenceiState with
  | .idle =>
      { s.toIfuFencei with
        outFenceiFlushDone := false
        fenceiState := if i.inFenceiDone then .wait else .idle }
  | .wait =>
      if s.axiState == .idle && i.axi.arready then
        { fenceiState := .busy, outIcacheFlush := true, outFenceiFlushDone := false }
      else
        { s.toIfuFencei with outFenceiFlushDone := false }
  | .busy =>
      { fenceiState := .idle, outIcacheFlush := false, outFenceiFlushDone := true }

/-- The output slot.  Redirects win over `fence.i`, which wins over the
slot's own transitions. -/
def slotBlock (s : Ifu) (i : IfuIn) : IfuSlot :=
  if i.inRedirectFire then
    { s.toIfuSlot with
      ifuState := .empty
      fetchPc := i.inRedirectPc
      outExceptionValid := false
      outExceptionCause := 0
      exceptionPending := false }
  else if i.inFenceiDone then
    { s.toIfuSlot with
      fetchPc := if s.ifuState == .valid then s.outPc else s.fetchPc
      ifuState := .empty
      outExceptionValid := false
      outExceptionCause := 0
      exceptionPending := false }
  else
    match s.ifuState with
    | .empty =>
        if misaligned s.fetchPc && !s.exceptionPending then
          { s.toIfuSlot with
            ifuState := .valid
            outPc := s.fetchPc
            outInst := 0
            outExceptionValid := true
            outExceptionCause := 0
            exceptionPending := true }
        else if s.ifuRFire i then
          if s.dropResponse i || s.fenceiState != .idle then
            s.toIfuSlot
          else
            { s.toIfuSlot with
              ifuState := .valid
              fetchPc := s.outstandingPc + 4
              outInst := i.axi.rdata
              outPc := s.outstandingPc
              outExceptionValid := false
              outExceptionCause := 0 }
        else s.toIfuSlot
    | .valid =>
        if s.outFire i then
          { s.toIfuSlot with ifuState := .empty, outExceptionValid := false }
        else s.toIfuSlot

/-- One clock edge with `reset` low. -/
def step (s : Ifu) (i : IfuIn) : Ifu where
  toIfuAxi := s.axiBlock i
  toIfuFencei := s.fenceiBlock i
  toIfuSlot := s.slotBlock i

/-- One clock edge with `reset` high: every register of the unit is reset. -/
def reset (arch : Arch) : Ifu where
  axiState := .idle
  outstandingPc := resetPc arch
  outstandingStale := false
  fenceiState := .idle
  outIcacheFlush := false
  outFenceiFlushDone := false
  ifuState := .empty
  fetchPc := resetPc arch
  outPc := 0
  outInst := 0
  outExceptionValid := false
  outExceptionCause := 0
  exceptionPending := false

end Ifu

end Riscv32.Rtl
