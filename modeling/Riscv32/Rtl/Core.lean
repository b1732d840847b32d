import Riscv32.Rtl.Ifu
import Riscv32.Rtl.Lsu

/-!
# Write-back unit and the five-stage core

`WBU.sv` and the stage wiring of `ysyx_25120302.v`.  `Core` is everything
between the two AXI ports; the environment `CoreIn` is what the slaves answer
on them.  All inter-stage signals are functions of the registers alone, so
they are definitions on `Core`, named after the wires of the top module.

`Core.step` clocks all units at once on the old registers, as non-blocking
assignments do.  `AfterReset` is what can be relied on after a reset: the
control registers and nothing else, so every result about runs holds for any
contents of the data registers, the CSR file and the register file.
-/

namespace Riscv32.Rtl

/-! ## WBU -/

/-- The register array of the write-back unit. -/
abbrev RegFile := BitVec 4 → Word

/-- `out_rdata1` and `out_rdata2`. -/
def RegFile.read (rf : RegFile) (raddr : BitVec 5) : Word :=
  if raddr = 0 then 0 else rf (raddr.setWidth 4)

/-- `rf[rd[3:0]] <= data`. -/
def RegFile.write (rf : RegFile) (rd : BitVec 5) (data : Word) : RegFile :=
  fun r => if r = rd.setWidth 4 then data else rf r

/-- The commit port. -/
structure Commit where
  pc : Word
  inst : Word
  npc : Word
  ebreak : Bool
  skipRef : Bool
  wen : Bool
  rd : BitVec 5
  wdata : Word
deriving DecidableEq, Repr, Inhabited

/-- The commit port as driven from the load/store unit's outputs. -/
def Lsu.commit (s : Lsu) : Commit where
  pc := s.outPc
  inst := s.outInst
  npc := s.outNpc
  ebreak := s.outIsEbreak
  skipRef := s.outIsMmio
  wen := s.outRfWe && s.outRd != 0
  rd := s.outRd
  wdata := s.outWbData

/-- The register file after a cycle in which `c` commits or nothing does. -/
def RegFile.step (rf : RegFile) (commitFire : Bool) (c : Commit) : RegFile :=
  if commitFire && c.wen then rf.write c.rd c.wdata else rf

/-! ## The core -/

structure Core where
  ifu : Ifu
  idu : Idu
  exu : Exu
  csr : Csr
  lsu : Lsu
  rf : RegFile
deriving Inhabited

/-- The slave side of the two AXI ports. -/
structure CoreIn where
  ifu : AxiResp
  lsu : AxiResp
deriving DecidableEq, Repr, Inhabited

namespace Core

/-- `lsu_to_exu_ready`. -/
def lsuReady (s : Core) : Bool := s.lsu.outReady

/-- `exu_to_idu_ready`. -/
def exuReady (s : Core) : Bool := s.exu.outReady s.lsuReady

/-- `exu_in_fire`. -/
def exuInFire (s : Core) : Bool := s.exu.inFire s.idu.outValid s.lsuReady

/-- `exu_redirect_fire`. -/
def redirectFire (s : Core) : Bool :=
  s.exu.redirectFire s.idu.outValid s.lsuReady s.idu.out

/-- `exu_redirect_fire_pc`. -/
def redirectPc (s : Core) : Word := s.idu.out.redirectPc s.csr

/-- `wbu_commit_fire`; `commit_ready` is tied high. -/
def commitFire (s : Core) : Bool := s.lsu.outValid

/-- `wbu_commit_*`. -/
def commit (s : Core) : Commit := s.lsu.commit

/-- `wbu_fencei_done`. -/
def fenceiDone (s : Core) : Bool := s.commitFire && s.lsu.outIsFencei

/-- Inputs of the decode unit. -/
def iduIn (s : Core) : IduIn where
  inInst := s.ifu.outInst
  inPc := s.ifu.outPc
  inExceptionValid := s.ifu.outExceptionValid
  inExceptionCause := s.ifu.outExceptionCause
  inFlush := s.redirectFire
  inFenceiFlushDone := s.ifu.outFenceiFlushDone
  inValid := s.ifu.outValid s.redirectFire
  inReady := s.exuReady
  inSrc1Data := s.rf.read (rs1Idx s.ifu.outInst)
  inSrc2Data := s.rf.read (rs2Idx s.ifu.outInst)
  exu := s.exu.producer
  lsuPending := s.lsu.pendingProducer
  wbu := ⟨s.lsu.outValid, s.commit.wen, s.commit.rd⟩

/-- `idu_to_ifu_ready`. -/
def iduReady (s : Core) : Bool := s.idu.outReady s.iduIn

/-- `idu_in_fire`, which is also `ifu_out_fire`. -/
def iduInFire (s : Core) : Bool := s.idu.inFire s.iduIn

/-- Inputs of the fetch unit. -/
def ifuIn (s : Core) (i : CoreIn) : IfuIn where
  inFenceiDone := s.fenceiDone
  inRedirectPc := s.redirectPc
  inRedirectFire := s.redirectFire
  inReady := s.iduReady
  axi := i.ifu

/-- Inputs of the load/store unit. -/
def lsuIn (s : Core) (i : CoreIn) : LsuIn where
  inValid := s.exu.outValid
  inReady := true
  inst := s.exu.out
  axi := i.lsu

/-- The fetch port as driven by the core. -/
def ifuAxi (s : Core) : AxiReq := s.ifu.axi s.redirectFire s.iduReady

/-- The load/store port as driven by the core. -/
def lsuAxi (s : Core) : AxiReq := s.lsu.axi

/-- The CSR port of this cycle. -/
def csrIn (s : Core) : Csr.In := s.idu.out.csrIn s.csr s.exuInFire

/-- One clock edge with `reset` low. -/
def step (arch : Arch) (s : Core) (i : CoreIn) : Core where
  ifu := s.ifu.step (s.ifuIn i)
  idu := s.idu.step s.iduIn
  exu := s.exu.step s.idu.outValid s.lsuReady s.idu.out s.csr
  csr := s.csr.step s.csrIn
  lsu := s.lsu.step arch (s.lsuIn i)
  rf := s.rf.step s.commitFire s.commit

/-- One clock edge with `reset` high.  Data registers without a reset keep
running; the register file is written only with `reset` low. -/
def reset (arch : Arch) (s : Core) (i : CoreIn) : Core where
  ifu := Ifu.reset arch
  idu := s.idu.reset
  exu := s.exu.reset
  csr := s.csr.step s.csrIn
  lsu := s.lsu.reset arch (s.lsuIn i)
  rf := s.rf

/-- What a reset edge leaves behind, and nothing else: data registers without
a reset, the CSR file and the register file are arbitrary. -/
structure AfterReset (arch : Arch) (s : Core) : Prop where
  ifu : s.ifu = Ifu.reset arch
  iduValid : s.idu.outValid = false
  iduException : s.idu.out.exceptionValid = false
  fencePending : s.idu.fencePending = false
  exuValid : s.exu.outValid = false
  lsuState : s.lsu.lsuState = .idle
  lsuValid : s.lsu.outValid = false
  lsuAr : s.lsu.ar.valid = false
  lsuAw : s.lsu.aw.valid = false
  lsuW : s.lsu.w.valid = false

theorem reset_afterReset (arch : Arch) (s : Core) (i : CoreIn) :
    (s.reset arch i).AfterReset arch := by
  constructor <;> rfl

/-- The core one reset edge after all registers were zero. -/
def powerUp (arch : Arch) : Core := reset arch default default

theorem powerUp_afterReset (arch : Arch) : (powerUp arch).AfterReset arch :=
  reset_afterReset arch default default

end Core

end Riscv32.Rtl
