import Riscv32.Rtl.Params

/-!
# Arbiter, SoC crossbar and timer

`Arbiter.sv`, `SoCXbar.sv` and `CLINT.sv`.  The arbiter joins the two masters
onto one bus: a read request passes while its master is granted, read data
flows to the owner of the outstanding read, and writes come from the
load/store unit only.  The crossbar sends a read to the timer or off chip.

Each module has its registers as a structure, a `step` for an edge with `reset`
low and a `reset` for one with `reset` high, and one definition for each port it
drives, named after the interface (`axiArb`, `axiIfu`, `axiLsu`, `axiSoc`,
`axiClint`).  The always-blocks of a register are definitions of their own
(`readOwnerNext`, `writeOwnerNext`, `readGrantNext`), so that a change of one
block in the source is a change of one definition here.
-/

namespace Riscv32.Rtl

/-! ## Arbiter -/

/-- `owner_t`. -/
inductive Owner where
  | idle
  | lsu
  | ifu
deriving DecidableEq, Repr, Inhabited

structure Arbiter where
  readOwner : Owner
  writeOwner : Owner
  readGrant : Owner
deriving DecidableEq, Repr, Inhabited

namespace Arbiter

/-- The write channels are connected to the load/store unit. -/
def writeOpen (s : Arbiter) (lsu : AxiReq) : Bool := lsu.awvalid || s.writeOwner == .lsu

/-- The master whose request is on the bus. -/
def granted (s : Arbiter) (ifu lsu : AxiReq) : AxiReq :=
  match s.readGrant with
  | .lsu => lsu
  | .ifu => ifu
  | .idle => {}

/-- `axi_arb` as driven by the arbiter. -/
def axiArb (s : Arbiter) (ifu lsu : AxiReq) : AxiReq where
  araddr := (s.granted ifu lsu).araddr
  arvalid := (s.granted ifu lsu).arvalid
  arburst := (s.granted ifu lsu).arburst
  arlen := (s.granted ifu lsu).arlen
  arsize := (s.granted ifu lsu).arsize
  rready :=
    match s.readOwner with
    | .lsu => lsu.rready
    | .ifu => ifu.rready
    | .idle => false
  awaddr := if s.writeOpen lsu then lsu.awaddr else 0
  awvalid := s.writeOpen lsu && lsu.awvalid
  wdata := if s.writeOpen lsu then lsu.wdata else 0
  wstrb := if s.writeOpen lsu then lsu.wstrb else 0
  wvalid := s.writeOpen lsu && lsu.wvalid
  bready := s.writeOpen lsu && lsu.bready

/-- `axi_ifu` as driven by the arbiter. -/
def axiIfu (s : Arbiter) (arb : AxiResp) : AxiResp where
  arready := s.readGrant == .ifu && arb.arready
  rdata := if s.readOwner == .ifu then arb.rdata else 0
  rresp := if s.readOwner == .ifu then arb.rresp else 0
  rlast := s.readOwner == .ifu && arb.rlast
  rvalid := s.readOwner == .ifu && arb.rvalid
  bresp := if s.writeOwner == .ifu then arb.bresp else 0

/-- `axi_lsu` as driven by the arbiter; `rlast` is undriven. -/
def axiLsu (s : Arbiter) (lsu : AxiReq) (arb : AxiResp) : AxiResp where
  arready := s.readGrant == .lsu && arb.arready
  rdata := if s.readOwner == .lsu then arb.rdata else 0
  rresp := if s.readOwner == .lsu then arb.rresp else 0
  rvalid := s.readOwner == .lsu && arb.rvalid
  awready := s.writeOpen lsu && arb.awready
  wready := s.writeOpen lsu && arb.wready
  bresp := if s.writeOpen lsu then arb.bresp else 0
  bvalid := s.writeOpen lsu && arb.bvalid

/-- The `read_owner` block. -/
def readOwnerNext (s : Arbiter) (ifu lsu : AxiReq) (arb : AxiResp) : Owner :=
  if arFire (s.axiArb ifu lsu) arb then
    if s.readOwner = .idle then s.readGrant else s.readOwner
  else if rFire (s.axiArb ifu lsu) arb then
    match s.readOwner with
    | .lsu => .idle
    | .ifu => if arb.rlast then .idle else .ifu
    | .idle => .idle
  else s.readOwner

/-- The `write_owner` block. -/
def writeOwnerNext (s : Arbiter) (ifu lsu : AxiReq) (arb : AxiResp) : Owner :=
  if awFire (s.axiArb ifu lsu) arb then
    if lsu.awvalid then .lsu else if ifu.awvalid then .ifu else s.writeOwner
  else if bFire (s.axiArb ifu lsu) arb then .idle
  else s.writeOwner

/-- The `read_grant` block; the load/store unit has priority. -/
def readGrantNext (s : Arbiter) (ifu lsu : AxiReq) (arb : AxiResp) : Owner :=
  if s.readGrant = .idle ∧ s.readOwner = .idle then
    if lsu.arvalid then .lsu else if ifu.arvalid then .ifu else .idle
  else if arFire (s.axiArb ifu lsu) arb then .idle
  else s.readGrant

/-- One clock edge with `reset` low. -/
def step (s : Arbiter) (ifu lsu : AxiReq) (arb : AxiResp) : Arbiter where
  readOwner := s.readOwnerNext ifu lsu arb
  writeOwner := s.writeOwnerNext ifu lsu arb
  readGrant := s.readGrantNext ifu lsu arb

/-- The registers after a clock edge with `reset` high. -/
def reset : Arbiter := ⟨.idle, .idle, .idle⟩

end Arbiter

/-! ## SoCXbar -/

/-- `slave_owner_t`. -/
inductive SlaveOwner where
  | idle
  | soc
  | clint
deriving DecidableEq, Repr, Inhabited

structure SocXbar where
  readSlave : SlaveOwner
deriving DecidableEq, Repr, Inhabited

/-- The CLINT window of the SoC crossbar, open at its end. -/
def inClint (addr : Word) : Bool := clintBase .ysyxsoc ≤ addr && addr < clintEnd .ysyxsoc

namespace SocXbar

/-- `axi_soc` as driven by the crossbar; with no slave selected the
read-ready of the bus is passed on. -/
def axiSoc (s : SocXbar) (arb : AxiReq) : AxiReq where
  araddr := if inClint arb.araddr then 0 else arb.araddr
  arvalid := !inClint arb.araddr && arb.arvalid
  arburst := if inClint arb.araddr then 0 else arb.arburst
  arlen := if inClint arb.araddr then 0 else arb.arlen
  arsize := if inClint arb.araddr then 0 else arb.arsize
  rready :=
    match s.readSlave with
    | .clint => false
    | .soc => arb.rready
    | .idle => arb.rready
  awaddr := arb.awaddr
  awvalid := arb.awvalid
  wdata := arb.wdata
  wstrb := arb.wstrb
  wvalid := arb.wvalid
  bready := arb.bready

/-- `axi_clint` as driven by the crossbar. -/
def axiClint (s : SocXbar) (arb : AxiReq) : AxiReq where
  araddr := if inClint arb.araddr then arb.araddr - clintBase .ysyxsoc else 0
  arvalid := inClint arb.araddr && arb.arvalid
  rready := s.readSlave == .clint && arb.rready

/-- `axi_arb` as driven by the crossbar. -/
def axiArb (s : SocXbar) (arb : AxiReq) (soc clint : AxiResp) : AxiResp where
  arready := if inClint arb.araddr then clint.arready else soc.arready
  rdata :=
    match s.readSlave with
    | .clint => clint.rdata
    | .soc => soc.rdata
    | .idle => 0
  rresp :=
    match s.readSlave with
    | .clint => clint.rresp
    | .soc => soc.rresp
    | .idle => 0
  rvalid :=
    match s.readSlave with
    | .clint => clint.rvalid
    | .soc => soc.rvalid
    | .idle => false
  rlast := s.readSlave == .soc && soc.rlast
  awready := soc.awready
  wready := soc.wready
  bresp := soc.bresp
  bvalid := soc.bvalid

/-- The assignments of the block that follow the reset assignment. -/
def readSlaveNext (s : SocXbar) (arb : AxiReq) (resp : AxiResp) (default : SlaveOwner) :
    SlaveOwner :=
  if arFire arb resp then if inClint arb.araddr then .clint else .soc
  else if rFire arb resp then
    match s.readSlave with
    | .soc => if resp.rlast then .idle else default
    | .clint => .idle
    | .idle => default
  else default

/-- One clock edge with `reset` low. -/
def step (s : SocXbar) (arb : AxiReq) (soc clint : AxiResp) : SocXbar where
  readSlave := s.readSlaveNext arb (s.axiArb arb soc clint) s.readSlave

/-- One clock edge with `reset` high.  The block has no `else` after the
reset branch, so a request accepted in this cycle still selects a slave. -/
def reset (s : SocXbar) (arb : AxiReq) (soc clint : AxiResp) : SocXbar where
  readSlave := s.readSlaveNext arb (s.axiArb arb soc clint) .idle

theorem reset_idle (s : SocXbar) {arb : AxiReq} {soc clint : AxiResp}
    (hAr : arb.arvalid = false) (hR : arb.rready = false) :
    (s.reset arb soc clint).readSlave = .idle := by
  simp [reset, readSlaveNext, arFire, rFire, hAr, hR]

end SocXbar

/-! ## CLINT -/

structure Clint where
  mtimeLo : Word
  mtimeHi : Word
  arready : Bool
  rvalid : Bool
  rdata : Word
  rresp : BitVec 2
deriving DecidableEq, Repr, Inhabited

namespace Clint

/-- The port as driven by the timer; it has no write channels. -/
def axi (s : Clint) : AxiResp where
  arready := s.arready
  rdata := s.rdata
  rresp := s.rresp
  rvalid := s.rvalid

/-- One clock edge with `reset` low. -/
def step (s : Clint) (req : AxiReq) : Clint where
  mtimeLo := if s.mtimeLo = 0xffffffff#32 then 0 else s.mtimeLo + 1
  mtimeHi := if s.mtimeLo = 0xffffffff#32 then s.mtimeHi + 1 else s.mtimeHi
  arready := !s.rvalid
  rvalid :=
    if arFire req s.axi then true else if rFire req s.axi then false else s.rvalid
  rdata :=
    if arFire req s.axi then
      if req.araddr = 0x48#32 then s.mtimeLo
      else if req.araddr = 0x4c#32 then s.mtimeHi
      else s.rdata
    else s.rdata
  rresp := if arFire req s.axi then 0 else s.rresp

/-- The registers after reset; `rdata` and `rresp` have none. -/
def reset (s : Clint) : Clint :=
  { s with mtimeLo := 0, mtimeHi := 0, arready := false, rvalid := false }

end Clint

end Riscv32.Rtl
