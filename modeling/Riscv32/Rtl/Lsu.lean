import Riscv32.Rtl.Exu

/-!
# Load/store unit

`LSU.sv`.  An instruction that touches memory is turned into one read or one
write on the AXI port; every other instruction passes through in one cycle.
The unit holds one instruction at a time.

The state machine (`stateNext`), what is latched of an instruction (`latchNext`)
and the three request channels (`arNext`, `awNext`, `wNext`) are separate
definitions over the same registers.  Burst attributes of the port are undriven
and zero here.  `loadExtract`, `storeWdata` and `storeWstrb` are the byte lanes,
moved by the low two bits of the address.
-/

namespace Riscv32.Rtl

/-- `lsu_state_t`. -/
inductive LsuState where
  | idle
  | readAddr
  | waitR
  | writeReq
  | waitB
  | done
deriving DecidableEq, Repr, Inhabited

/-- `is_mmio_addr`. -/
def isMmioAddr (arch : Arch) (addr : Word) : Bool :=
  inWindow uartBase uartEnd addr || inWindow (clintBase arch) (clintEnd arch) addr ||
  match arch with
  | .npc => false
  | .ysyxsoc =>
      inWindow 0x10001000#32 0x10001fff#32 addr ||
      inWindow 0x10002000#32 0x1000200f#32 addr ||
      inWindow 0x10011000#32 0x10011007#32 addr ||
      inWindow 0x21000000#32 0x211fffff#32 addr

/-- Registers latched when an instruction is taken. -/
structure LsuLatch where
  loadSize : BitVec 3
  memAddr : Word
  outRd : BitVec 5
  outRfWe : Bool
  outIsFencei : Bool
  outPc : Word
  outInst : Word
  outNpc : Word
  outIsEbreak : Bool
  outIsMmio : Bool
deriving DecidableEq, Repr, Inhabited

/-- The address of a read or write request with its valid bit. -/
structure AddrChan where
  addr : Word
  valid : Bool
deriving DecidableEq, Repr, Inhabited

/-- The write-data channel. -/
structure DataChan where
  data : Word
  strb : BitVec 4
  valid : Bool
deriving DecidableEq, Repr, Inhabited

structure Lsu extends LsuLatch where
  lsuState : LsuState
  outValid : Bool
  outWbData : Word
  ar : AddrChan
  aw : AddrChan
  w : DataChan
deriving DecidableEq, Repr, Inhabited

structure LsuIn where
  inValid : Bool
  inReady : Bool
  inst : ExuOut
  axi : AxiResp
deriving DecidableEq, Repr, Inhabited

/-- What is latched of an instruction taken from the execute unit. -/
def lsuLatchOf (arch : Arch) (x : ExuOut) : LsuLatch where
  loadSize := x.loadSize
  memAddr := x.memAddr
  outRd := x.rd
  outRfWe := x.rfWe
  outIsFencei := x.isFencei
  outPc := x.pc
  outInst := x.inst
  outNpc := x.npc
  outIsEbreak := x.isEbreak
  outIsMmio := (x.isLoad || x.isStore) && isMmioAddr arch x.memAddr

/-- The value a load of width `size` at `addr` takes from the bus word. -/
def loadExtract (size : BitVec 3) (addr rdata : Word) : Word :=
  let word := rdata >>> ((addr.extractLsb' 0 2).toNat * 8)
  match size with
  | 0b000#3 => (word.extractLsb' 0 8).signExtend 32
  | 0b001#3 => (word.extractLsb' 0 16).signExtend 32
  | 0b010#3 => word
  | 0b100#3 => word &&& 0xff
  | 0b101#3 => word &&& 0xffff
  | _ => 0

/-- `wdata` of a store. -/
def storeWdata (size : BitVec 3) (addr data : Word) : Word :=
  match size with
  | 0b000#3 =>
      (data.extractLsb' 0 8 ++ data.extractLsb' 0 8 ++ data.extractLsb' 0 8 ++
        data.extractLsb' 0 8 : BitVec 32)
  | 0b001#3 => (data.extractLsb' 0 16).setWidth 32 <<< ((addr.extractLsb' 0 2).toNat * 8)
  | _ => data

/-- `wstrb` of a store. -/
def storeWstrb (size : BitVec 3) (addr : Word) : BitVec 4 :=
  match size with
  | 0b000#3 => 0b0001#4 <<< (addr.extractLsb' 0 2)
  | 0b001#3 => 0b0011#4 <<< (addr.extractLsb' 0 2)
  | 0b010#3 => 0b1111#4
  | _ => 0

namespace Lsu

/-- `out_ready`. -/
def outReady (s : Lsu) : Bool := s.lsuState == .idle && !s.outValid

/-- `out_pending_valid`. -/
def outPendingValid (s : Lsu) : Bool := s.lsuState != .idle && !s.outValid

/-- The AXI port as driven by the unit; burst attributes are undriven. -/
def axi (s : Lsu) : AxiReq where
  araddr := s.ar.addr
  arvalid := s.ar.valid
  rready := s.lsuState == .waitR
  awaddr := s.aw.addr
  awvalid := s.aw.valid
  wdata := s.w.data
  wstrb := s.w.strb
  wvalid := s.w.valid
  bready := s.lsuState == .waitB

def inFire (s : Lsu) (i : LsuIn) : Bool := i.inValid && s.outReady
def outFire (s : Lsu) (i : LsuIn) : Bool := s.outValid && i.inReady

/-- An instruction that the unit passes through is taken. -/
def passFire (s : Lsu) (i : LsuIn) : Bool :=
  s.inFire i && !i.inst.isLoad && !i.inst.isStore

/-- A load is taken in `LSU_IDLE`. -/
def loadFire (s : Lsu) (i : LsuIn) : Bool :=
  s.lsuState == .idle && i.inValid && s.outReady && i.inst.isLoad

/-- A store is taken in `LSU_IDLE`. -/
def storeFire (s : Lsu) (i : LsuIn) : Bool :=
  s.lsuState == .idle && i.inValid && s.outReady && i.inst.isStore

/-- The state machine. -/
def stateNext (s : Lsu) (i : LsuIn) : LsuState :=
  match s.lsuState with
  | .idle =>
      if i.inValid && s.outReady && i.inst.isLoad then .readAddr
      else if i.inValid && s.outReady && i.inst.isStore then .writeReq
      else .idle
  | .readAddr => if arFire s.axi i.axi then .waitR else .readAddr
  | .waitR => if rFire s.axi i.axi then .done else .waitR
  | .writeReq => if awFire s.axi i.axi && wFire s.axi i.axi then .waitB else .writeReq
  | .waitB => if bFire s.axi i.axi then .done else .waitB
  | .done => if s.outValid && i.inReady then .idle else .done

/-- The registers latched at `in_fire`. -/
def latchNext (arch : Arch) (s : Lsu) (i : LsuIn) : LsuLatch :=
  if s.inFire i then lsuLatchOf arch i.inst else s.toLsuLatch

def outValidNext (s : Lsu) (i : LsuIn) : Bool :=
  if rFire s.axi i.axi || bFire s.axi i.axi then true
  else if s.passFire i then true
  else if s.outFire i then false
  else s.outValid

/-- `out_wb_data`: the pass-through assignment comes last in the block. -/
def wbDataNext (s : Lsu) (i : LsuIn) : Word :=
  if s.passFire i then i.inst.wbData
  else if rFire s.axi i.axi then loadExtract s.loadSize s.memAddr i.axi.rdata
  else s.outWbData

def arNext (s : Lsu) (i : LsuIn) : AddrChan :=
  if s.loadFire i then ⟨i.inst.memAddr, true⟩
  else if arFire s.axi i.axi then { s.ar with valid := false }
  else s.ar

def awNext (s : Lsu) (i : LsuIn) : AddrChan :=
  if s.storeFire i then ⟨i.inst.memAddr, true⟩
  else if awFire s.axi i.axi then { s.aw with valid := false }
  else s.aw

def wNext (s : Lsu) (i : LsuIn) : DataChan :=
  if s.storeFire i then
    ⟨storeWdata i.inst.storeSize i.inst.memAddr i.inst.storeData,
      storeWstrb i.inst.storeSize i.inst.memAddr, true⟩
  else if wFire s.axi i.axi then { s.w with valid := false }
  else s.w

/-- One clock edge with `reset` low. -/
def step (arch : Arch) (s : Lsu) (i : LsuIn) : Lsu where
  toLsuLatch := s.latchNext arch i
  lsuState := s.stateNext i
  outValid := s.outValidNext i
  outWbData := s.wbDataNext i
  ar := s.arNext i
  aw := s.awNext i
  w := s.wNext i

/-- One clock edge with `reset` high: only the state, the valid bits and
nothing of the latched data is reset. -/
def reset (arch : Arch) (s : Lsu) (i : LsuIn) : Lsu where
  toLsuLatch := s.latchNext arch i
  lsuState := .idle
  outValid := false
  outWbData := s.wbDataNext i
  ar := { s.ar with valid := false }
  aw := { s.aw with valid := false }
  w := { s.w with valid := false }

/-- The unit as the `lsu_pending` producer window. -/
def pendingProducer (s : Lsu) : Producer := ⟨s.outPendingValid, s.outRfWe, s.outRd⟩

end Lsu

end Riscv32.Rtl
