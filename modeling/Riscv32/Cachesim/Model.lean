import Riscv32.Clocked.Run
import Riscv32.Rtl.Params

/-!
# The cache simulator

`cachesim.cpp`: a set-associative table of tags with random replacement, run
over a trace of fetch addresses.  Only presence is simulated, not the words.

The widths given on the compiler's command line are a parameter, and so is the
sequence that `rand` returns, with the number of calls so far in the state: what
holds here holds for every geometry and every generator.

`access` is one turn of the main loop, with its two inner loops as `find` and
`place`; `main` and `hits` are the globals and the hit flags after a whole trace.
-/

namespace Riscv32.Cachesim

open Riscv32.Rtl
open Riscv32.Clocked

/-- `OFFSET_WIDTH`, `INDEX_WIDTH` and `SET_WIDTH`, given on the command line of
the compiler. -/
structure Widths where
  offsetWidth : Nat
  indexWidth : Nat
  setWidth : Nat
deriving DecidableEq, Repr

namespace Widths

/-- `WAY_WIDTH`. -/
def wayWidth (w : Widths) : Nat := w.indexWidth - w.setWidth

/-- `CACHE_NUM_WAYS`. -/
def numWays (w : Widths) : Nat := 1 <<< w.wayWidth

/-- `find_set`. -/
def findSet (w : Widths) (addr : Word) : Word :=
  (addr >>> w.offsetWidth) &&& ((1#32 <<< w.setWidth) - 1)

/-- `find_tag`. -/
def findTag (w : Widths) (addr : Word) : Word := addr >>> (w.offsetWidth + w.setWidth)

end Widths

/-- The globals; `randCalls` counts the calls of `rand`. -/
structure Sim where
  valids : Nat → Nat → Word
  tags : Nat → Nat → Word
  cacheAccessCount : BitVec 64
  cacheHitCount : BitVec 64
  cacheMissCount : BitVec 64
  randCalls : Nat

namespace Sim

/-- The globals before `main`. -/
def init : Sim where
  valids := fun _ _ => 0
  tags := fun _ _ => 0
  cacheAccessCount := 0
  cacheHitCount := 0
  cacheMissCount := 0
  randCalls := 0

/-- `valids[set][way] = 1; tags[set][way] = tag`. -/
def put (s : Sim) (set way : Nat) (tag : Word) : Sim :=
  { s with
    valids := Function.update s.valids set (Function.update (s.valids set) way 1)
    tags := Function.update s.tags set (Function.update (s.tags set) way tag) }

variable (w : Widths) (rand : Nat → Nat)

/-- The loop that looks for the tag. -/
def find (s : Sim) (set : Nat) (tag : Word) : Bool :=
  (List.range w.numWays).any fun i => s.valids set i != 0 && s.tags set i == tag

/-- The loop that places the tag, with `n` ways to go: the first free way, or
on the last way a random one. -/
def place (s : Sim) (set : Nat) (tag : Word) : Nat → Sim
  | 0 => s
  | n + 1 =>
    let i := w.numWays - (n + 1)
    if s.valids set i = 0 then s.put set i tag
    else if i = w.numWays - 1 then
      let way := rand s.randCalls % w.numWays
      place ({ s with randCalls := s.randCalls + 1 }.put set way tag) set tag n
    else place s set tag n

/-- One turn of the main loop, with the hit flag. -/
def access (s : Sim) (pc : Word) : Sim × Bool :=
  let set := (w.findSet pc).toNat
  let tag := w.findTag pc
  let s := { s with cacheAccessCount := s.cacheAccessCount + 1 }
  if s.find w set tag then ({ s with cacheHitCount := s.cacheHitCount + 1 }, true)
  else
    let s := s.place w rand set tag w.numWays
    ({ s with cacheMissCount := s.cacheMissCount + 1 }, false)

/-- The globals after the main loop. -/
def main (trace : List Word) : Sim := feedState (access w rand) init trace

/-- The hit flags of the main loop. -/
def hits (trace : List Word) : List Bool := feedOuts (access w rand) init trace

end Sim

end Riscv32.Cachesim
