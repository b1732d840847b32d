import Riscv32.Data.Linked
import Mathlib.Data.List.FinRange

/-!
# Watchpoints

`watchpoint.c` and the commands `w` and `d` of `sdb.c`; the simulator's
debugger has the same code.  The nodes of a fixed pool move between the list
of live watchpoints and the free list.  `w` numbers a watchpoint one above the
newest live one; `d` deletes by number.

The pool is modelled with its pointers: an array of nodes whose `next` is an index
or null, and the two heads.  A failed assertion is `none`.  What the lists are and
that no node is lost is shown in `Sdb.Pool`.
-/

namespace Riscv32.Sdb

/-- `NR_WP`. -/
abbrev nrWp : Nat := 32

abbrev WpPtr := Option (Fin nrWp)

/-- `WP`; `cnt` is an `int`. -/
structure Wp where
  no : BitVec 32
  next : WpPtr
  addrExpr : List Char
  lastVal : BitVec 32
  cnt : BitVec 32
deriving DecidableEq, Inhabited

/-- `wp_pool`, `head` and `free_`. -/
structure WpPool where
  wpPool : Fin nrWp → Wp
  head : WpPtr
  free : WpPtr

namespace WpPool

/-- `next` as a map. -/
def next (p : WpPool) (n : Fin nrWp) : WpPtr := (p.wpPool n).next

/-- Writes one node. -/
def set (p : WpPool) (n : Fin nrWp) (wp : Wp) : WpPool :=
  { p with wpPool := Function.update p.wpPool n wp }

/-- `n->next = q`. -/
def setNext (p : WpPool) (n : Fin nrWp) (q : WpPtr) : WpPool :=
  p.set n { p.wpPool n with next := q }

/-- `init_wp_pool`. -/
def initWpPool (p : WpPool) : WpPool where
  wpPool i :=
    { p.wpPool i with
      no := BitVec.ofNat 32 i
      next := if h : i.val + 1 < nrWp then some ⟨i + 1, h⟩ else none }
  head := none
  free := some 0

/-- `new_wp`; `none` is the failed assertion. -/
def newWp (p : WpPool) : Option (WpPool × Fin nrWp) :=
  match p.free with
  | none => none
  | some n =>
    let tmp := p.next n
    some ({ p.setNext n p.head with head := some n, free := tmp }, n)

/-- `wp->next = free_; free_ = wp`. -/
def release (p : WpPool) (wp : Fin nrWp) : WpPool :=
  { p.setNext wp p.free with free := some wp }

/-- The loop of `free_wp`, with `fuel` turns to go. -/
def unlink (p : WpPool) (wp : Fin nrWp) : Nat → Fin nrWp → Option WpPool
  | 0, _ => none
  | fuel + 1, tmp =>
    match p.next tmp with
    | none => some p
    | some n =>
      if (p.wpPool wp).no = (p.wpPool n).no then
        some ((p.setNext tmp (p.next wp)).release wp)
      else unlink p wp fuel n

/-- `free_wp`. -/
def freeWp (p : WpPool) (wp : Fin nrWp) : Option WpPool :=
  match p.head with
  | none => some p
  | some h =>
    if (p.wpPool wp).no = (p.wpPool h).no then some ({ p with head := p.next h }.release wp)
    else p.unlink wp nrWp h

/-- `cmd_w`, with the value `expr` returns for the text. -/
def cmdW (p : WpPool) (args : List Char) (val : BitVec 32) : Option WpPool :=
  match p.newWp with
  | none => none
  | some (p, wp) =>
    let cnt := match p.next wp with
      | none => 1
      | some n => (p.wpPool n).cnt + 1
    some (p.set wp { p.wpPool wp with addrExpr := args.take 127, lastVal := val, cnt := cnt })

/-- The loop of `cmd_d`, with `fuel` turns to go. -/
def delete (p : WpPool) (num : BitVec 32) : Nat → WpPtr → Option WpPool
  | 0, _ => none
  | _ + 1, none => some p
  | fuel + 1, some n =>
    if (p.wpPool n).cnt = num then p.freeWp n else delete p num fuel (p.next n)

/-- `cmd_d`, with the number read from its text. -/
def cmdD (p : WpPool) (num : BitVec 32) : Option WpPool :=
  match p.head with
  | none => some p
  | some h =>
    if (p.wpPool h).cnt.slt num then some p else p.delete num (nrWp + 1) p.head

end WpPool

/-- A debugger command. -/
inductive WpCmd where
  | w (args : List Char) (val : BitVec 32)
  | d (num : BitVec 32)

/-- One command; `none` if it does not return. -/
def WpPool.exec (p : WpPool) : WpCmd → Option WpPool
  | .w args val => p.cmdW args val
  | .d num => p.cmdD num

/-- A sequence of commands. -/
def WpPool.execAll (p : WpPool) (cmds : List WpCmd) : Option WpPool :=
  cmds.foldlM WpPool.exec p

end Riscv32.Sdb
