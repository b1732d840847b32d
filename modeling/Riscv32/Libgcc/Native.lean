import Riscv32.Libgcc.Div
import Riscv32.Program.Machine

/-!
# The arithmetic routines on a core

A call of a routine does what the instruction of the M extension would do to
`a0`.  The routines are assembled natively here; any layout of the program that
keeps the branches within reach will do.

The work is in `Libgcc.Div` and `Libgcc.Mul`, on lines; `native_refines` carries it
to the instructions of an image.  The same routines on a core without most of
these instructions are in `Minirv.Routines`.

`div_native` and `mul_native` are the results.
-/

namespace Riscv32.Libgcc

open Isa Program

/-- The line a division routine begins at, by the instruction it stands for. -/
def divEntry : RegOp → Option Nat
  | .div => some 0
  | .divu => some 2
  | .remu => some 20
  | .rem => some 33
  | _ => none

section Calls

variable {code : Code} {loc : Nat → Word} {h : Hart}

/-- The routines of `div.S`, on lines. -/
theorem div_routine (hIn : Installed code loc (div loc))
    (hEven : ∀ i, loc i &&& ~~~1#32 = loc i) {f : RegOp} {i : Nat} (hEntry : divEntry f = some i)
    (hPc : h.pc = loc i) : Inevitable (Steps (lineStep code))
      (Returned (f.value (h.get a0) (h.get a1)) h) h := by
  cases f with
  | div =>
      cases hEntry
      exact divsi3_returns hIn hEven hPc
  | divu =>
      cases hEntry
      exact (udivsi3_returns hIn hPc).mono fun t ht =>
        ⟨ht.pc, ht.keeps.mono (by decide), ht.quotient⟩
  | remu =>
      cases hEntry
      exact umodsi3_returns hIn hEven hPc
  | rem =>
      cases hEntry
      exact modsi3_returns hIn hEven hPc
  | _ => cases hEntry

variable {prog : Image} (hReal : Realises prog Line.native code)
  (hNear : ∀ a l next, code a = some (l, next) → l.Near a)

include hReal hNear

/-- **Division in software**: from the entry of a routine every run of the
instructions comes back to the caller with what the instruction would have
given, whatever the operands, with the memory as it was and no register changed
but `ra`, `t0` and `a0` to `a3`. -/
theorem div_native (hIn : Installed code loc (div loc)) (hEven : ∀ i, loc i &&& ~~~1#32 = loc i)
    {f : RegOp} {i : Nat} (hEntry : divEntry f = some i) (hPc : h.pc = loc i) :
    Inevitable (Steps (instStep prog)) (Returned (f.value (h.get a0) (h.get a1)) h) h :=
  native_refines hReal hNear (div_routine hIn hEven hEntry hPc)

/-- **Multiplication in software**: from the entry of `__mulsi3` every run of
the instructions comes back to the caller with the product, with the memory as
it was and no register changed but `a0` to `a3`. -/
theorem mul_native (hIn : Installed code loc (muldi3 loc)) (hPc : h.pc = loc 0) :
    Inevitable (Steps (instStep prog)) (MulDone h) h :=
  native_refines hReal hNear (mulsi3_returns hIn hPc)

end Calls

/-- A call of `__divsi3` with minus seven and two. -/
def divCall : Hart where
  x r := if r = 10#5 then -7 else if r = 11#5 then 2 else 0x80000100#32
  mem _ := 0
  pc := flatLoc 0

theorem div_lines_single : ∀ l ∈ div flatLoc, ∀ pc, (l.native pc).length = 1 := by
  simp [div, Line.native]

theorem div_native_seven :
    RegOp.div.value (divCall.get a0) (divCall.get a1) = -3 ∧
      Inevitable (Steps (instStep (flatImage (div flatLoc))))
        (Returned (RegOp.div.value (divCall.get a0) (divCall.get a1)) divCall) divCall :=
  ⟨by decide, div_native (h := divCall) (flatImage_realises div_lines_single)
    (fun _ _ _ => flatCode_near (by decide)) (flatCode_installed (by decide)) flatLoc_even rfl rfl⟩

theorem mul_lines_single : ∀ l ∈ muldi3 flatLoc, ∀ pc, (l.native pc).length = 1 := by
  simp [muldi3, Line.native]

theorem mul_native_seven :
    divCall.get a0 * divCall.get a1 = -14 ∧
      Inevitable (Steps (instStep (flatImage (muldi3 flatLoc)))) (MulDone divCall) divCall :=
  ⟨by decide, mul_native (h := divCall) (flatImage_realises mul_lines_single)
    (fun _ _ _ => flatCode_near (by decide)) (flatCode_installed (by decide)) rfl⟩

end Riscv32.Libgcc
