import Riscv32.Sdb.Expression

/-!
# The expression generator

`tools/gen-expr/gen-expr.c`: one recursion writes an expression to `buf` and
computes its value.  The results of `rand()` are an arbitrary sequence.  The
text is `buf` up to `position`; every store goes to `position`, so what stands
behind it is never read.

The recursion has no bound of its own in the source: `genRandExpr` takes fuel, and
that enough of it exists for every sequence is proved in `Sdb.Generator`.  `Draw`
is the tree that a sequence selects, read off the sequence and not off the text.
-/

namespace Riscv32.Sdb

open Riscv32.Rtl

/-- `sizeof(buf)`. -/
abbrev bufSize : Nat := 65536

/-- The globals: how often `rand` was called, `buf` up to `position`, `cnt`. -/
structure GenState where
  drawn : Nat
  buf : List Char
  cnt : Nat
deriving DecidableEq, Repr

/-- `gen`; `none` is a store behind `buf`. -/
def GenState.gen (g : GenState) (ch : Char) : Option GenState :=
  if g.buf.length < bufSize then some { g with buf := g.buf ++ [ch] } else none

/-- A sequence of stores. -/
def GenState.genAll (g : GenState) (text : List Char) : Option GenState :=
  text.foldlM GenState.gen g

/-- `rand()%num`. -/
def GenState.choose (rand : Nat → Nat) (g : GenState) (num : Nat) : Nat × GenState :=
  (rand g.drawn % num, { g with drawn := g.drawn + 1 })

/-- `cnt_num`. -/
def cntNum (num : Nat) : Nat := if num = 0 then 0 else cntNum (num / 10) + 1

/-- The digits of `gen_num` from number `i - 1` down to number 0. -/
def genDigits (num : Nat) : Nat → List Char
  | 0 => []
  | i + 1 => Char.ofNat ((· / 10)^[i] num % 10 + 48) :: genDigits num i

/-- `gen_num`. -/
def genNum (rand : Nat → Nat) (g : GenState) : Option (Word × GenState) := do
  let (num, g) := g.choose rand 1000000
  let g ← g.genAll (genDigits num (cntNum num))
  let g ← g.gen 'u'
  some (BitVec.ofNat 32 num, g)

inductive GenOp
  | add | sub | mul | div
deriving DecidableEq, Repr

namespace GenOp

/-- `case 0` to `case 3`. -/
def ofChoice : Nat → GenOp
  | 0 => add
  | 1 => sub
  | 2 => mul
  | _ => div

def char : GenOp → Char
  | add => '+'
  | sub => '-'
  | mul => '*'
  | div => '/'

end GenOp

/-- `gen_rand_op`. -/
def genRandOp (rand : Nat → Nat) (g : GenState) : Option (GenOp × GenState) := do
  let (op, g) := g.choose rand 4
  let g ← g.gen (GenOp.ofChoice op).char
  some (GenOp.ofChoice op, g)

/-- `gen_rand_expr`, at most `fuel` calls deep. -/
def genRandExpr (rand : Nat → Nat) : Nat → GenState → Option (Word × GenState)
  | 0, _ => none
  | fuel + 1, g =>
    let g := { g with cnt := g.cnt + 1 }
    if g.cnt < 100 then
      let (choice, g) := g.choose rand 3
      match choice with
      | 0 => genNum rand g
      | 1 => genRandExpr rand fuel g
      | _ => do
        let g ← g.gen '('
        let (ret3, g) ← genRandExpr rand fuel g
        let g ← g.gen ')'
        let (op, g) ← genRandOp rand g
        let startPos := g.buf.length
        let g ← g.gen '('
        let (ret4, g) ← genRandExpr rand fuel g
        let g ← g.gen ')'
        match op with
        | .add => some (ret3 + ret4, g)
        | .sub => some (ret3 - ret4, g)
        | .mul => some (ret3 * ret4, g)
        | .div =>
          if ret4 = 0 then do
            let g ← { g with buf := g.buf.take startPos }.gen '1'
            some (ret3, g)
          else some (ret3 / ret4, g)
    else genNum rand g

/-- One turn of `main`: the number `gen_rand_expr` returns and the text in `buf`. -/
def generate (rand : Nat → Nat) : Option (Word × List Char) :=
  (genRandExpr rand 100 ⟨0, [], 0⟩).map fun r => (r.1, r.2.buf)

/-! ## The choices behind a sequence of random numbers -/

/-- The numbers and operators that a sequence selects. -/
inductive Draw
  | num (n : Nat)
  | op (o : GenOp) (l r : Draw)
deriving DecidableEq, Repr

/-- Reads a sequence, from number `i` on, as the calls of `gen_rand_expr` do. -/
def drawTree (rand : Nat → Nat) : Nat → Nat → Nat → Option (Draw × Nat × Nat)
  | 0, _, _ => none
  | fuel + 1, i, cnt =>
    if cnt + 1 < 100 then
      match rand i % 3 with
      | 0 => some (.num (rand (i + 1) % 1000000), i + 2, cnt + 1)
      | 1 => drawTree rand fuel (i + 1) (cnt + 1)
      | _ => do
        let (l, i, cnt) ← drawTree rand fuel (i + 1) (cnt + 1)
        let (r, i', cnt) ← drawTree rand fuel (i + 1) cnt
        some (.op (GenOp.ofChoice (rand i % 4)) l r, i', cnt)
    else some (.num (rand i % 1000000), i + 1, cnt + 1)

/-- The tree of a sequence. -/
def drawn (rand : Nat → Nat) : Option Draw := (drawTree rand 100 0 0).map Prod.fst

def GenOp.binOp : GenOp → BinOp
  | .add => .add
  | .sub => .sub
  | .mul => .mul
  | .div => .div

namespace Draw

/-- Unsigned arithmetic, a zero divisor counting as 1. -/
def value : Draw → Word
  | num n => BitVec.ofNat 32 n
  | op o l r => o.binOp.apply l.value r.value

/-- No number is 0, except inside divisors that are 0 themselves. -/
def Clean : Draw → Prop
  | num n => n ≠ 0
  | op o l r => l.Clean ∧ (r.Clean ∨ o = .div ∧ r.value = 0)

instance decidableClean : ∀ d : Draw, Decidable d.Clean
  | num n => inferInstanceAs (Decidable (n ≠ 0))
  | op o l r =>
    let _ := decidableClean l
    let _ := decidableClean r
    inferInstanceAs (Decidable (l.Clean ∧ (r.Clean ∨ o = .div ∧ r.value = 0)))

end Draw

/-! ## C's reading of a text -/

/-- The value of a C expression in which every operation has an unsigned
operand, with whether its type is unsigned; no value where a divisor is 0. -/
def Exp.cValue : Exp → Option (Bool × Word)
  | num n =>
    match n.radix with
    | .decU => some (true, BitVec.ofNat 32 n.value)
    | .dec => if n.value < 2147483648 then some (false, BitVec.ofNat 32 n.value) else none
    | .hex | .hexX => some (decide (2147483648 ≤ n.value), BitVec.ofNat 32 n.value)
  | pc | reg _ => none
  | paren e => e.cValue
  | bin op l r => do
    let (ul, x) ← l.cValue
    let (ur, y) ← r.cValue
    if (ul || ur) = false ∨ op = .div ∧ y = 0 then none
    else some (op != .eq && op != .and, op.apply x y)

end Riscv32.Sdb
