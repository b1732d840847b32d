import Riscv32.Sdb.Expression

/-!
# The whole language

The debugger's expressions with relations and prefix `*`: trees with
parentheses wherever C's precedence and associativity need them or anywhere
else, the texts they are printed to, and what they mean in a machine.  Nothing
here is read off the scanner or the evaluator.

`denote` takes the meaning of the binary operators as a parameter, so that what a
sentence says and what the `switch` of `eval` makes of it are the same function at
two readings.  A sentence is cut into `Piece`s, where a prefix `*` is a piece of
its own kind; the scanner has to find out which stars those are.
-/

namespace Riscv32.Sdb

open Riscv32.Rtl

/-! ## Operators -/

inductive Relation
  | lt | le | gt | ge
deriving DecidableEq, Repr

namespace Relation

def text : Relation → List Char
  | lt => ['<']
  | le => ['<', '=']
  | gt => ['>']
  | ge => ['>', '=']

/-- The relation of unsigned words. -/
def Holds : Relation → Word → Word → Prop
  | lt, x, y => x < y
  | le, x, y => x ≤ y
  | gt, x, y => y < x
  | ge, x, y => y ≤ x

instance (r : Relation) (x y : Word) : Decidable (r.Holds x y) :=
  match r with
  | lt => inferInstanceAs (Decidable (x < y))
  | le => inferInstanceAs (Decidable (x ≤ y))
  | gt => inferInstanceAs (Decidable (y < x))
  | ge => inferInstanceAs (Decidable (y ≤ x))

end Relation

inductive Operator
  | arith (o : BinOp)
  | rel (r : Relation)
deriving DecidableEq, Repr

namespace Operator

/-- C's precedence, higher binds tighter. -/
def level : Operator → Nat
  | arith o => o.level
  | rel _ => 3

def apply : Operator → Word → Word → Word
  | arith o, x, y => o.apply x y
  | rel r, x, y => if r.Holds x y then 1 else 0

end Operator

/-! ## Trees -/

/-- `reg i` is `regs[i + 1]`. -/
inductive Tree
  | num (n : Numeral)
  | pc
  | reg (i : Fin 31)
  | paren (e : Tree)
  | deref (e : Tree)
  | bin (op : Operator) (l r : Tree)

namespace Tree

/-- The precedence of the outermost operator; a prefix `*` is tighter than any
binary operator. -/
def level : Tree → Nat
  | bin op _ _ => op.level
  | deref _ => 6
  | _ => 100

/-- An operand that binds weaker than its operator, or as weakly on the right,
stands in parentheses. -/
def Grammatical : Tree → Prop
  | paren e => e.Grammatical
  | deref e => e.Grammatical ∧ 6 ≤ e.level
  | bin op l r =>
    (l.Grammatical ∧ op.level ≤ l.level) ∧ (r.Grammatical ∧ op.level < r.level)
  | _ => True

/-- No prefix `*`. -/
def DerefFree : Tree → Prop
  | paren e => e.DerefFree
  | deref _ => False
  | bin _ l r => l.DerefFree ∧ r.DerefFree
  | _ => True

/-- No binary operator outside `P`. -/
def Over (P : Operator → Prop) : Tree → Prop
  | paren e | deref e => e.Over P
  | bin op l r => P op ∧ l.Over P ∧ r.Over P
  | _ => True

variable {σ : Type}

/-- The value in a machine, from left to right; a prefix `*` loads the word at
its operand's value, and `apply` says what the binary operators compute. -/
def denote (t : Target σ) (apply : Operator → Word → Word → Except Fault Word) :
    Tree → σ → Except Fault (Word × σ)
  | num n, s => .ok (BitVec.ofNat 32 n.value, s)
  | .pc, s => .ok (t.pc s, s)
  | reg i, s => .ok (t.gpr s (i + 1), s)
  | paren e, s => e.denote t apply s
  | deref e, s => do
    let (addr, s) ← e.denote t apply s
    t.load addr s
  | bin op l r, s => do
    let (x, s) ← l.denote t apply s
    let (y, s) ← r.denote t apply s
    let v ← apply op x y
    .ok (v, s)

end Tree

/-- A tree that C reads its text as. -/
structure Sentence where
  tree : Tree
  grammatical : tree.Grammatical

/-! ## Texts -/

/-- The pieces of a text between which blanks may stand; `star` is a prefix `*`. -/
inductive Piece
  | plain (l : Lexeme)
  | rel (r : Relation)
  | star

def Piece.text : Piece → List Char
  | plain l => l.text
  | rel r => r.text
  | star => ['*']

/-- Whether the piece is a `*`, and if so whether it dereferences. -/
def Piece.starKind : Piece → Option Bool
  | plain (.op .mul) => some false
  | star => some true
  | _ => none

def Operator.piece : Operator → Piece
  | arith o => .plain (.op o)
  | rel r => .rel r

def Tree.pieces : Tree → List Piece
  | num n => [.plain (.num n)]
  | pc => [.plain .pc]
  | reg i => [.plain (.reg i)]
  | paren e => .plain .lparen :: (e.pieces ++ [.plain .rparen])
  | deref e => .star :: e.pieces
  | bin op l r => l.pieces ++ op.piece :: r.pieces

/-- Pieces, each with a number of blanks before it. -/
def layout : List (Nat × Piece) → List Char
  | [] => []
  | (n, p) :: ps => blanks n ++ (p.text ++ layout ps)

namespace Sentence

/-- `e` is printed to `s`, with at most 32 blanks before, between and after the
pieces. -/
def PrintsTo (e : Sentence) (s : List Char) : Prop :=
  ∃ gaps : List (Nat × Piece), gaps.map Prod.snd = e.tree.pieces ∧ (∀ g ∈ gaps, g.1 ≤ 32) ∧
    ∃ n ≤ 32, s = layout gaps ++ blanks n

/-- The text has room in the token array. -/
def Fits (e : Sentence) : Prop := e.tree.pieces.length ≤ maxTokens

end Sentence

end Riscv32.Sdb
