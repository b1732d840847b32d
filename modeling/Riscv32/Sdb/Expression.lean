import Riscv32.Sdb.Expr

/-!
# Arithmetic expressions

What the debugger's expressions mean: trees over numerals, registers and the
binary operators, with parentheses wherever C's precedence and associativity
need them or anywhere else, and the texts such a tree is printed to.  Nothing
here is read off the evaluator.

An `Expression` carries the proof that its parentheses are where they must be, so
a text determines its tree.  `PrintsTo` allows up to 32 blanks at any place between
two lexemes, and `Fits` asks for room in the token array; both are the hypotheses
of everything that is said about printed expressions.
-/

namespace Riscv32.Sdb

open Riscv32.Rtl

/-! ## Numerals -/

/-- `1`, `1u`, `0x1`, `0X1`. -/
inductive Radix
  | dec | decU | hex | hexX
deriving DecidableEq, Repr

namespace Radix

def base : Radix → Nat
  | dec | decU => 10
  | hex | hexX => 16

def alphabet : Radix → List Char
  | dec | decU => decDigits
  | hex | hexX => hexDigits

def lead : Radix → List Char
  | dec | decU => []
  | hex => ['0', 'x']
  | hexX => ['0', 'X']

def trail : Radix → List Char
  | decU => ['u']
  | _ => []

end Radix

/-- The number that digits stand for, most significant first. -/
def digitsValue (base : Nat) (digits : List Char) : Nat :=
  digits.foldl (fun acc c => base * acc + digitVal c) 0

/-- A numeral of at most 31 characters whose value fits a word. -/
structure Numeral where
  radix : Radix
  digits : List Char
  digits_ne : digits ≠ []
  digits_mem : ∀ c ∈ digits, c ∈ radix.alphabet
  /-- A decimal numeral has no leading zero. -/
  head_ne : radix.base = 10 → digits.head? = some '0' → digits.length = 1
  value_lt : digitsValue radix.base digits < 4294967296
  length_le : (radix.lead ++ digits ++ radix.trail).length ≤ 31

namespace Numeral

def text (n : Numeral) : List Char := n.radix.lead ++ n.digits ++ n.radix.trail

def value (n : Numeral) : Nat := digitsValue n.radix.base n.digits

end Numeral

/-! ## Trees -/

inductive BinOp
  | add | sub | mul | div | eq | and
deriving DecidableEq, Repr

namespace BinOp

/-- C's precedence, higher binds tighter. -/
def level : BinOp → Nat
  | and => 1
  | eq => 2
  | add | sub => 4
  | mul | div => 5

/-- Unsigned arithmetic; `x / 0` is `x`. -/
def apply (op : BinOp) (x y : Word) : Word :=
  match op with
  | add => x + y
  | sub => x - y
  | mul => x * y
  | div => if y = 0 then x else x / y
  | eq => if x = y then 1 else 0
  | and => if x ≠ 0 ∧ y ≠ 0 then 1 else 0

def text : BinOp → List Char
  | add => ['+']
  | sub => ['-']
  | mul => ['*']
  | div => ['/']
  | eq => ['=', '=']
  | and => ['&', '&']

end BinOp

/-- `reg i` is `regs[i + 1]`. -/
inductive Exp
  | num (n : Numeral)
  | pc
  | reg (i : Fin 31)
  | paren (e : Exp)
  | bin (op : BinOp) (l r : Exp)

/-- The name of `reg i`. -/
def regName (i : Fin 31) : List Char := (regs[i.val + 1]?).getD []

namespace Exp

/-- The precedence of the outermost operator; operands have none above them. -/
def level : Exp → Nat
  | bin op _ _ => op.level
  | _ => 100

/-- An operand that binds weaker than its operator, or as weakly on the right,
stands in parentheses. -/
def Grammatical : Exp → Prop
  | paren e => e.Grammatical
  | bin op l r =>
    (l.Grammatical ∧ op.level ≤ l.level) ∧ (r.Grammatical ∧ op.level < r.level)
  | _ => True

/-- The value in a machine. -/
def value (pc : Word) (gpr : Nat → Word) : Exp → Word
  | num n => BitVec.ofNat 32 n.value
  | .pc => pc
  | reg i => gpr (i + 1)
  | paren e => e.value pc gpr
  | bin op l r => op.apply (l.value pc gpr) (r.value pc gpr)

end Exp

/-- A tree that C reads its text as. -/
structure Expression where
  tree : Exp
  grammatical : tree.Grammatical

/-! ## Texts -/

/-- The pieces of a text between which blanks may stand. -/
inductive Lexeme
  | num (n : Numeral)
  | pc
  | reg (i : Fin 31)
  | op (o : BinOp)
  | lparen
  | rparen

def Lexeme.text : Lexeme → List Char
  | num n => n.text
  | pc => ['$', 'p', 'c']
  | reg i => '$' :: regName i
  | op o => o.text
  | lparen => ['(']
  | rparen => [')']

def Exp.lexemes : Exp → List Lexeme
  | num n => [.num n]
  | pc => [.pc]
  | reg i => [.reg i]
  | paren e => .lparen :: (e.lexemes ++ [.rparen])
  | bin op l r => l.lexemes ++ .op op :: r.lexemes

/-- `n` blanks. -/
def blanks (n : Nat) : List Char := List.replicate n ' '

/-- Lexemes, each with a number of blanks before it. -/
def spell : List (Nat × Lexeme) → List Char
  | [] => []
  | (n, l) :: ls => blanks n ++ (l.text ++ spell ls)

/-- `s` is `ls` with at most 32 blanks before, between and after. -/
def Spells (ls : List Lexeme) (s : List Char) : Prop :=
  ∃ gaps : List (Nat × Lexeme), gaps.map Prod.snd = ls ∧ (∀ g ∈ gaps, g.1 ≤ 32) ∧
    ∃ n ≤ 32, s = spell gaps ++ blanks n

namespace Expression

/-- `e` is printed to `s`. -/
def PrintsTo (e : Expression) (s : List Char) : Prop := Spells e.tree.lexemes s

/-- The text has room in the token array. -/
def Fits (e : Expression) : Prop := e.tree.lexemes.length ≤ maxTokens

end Expression

end Riscv32.Sdb
