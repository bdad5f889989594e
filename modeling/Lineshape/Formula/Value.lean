import Lineshape.Expr.Basic
import Lineshape.Formula.Elementary
import Lineshape.Number.Shortest

/-! # Values of formulas

A formula is an expression of sums, products, powers, signs, brackets and elementary functions over
numbers and names. `Formula.evaluate` looks its names up and computes its value, or tells why it
has none (`EvalFault`).

Sums and products are computed from left to right, powers from right to left.
-/

namespace Lineshape
set_option autoImplicit false

/-- Why a formula has no value. -/
inductive EvalFault where
  /-- A blank operand. -/
  | emptyExpression
  /-- A leaf that begins like a number and is none. -/
  | notANumber (name : Text)
  /-- A name without a value. -/
  | unknownName (name : Text)
  /-- A unary operator without a meaning. -/
  | unaryOperator (op : Text)
  /-- A call of an unknown function. -/
  | unknownFunction (name : Text)
  /-- A call with the wrong number of arguments. -/
  | wrongArity (f : Elementary) (count : Nat)
  /-- A call outside the domain of the function. -/
  | undefinedFor (f : Elementary) (arguments : List Float)
  /-- An operator that does not belong to sums. -/
  | unexpectedInSum (op : Text)
  /-- An operator that does not belong to products. -/
  | unexpectedInProduct (op : Text)
  /-- A chain of operators without a meaning. -/
  | operator (label : Text)

/-- The wording of each reason. -/
def EvalFault.message : EvalFault → Text
  | .emptyExpression => "empty expression".toList
  | .notANumber name => name ++ " is not a number".toList
  | .unknownName name => "unknown name ".toList ++ name
  | .unaryOperator op => "unary operator ".toList ++ op ++ " cannot be evaluated".toList
  | .unknownFunction name => "unknown function ".toList ++ name
  | .wrongArity f count =>
    "function ".toList ++ f.name ++ " takes ".toList ++ Text.ofNat f.arity ++
      " argument(s), got ".toList ++ Text.ofNat count
  | .undefinedFor f arguments =>
    f.name ++ " is undefined for ".toList ++ Number.listed arguments
  | .unexpectedInSum op => "unexpected operator ".toList ++ op ++ " in sum".toList
  | .unexpectedInProduct op => "unexpected operator ".toList ++ op ++ " in product".toList
  | .operator label => "operator ".toList ++ label ++ " cannot be evaluated".toList

namespace Formula

/-- Add or subtract the terms of a sum to what is before them. -/
def sumFrom (total : Float) : List (Text × Float) → Except EvalFault Float
  | [] => .ok total
  | (op, x) :: more =>
    if op = [] ∨ op = "+".toList then sumFrom (total + x) more
    else if op = "-".toList then sumFrom (total - x) more
    else .error (.unexpectedInSum op)

/-- Multiply what is before them by the factors of a product, or divide it. -/
def productFrom (total : Float) : List (Text × Float) → Except EvalFault Float
  | [] => .ok total
  | (op, x) :: more =>
    if op = [] ∨ op = "*".toList then productFrom (total * x) more
    else if op = "/".toList then productFrom (total / x) more
    else .error (.unexpectedInProduct op)

/-- The power of a base to the power of the rest. -/
def power (base : Float) : List Float → Float
  | [] => base
  | x :: more => base.pow (power x more)

/-- The value of a chain with this label, from the values of its terms. -/
def chainValue (label : Text) (values : List (Text × Float)) : Except EvalFault Float :=
  if label = "+".toList then sumFrom 0 values
  else if label = "*".toList then productFrom 1 values
  else if label = "^".toList then
    match values with
    | [] => .ok Literal.notANumber
    | (_, base) :: more => .ok (power base (more.map (·.2)))
  else .error (.operator label)

/-- The value of a leaf. One that begins with a digit or a point is a number. -/
def leafValue (lookup : Text → Option Float) (name : Text) : Except EvalFault Float :=
  if name = Expr.emptyName then .error .emptyExpression
  else if name.head?.any fun c => c.isDigit || c == '.' then
    (Number.read? name).elim (.error (.notANumber name)) .ok
  else (lookup name).elim (.error (.unknownName name)) .ok

/-- The value of an operand behind a unary operator. -/
def signed (op : Text) (x : Float) : Except EvalFault Float :=
  if op = "-".toList then .ok (-x)
  else if op = "+".toList then .ok x
  else .error (.unaryOperator op)

mutual
/-- The value of a formula, its names looked up. -/
def evaluate (lookup : Text → Option Float) : Expr → Except EvalFault Float
  | ⟨name, _, []⟩ => leafValue lookup name
  | ⟨name, op, first :: more⟩ =>
    if Expr.isPrefixed .standard ⟨name, op, first :: more⟩ then do
      signed name (← evaluate lookup first)
    else if Expr.isChain .standard ⟨name, op, first :: more⟩ then do
      let x ← evaluate lookup first
      let xs ← evaluateAll lookup more
      chainValue name ((first.op, x) :: more.zipWith (fun term y => (term.op, y)) xs)
    else if name = [] then evaluate lookup first
    else
      match Elementary.named? name with
      | none => .error (.unknownFunction name)
      | some f =>
        if more.length + 1 ≠ f.arity then .error (.wrongArity f (more.length + 1))
        else do
          let x ← evaluate lookup first
          let xs ← evaluateAll lookup more
          (f.apply (x :: xs)).elim (.error (.undefinedFor f (x :: xs))) .ok
/-- The values of several formulas, the first failure ending all. -/
def evaluateAll (lookup : Text → Option Float) : List Expr → Except EvalFault (List Float)
  | [] => .ok []
  | term :: more => do
    let x ← evaluate lookup term
    let xs ← evaluateAll lookup more
    .ok (x :: xs)
end

end Formula
end Lineshape
