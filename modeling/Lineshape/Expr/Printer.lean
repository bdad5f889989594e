import Lineshape.Expr.Basic

/-! # Canonical text of expressions

`Expr.render` writes a tree with the brackets that it needs and no others.

* A bracket group is written as its content; the node around it brackets the content again where
  that is needed.
* In a chain, a term that binds no more strongly than the chain is bracketed, and a blank parts an
  operator from a prefix operator behind it.
* In a call, a term that is a chain of separators is bracketed.
-/

namespace Lineshape.Expr
set_option autoImplicit false

/-- A text, in brackets if asked for. -/
def enclose (brackets : Bool) (s : Text) : Text := if brackets then '(' :: s ++ [')'] else s

/-- Whether a term needs brackets beside operators of rank `rank`. -/
def needsBrackets (t : OperatorTable) (rank : Nat) (term : Expr) : Bool :=
  0 < term.binding t && term.binding t ≤ rank

mutual
/-- The canonical text of a tree. -/
def render (t : OperatorTable) : Expr → Text
  | ⟨name, _, []⟩ => if name = emptyName then [] else name
  | ⟨name, _, first :: more⟩ =>
    if name = [] ∧ more = [] then first.render t
    else if more = [] ∧ t.isUnary name then
      name ++ enclose (0 < first.binding t) (first.render t)
    else if t.precedence name = 0 then
      name ++ '(' :: renderArguments t (t.precedence ",".toList) (first :: more) ++ [')']
    else
      first.op ++ enclose (needsBrackets t (t.precedence name) first) (first.render t) ++
        renderChain t (t.precedence name) more
/-- The arguments of a call, each with the operator before it. -/
def renderArguments (t : OperatorTable) (separator : Nat) : List Expr → Text
  | [] => []
  | term :: more =>
    term.op ++ enclose (needsBrackets t separator term) (term.render t) ++
      renderArguments t separator more
/-- The terms of a chain behind the first, each with the operator before it. -/
def renderChain (t : OperatorTable) (rank : Nat) : List Expr → Text
  | [] => []
  | term :: more =>
    term.op ++ (if term.bracketsRemoved.isPrefixed t then [' '] else []) ++
      enclose (needsBrackets t rank term) (term.render t) ++ renderChain t rank more
end

/-- The canonical text in the table of model texts. -/
abbrev text (e : Expr) : Text := e.render .standard

end Lineshape.Expr
