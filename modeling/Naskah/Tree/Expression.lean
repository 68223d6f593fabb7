import Naskah.Tree.Basic
import Naskah.Tree.Parser

/-!
# Reading expressions

One rank of operators is read over the rank below it, down to unary
expressions, calls and primaries. Parentheses and arguments lead back to the
whole, so `unaryWithin` is bounded by a number that falls with each token
taken on the way back; no list runs out of it that is not longer.
-/

namespace Naskah

namespace Parser

def operation (rank : Nat) (operand : Parser Expr) : Parser (Option (Operator × Token × Expr)) := do
  let t ← peek
  match Operator.ofKind? t.kind with
  | some op =>
    if op.rank = rank then
      skip
      let right ← operand
      pure (some (op, t, right))
    else pure none
  | none => pure none

/-- Operands with operators of one rank between them, grouped to the left. -/
def leftChain (bound rank : Nat) (operand : Parser Expr) : Parser Expr := do
  let first ← operand
  let more ← many (operation rank operand) bound
  pure (more.foldl (fun left (op, t, right) => op.node t left right) first)

/-- Expressions whose operators have at most the given rank. -/
def ranked (bound : Nat) (unary : Parser Expr) : Nat → Parser Expr
  | 0 => unary
  | rank + 1 => leftChain bound (rank + 1) (ranked bound unary rank)

def primary (expr : Parser Expr) : Parser Expr := do
  let t ← peek
  match t.literal? with
  | some value =>
    skip
    pure (.literal value t.line)
  | none =>
    if t.isName then
      skip
      pure (.name t)
    else if t.isMark .leftParen then
      skip
      let inner ← expr
      let _ ← mark .rightParen .groupEnd
      pure (.group inner)
    else fail .expression

def arguments (bound : Nat) (expr : Parser Expr) : Parser (Option (List Expr × Token)) := do
  let t ← peek
  if t.isMark .leftParen then
    skip
    let args ← commaList bound expr .argumentsEnd
    pure (some args)
  else pure none

def calls (bound : Nat) (expr : Parser Expr) : Parser Expr := do
  let callee ← primary expr
  let more ← many (arguments bound expr) bound
  pure (more.foldl (fun callee (args, paren) => .call callee args paren) callee)

def unaryWithin : Nat → Parser Expr
  | 0 => fail .expression
  | bound + 1 => do
    let t ← peek
    match UnaryOp.ofKind? t.kind with
    | some op =>
      skip
      let operand ← unaryWithin bound
      pure (.unary op t operand)
    | none => calls (bound + 1) (ranked (bound + 1) (unaryWithin bound) Rank.disjunction)

def rankedWithin (bound rank : Nat) : Parser Expr :=
  ranked bound (unaryWithin bound) rank

def expressionWithin (bound : Nat) : Parser Expr :=
  rankedWithin bound Rank.disjunction

def expressionOfRank (rank : Nat) : Parser Expr :=
  fun ts => rankedWithin ts.length rank ts

def expression : Parser Expr :=
  fun ts => expressionWithin ts.length ts

end Parser

end Naskah
