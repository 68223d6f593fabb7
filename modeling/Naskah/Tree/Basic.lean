import Naskah.Tree.Operator

/-!
# Expressions and statements

Trees keep the tokens that a message about them would name. Their equality
compares every token with its line.
-/

namespace Naskah

inductive Expr where
  | literal (value : Literal) (line : Nat)
  | name (token : Token)
  | group (inner : Expr)
  | unary (op : UnaryOp) (token : Token) (operand : Expr)
  | binary (op : BinaryOp) (token : Token) (left right : Expr)
  | logical (op : LogicalOp) (token : Token) (left right : Expr)
  /-- A call, with its closing parenthesis. -/
  | call (callee : Expr) (arguments : List Expr) (paren : Token)

inductive Stmt where
  | expression (value : Expr)
  | print (keyword : Token) (value : Expr)
  | declare (name : Token) (value : Expr)
  | assign (name : Token) (value : Expr)
  | block (body : List Stmt)
  | branch (condition : Expr) (body otherwise : List Stmt)
  | loop (condition : Expr) (body : List Stmt)
  | function (name : Token) (params : List Token) (body : List Stmt)
  | giveBack (keyword : Token) (value : Option Expr)

def Operator.node (op : Operator) (token : Token) (left right : Expr) : Expr :=
  match op with
  | .binary op => .binary op token left right
  | .logical op => .logical op token left right

/-! ## Equality -/

mutual
def Expr.beq : Expr → Expr → Bool
  | .literal v i, .literal w j => v == w && i == j
  | .name t, .name u => t == u
  | .group d, .group e => d.beq e
  | .unary p t d, .unary q u e => p = q && t == u && d.beq e
  | .binary p t d d', .binary q u e e' => p = q && t == u && d.beq e && d'.beq e'
  | .logical p t d d', .logical q u e e' => p = q && t == u && d.beq e && d'.beq e'
  | .call d ds t, .call e es u => d.beq e && Expr.beqs ds es && t == u
  | _, _ => false
def Expr.beqs : List Expr → List Expr → Bool
  | [], [] => true
  | d :: ds, e :: es => d.beq e && Expr.beqs ds es
  | _, _ => false
end

instance : BEq Expr := ⟨Expr.beq⟩

mutual
def Stmt.beq : Stmt → Stmt → Bool
  | .expression d, .expression e => d == e
  | .print t d, .print u e => t == u && d == e
  | .declare t d, .declare u e => t == u && d == e
  | .assign t d, .assign u e => t == u && d == e
  | .block b, .block c => Stmt.beqs b c
  | .branch d b b', .branch e c c' => d == e && Stmt.beqs b c && Stmt.beqs b' c'
  | .loop d b, .loop e c => d == e && Stmt.beqs b c
  | .function t ps b, .function u qs c => t == u && ps == qs && Stmt.beqs b c
  | .giveBack t d, .giveBack u e => t == u && d == e
  | _, _ => false
def Stmt.beqs : List Stmt → List Stmt → Bool
  | [], [] => true
  | s :: ss, t :: ts => s.beq t && Stmt.beqs ss ts
  | _, _ => false
end

instance : BEq Stmt := ⟨Stmt.beq⟩

end Naskah
