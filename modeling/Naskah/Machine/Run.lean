import Naskah.Machine.Basic
import Naskah.Value.Operation

/-!
# Carrying out programs

Expressions and statements are carried out by recursion on the tree. Two
things can go on for ever, calls inside calls and the turns of a loop; `fuel`
bounds the depth of the first and the number of the second, and a machine
that ends with some fuel ends alike with more.
-/

namespace Naskah

/-- How a call is made: callee, arguments, and the closing parenthesis. -/
abbrev Caller := Value → List Value → Token → Eval Value

inductive Flow where
  | normal
  | returned (value : Value)

/-! ## Expressions -/

mutual
def Expr.eval (call : Caller) (scope : ScopeId) : Expr → Eval Value
  | .literal value _ => pure (.ofLiteral value)
  | .name token => Eval.lookup scope token
  | .group inner => inner.eval call scope
  | .unary op token operand => do
    let v ← operand.eval call scope
    Eval.settle token (op.apply v)
  | .binary op token left right => do
    let v ← left.eval call scope
    let w ← right.eval call scope
    Eval.settle token (op.apply v w)
  | .logical op _ left right => do
    let v ← left.eval call scope
    if op.settledBy v then pure v else right.eval call scope
  | .call callee arguments paren => do
    let f ← callee.eval call scope
    let args ← Expr.evals call scope arguments
    call f args paren
def Expr.evals (call : Caller) (scope : ScopeId) : List Expr → Eval (List Value)
  | [] => pure []
  | e :: es => do
    let v ← e.eval call scope
    let vs ← Expr.evals call scope es
    pure (v :: vs)
end

/-! ## Statements -/

def repeatWhile (condition : Eval Bool) (body : Eval Flow) : Nat → Eval Flow
  | 0 => Eval.unfinished
  | fuel + 1 => do
    if ← condition then
      match ← body with
      | .normal => repeatWhile condition body fuel
      | .returned v => pure (.returned v)
    else pure .normal

mutual
/-- Carries out a statement in a scope. Blocks, branches and every turn of a
loop have a scope of their own. -/
def Stmt.exec (call : Caller) (fuel : Nat) : Stmt → ScopeId → Eval Flow
  | .expression value, scope => do
    let _ ← value.eval call scope
    pure .normal
  | .print keyword value, scope => do
    let v ← value.eval call scope
    Eval.printLine keyword v.shown
    pure .normal
  | .declare name value, scope => do
    let v ← value.eval call scope
    Eval.define scope name.lexeme v
    pure .normal
  | .assign name value, scope => do
    let v ← value.eval call scope
    Eval.assignOrDefine scope name.lexeme v
    pure .normal
  | .block body, scope => do
    let inner ← Eval.child scope
    Stmt.execs call fuel body inner
  | .branch condition body otherwise, scope => do
    let v ← condition.eval call scope
    let inner ← Eval.child scope
    if v.holds then Stmt.execs call fuel body inner else Stmt.execs call fuel otherwise inner
  | .loop condition body, scope =>
    repeatWhile
      (do
        let v ← condition.eval call scope
        pure v.holds)
      (do
        let inner ← Eval.child scope
        Stmt.execs call fuel body inner)
      fuel
  | .function name params body, scope => do
    let f ← Eval.makeFunction scope name params body
    Eval.define scope name.lexeme f
    pure .normal
  | .giveBack keyword value, scope => do
    Eval.requireCall keyword
    match value with
    | none => pure (.returned .nil)
    | some e => do
      let v ← e.eval call scope
      pure (.returned v)
def Stmt.execs (call : Caller) (fuel : Nat) : List Stmt → ScopeId → Eval Flow
  | [], _ => pure .normal
  | s :: ss, scope => do
    match ← s.exec call fuel scope with
    | .normal => Stmt.execs call fuel ss scope
    | .returned v => pure (.returned v)
end

/-! ## Calls -/

def bindParams (scope : ScopeId) : List Token → List Value → Eval Unit
  | p :: ps, v :: vs => do
    Eval.define scope p.lexeme v
    bindParams scope ps vs
  | _, _ => pure ()

/-- Calls a function: its parameters are bound in a new scope inside the one
it was declared in, and its body is carried out there. -/
def callFunction (fuel : Nat) (call : Caller) (f : Closure) (args : List Value)
    (paren : Token) : Eval Value :=
  if args.length = f.arity then
    Eval.duringCall do
      let scope ← Eval.child f.scope
      bindParams scope f.params args
      match ← Stmt.execs call fuel f.body scope with
      | .normal => pure .nil
      | .returned v => pure v
  else Eval.fault paren (.argumentCount f.arity args.length)

/-- Calls a value, with at most `fuel` calls inside one another. -/
def callWithin : Nat → Caller
  | 0, _, _, _ => Eval.unfinished
  | fuel + 1, callee, args, paren =>
    match callee with
    | .function f => callFunction fuel (callWithin fuel) f args paren
    | _ => Eval.fault paren .notCallable

def Expr.evalWithin (fuel : Nat) (e : Expr) (scope : ScopeId) : Eval Value :=
  e.eval (callWithin fuel) scope

def Stmt.execWithin (fuel : Nat) (s : Stmt) (scope : ScopeId) : Eval Flow :=
  s.exec (callWithin fuel) fuel scope

def Stmt.execsWithin (fuel : Nat) (ss : List Stmt) (scope : ScopeId) : Eval Flow :=
  Stmt.execs (callWithin fuel) fuel ss scope

end Naskah
