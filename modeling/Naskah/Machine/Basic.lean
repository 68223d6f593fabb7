import Naskah.Machine.Sink
import Naskah.Scope.Store
import Naskah.Value.Fault

/-!
# The machine and its steps

A machine is all that one run leaves to the next: the scopes, the two sinks,
how many calls are open, and how many functions have been made. An `Eval` is a
computation on it, which ends in a value or a fault and in a new machine, or
does not end within its fuel. A fault keeps what was done before it, and so
does a computation that runs out of fuel.
-/

namespace Naskah

structure Machine where
  store : Store
  out : Sink
  diagnostics : Sink
  callDepth : Nat
  functionsMade : Nat

def Machine.fresh (outLimit diagnosticsLimit : Option Nat) : Machine :=
  ⟨.initial, .empty outLimit, .empty diagnosticsLimit, 0, 0⟩

inductive Outcome (α : Type) where
  | done (value : α) (machine : Machine)
  | failed (fault : Fault) (machine : Machine)
  /-- Out of fuel, at the machine it has come to. -/
  | unfinished {machine : Machine}

def Eval (α : Type) : Type :=
  Machine → Outcome α

namespace Eval

@[always_inline, inline]
protected def pure {α : Type} (a : α) : Eval α :=
  fun m => .done a m

@[always_inline, inline]
protected def bind {α β : Type} (e : Eval α) (f : α → Eval β) : Eval β := fun m =>
  match e m with
  | .done a m => f a m
  | .failed fault m => .failed fault m
  | @Outcome.unfinished _ m => @Outcome.unfinished _ m

instance : Monad Eval where
  pure := Eval.pure
  bind := Eval.bind

/-! ## Steps -/

def unfinished {α : Type} : Eval α :=
  fun m => @Outcome.unfinished _ m

def fault {α : Type} (token : Token) (cause : Cause) : Eval α :=
  fun m => .failed ⟨token, cause⟩ m

def settle {α : Type} (token : Token) : Except Cause α → Eval α
  | .ok a => pure a
  | .error cause => fault token cause

def lookup (scope : ScopeId) (name : Token) : Eval Value := fun m =>
  match m.store.get? scope name.lexeme with
  | some v => .done v m
  | none => .failed ⟨name, .undefinedVariable⟩ m

def child (scope : ScopeId) : Eval ScopeId := fun m =>
  let (i, store) := m.store.child scope
  .done i { m with store }

def define (scope : ScopeId) (name : String) (v : Value) : Eval Unit := fun m =>
  .done () { m with store := m.store.define scope name v }

def assignOrDefine (scope : ScopeId) (name : String) (v : Value) : Eval Unit := fun m =>
  .done () { m with store := m.store.assignOrDefine scope name v }

def makeFunction (scope : ScopeId) (name : Token) (params : List Token)
    (body : List Stmt) : Eval Value :=
  fun m =>
    .done (.function ⟨name, params, body, scope, m.functionsMade⟩)
      { m with functionsMade := m.functionsMade + 1 }

def printLine (keyword : Token) (text : String) : Eval Unit := fun m =>
  let (out, taken) := m.out.writeLine text
  if taken then .done () { m with out }
    else .failed ⟨keyword, .output Sink.closedReason⟩ { m with out }

def requireCall (keyword : Token) : Eval Unit := fun m =>
  if m.callDepth = 0 then .failed ⟨keyword, .returnOutsideFunction⟩ m else .done () m

/-- Runs the body of a call with one more call open, which its end closes,
a fault as well. -/
def duringCall {α : Type} (body : Eval α) : Eval α := fun m =>
  match body { m with callDepth := m.callDepth + 1 } with
  | .done a m => .done a { m with callDepth := m.callDepth - 1 }
  | .failed fault m => .failed fault { m with callDepth := m.callDepth - 1 }
  | @Outcome.unfinished _ m => @Outcome.unfinished _ m

end Eval

end Naskah
