import Naskah.Value.Basic

/-!
# Runtime faults

A fault is a cause at a token. `Fault.message` is the only place that words
it.
-/

namespace Naskah

inductive Cause where
  | operands (op : BinaryOp) (left right : ValueKind)
  /-- A value with a minus sign in front that is no number. -/
  | negated (kind : ValueKind)
  | undefinedVariable
  | notCallable
  | argumentCount (expected found : Nat)
  | returnOutsideFunction
  /-- The output would not take a line. -/
  | output (reason : String)
  deriving DecidableEq

structure Fault where
  token : Token
  cause : Cause

namespace Fault

def line (f : Fault) : Nat :=
  f.token.line

def details (f : Fault) : String :=
  match f.cause with
  | .operands .add left right =>
    "Operands of '+' must be two numbers or two strings, got " ++ left.name ++ " and " ++
      right.name ++ "."
  | .operands op left right =>
    "Operands of '" ++ op.spelling ++ "' must be numbers, got " ++ left.name ++ " and " ++
      right.name ++ "."
  | .negated kind => "Operand of '-' must be a number, got " ++ kind.name ++ "."
  | .undefinedVariable => "Undefined variable '" ++ f.token.lexeme ++ "'."
  | .notCallable => "Can only call functions."
  | .argumentCount expected found =>
    "Expected " ++ toString expected ++ " arguments but got " ++ toString found ++ "."
  | .returnOutsideFunction => "Cannot return from top-level code."
  | .output reason => "Failed to write output: " ++ reason ++ "."

def message (f : Fault) : String :=
  "[line " ++ toString f.line ++ "] Runtime error at " ++ f.token.shown ++ ": " ++ f.details

end Fault

end Naskah
