import Naskah.Decimal.Shortest
import Naskah.Tree.Basic

/-!
# Values

Numbers are doubles. A function is the declaration it was made from, the scope
it was made in, and a serial number: carrying out one declaration twice makes
two functions.
-/

namespace Naskah

abbrev ScopeId := Nat

structure Closure where
  name : Token
  params : List Token
  body : List Stmt
  scope : ScopeId
  serial : Nat

def Closure.arity (f : Closure) : Nat :=
  f.params.length

inductive Value where
  | number (value : Float)
  | text (value : String)
  | truth (value : Bool)
  | nil
  | function (value : Closure)

inductive ValueKind where
  | number | text | truth | nil | function
  deriving DecidableEq

def ValueKind.name : ValueKind → String
  | number => "number"
  | text => "string"
  | truth => "boolean"
  | nil => "nil"
  | function => "function"

namespace Value

def kind : Value → ValueKind
  | number _ => .number
  | text _ => .text
  | truth _ => .truth
  | nil => .nil
  | function _ => .function

def ofLiteral : Literal → Value
  | .number x => number x
  | .text s => text s
  | .truth b => truth b
  | .nil => nil

def holds : Value → Bool
  | number x => x != 0
  | text s => s ≠ ""
  | truth b => b
  | nil => false
  | function _ => false

/-- Equality as a program sees it: values of different kinds differ, numbers
compare as numbers, and functions by their serial numbers. -/
def same : Value → Value → Bool
  | number x, number y => x == y
  | text s, text t => s = t
  | truth a, truth b => a = b
  | nil, nil => true
  | function f, function g => f.serial = g.serial
  | _, _ => false

def shown : Value → String
  | number x => numberText x
  | text s => s
  | truth true => "benar"
  | truth false => "salah"
  | nil => "kosong"
  | function f => "<fungsi " ++ f.name.lexeme ++ ">"

end Value

def Closure.inspected (f : Closure) : String :=
  "<fungsi " ++ f.name.lexeme ++ "/" ++ toString f.arity ++ ">"

end Naskah
