import Naskah.Token.Basic

/-!
# Operators

An operator binds by its rank: the lower, the tighter. All operators between
two operands group to the left.
-/

namespace Naskah

inductive UnaryOp where
  | negate | not
  deriving DecidableEq

inductive BinaryOp where
  | add | sub | mul | div | less | greater | lessEqual | greaterEqual | equal | notEqual
  deriving DecidableEq

inductive LogicalOp where
  | and | or
  deriving DecidableEq

def UnaryOp.ofKind? : Kind → Option UnaryOp
  | .mark .minus => some .negate
  | .mark .bang => some .not
  | _ => none

namespace BinaryOp

def ofKind? : Kind → Option BinaryOp
  | .mark .plus => some add
  | .mark .minus => some sub
  | .mark .star => some mul
  | .mark .slash => some div
  | .mark .less => some less
  | .mark .greater => some greater
  | .mark .lessEqual => some lessEqual
  | .mark .greaterEqual => some greaterEqual
  | .mark .equalEqual => some equal
  | .mark .bangEqual => some notEqual
  | _ => none

def spelling : BinaryOp → String
  | add => "+"
  | sub => "-"
  | mul => "*"
  | div => "/"
  | less => "<"
  | greater => ">"
  | lessEqual => "<="
  | greaterEqual => ">="
  | equal => "=="
  | notEqual => "!="

def isRelational : BinaryOp → Bool
  | less | greater | lessEqual | greaterEqual => true
  | _ => false

end BinaryOp

namespace LogicalOp

def ofKind? : Kind → Option LogicalOp
  | .keyword .dan => some and
  | .keyword .atau => some or
  | _ => none

def spelling : LogicalOp → String
  | and => "dan"
  | or => "atau"

end LogicalOp

/-! ## Ranks -/

inductive Operator where
  | binary (op : BinaryOp)
  | logical (op : LogicalOp)
  deriving DecidableEq

def Operator.ofKind? (k : Kind) : Option Operator :=
  match BinaryOp.ofKind? k with
  | some op => some (.binary op)
  | none => (LogicalOp.ofKind? k).map .logical

namespace Rank

def product : Nat := 1
def sum : Nat := 2
def comparison : Nat := 3
def equality : Nat := 4
def conjunction : Nat := 5
def disjunction : Nat := 6

end Rank

def Operator.rank : Operator → Nat
  | .binary .mul | .binary .div => Rank.product
  | .binary .add | .binary .sub => Rank.sum
  | .binary .less | .binary .greater | .binary .lessEqual | .binary .greaterEqual => Rank.comparison
  | .binary .equal | .binary .notEqual => Rank.equality
  | .logical .and => Rank.conjunction
  | .logical .or => Rank.disjunction

end Naskah
