import Naskah.Value.Fault

/-!
# What operators do to values

Equality takes operands of all kinds. Addition takes two numbers or two
texts, and the other binary operators two numbers.
-/

namespace Naskah

def BinaryOp.onNumbers (op : BinaryOp) (x y : Float) : Value :=
  match op with
  | .add => .number (x + y)
  | .sub => .number (x - y)
  | .mul => .number (x * y)
  | .div => .number (x / y)
  | .less => .truth (x < y)
  | .greater => .truth (x > y)
  | .lessEqual => .truth (x ≤ y)
  | .greaterEqual => .truth (x ≥ y)
  | .equal => .truth (x == y)
  | .notEqual => .truth (x != y)

def BinaryOp.apply (op : BinaryOp) (left right : Value) : Except Cause Value :=
  match op, left, right with
  | .equal, v, w => .ok (.truth (v.same w))
  | .notEqual, v, w => .ok (.truth (!v.same w))
  | .add, .text s, .text t => .ok (.text (s ++ t))
  | op, .number x, .number y => .ok (op.onNumbers x y)
  | op, v, w => .error (.operands op v.kind w.kind)

def UnaryOp.apply (op : UnaryOp) (operand : Value) : Except Cause Value :=
  match op, operand with
  | .not, v => .ok (.truth (!v.holds))
  | .negate, .number x => .ok (.number (-x))
  | .negate, v => .error (.negated v.kind)

/-- Whether the left operand already is the result. -/
def LogicalOp.settledBy (op : LogicalOp) (left : Value) : Bool :=
  match op with
  | .and => !left.holds
  | .or => left.holds

end Naskah
