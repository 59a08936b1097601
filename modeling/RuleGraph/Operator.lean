import RuleGraph.Value

/-! # Binary operators

Arithmetic and order are defined on numbers, equality on all values.  An
absent operand makes the result absent, whatever the other one is. -/

namespace RuleGraph

inductive Operator where
  | add | sub | mul | div
  | lt | le | gt | ge
  | eq | ne
deriving DecidableEq, Repr, Inhabited

namespace Operator

/-- Comparisons give a truth value; the other operators give a number. -/
def isComparison : Operator → Bool
  | add | sub | mul | div => false
  | lt | le | gt | ge | eq | ne => true

/-- Result of the operator on two numbers. -/
def onNumbers (x y : Float) : Operator → Value
  | add => .number (x + y)
  | sub => .number (x - y)
  | mul => .number (x * y)
  | div => .number (x / y)
  | lt => .bool (x < y)
  | le => .bool (x ≤ y)
  | gt => .bool (y < x)
  | ge => .bool (y ≤ x)
  | eq => .bool (x == y)
  | ne => .bool (x != y)

/-- Apply the operator; `none` if it is not defined on the two values. -/
def apply (o : Operator) : Value → Value → Option Value
  | .null, _ => some .null
  | _, .null => some .null
  | .number x, .number y => some (o.onNumbers x y)
  | l, r =>
    match o with
    | eq => some (.bool (l.equal r))
    | ne => some (.bool (!l.equal r))
    | _ => none

def print : Operator → String
  | add => "+"
  | sub => "-"
  | mul => "*"
  | div => "/"
  | lt => "<"
  | le => "<="
  | gt => ">"
  | ge => ">="
  | eq => "="
  | ne => "!="

end Operator

end RuleGraph
