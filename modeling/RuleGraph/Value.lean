import RuleGraph.Decimal

/-! # Values

A rule evaluates to nothing, a truth value, a number or a text.  A quantity is
a value with the unit it is counted in. -/

namespace RuleGraph

/-- What rules and expressions evaluate to. -/
inductive Value where
  /-- No value, as where a rule does not apply. -/
  | null
  | bool (b : Bool)
  | number (x : Float)
  | text (s : String)
deriving DecidableEq, Repr, Inhabited

namespace Value

/-- Truth of a value in a condition: the absent value, zero and the empty text are false. -/
def isTruthy : Value → Bool
  | null => false
  | bool b => b
  | number x => x != 0
  | text s => s != ""

def isNull : Value → Bool
  | null => true
  | _ => false

/-- Equality as rules see it: numbers compare as numbers, so zero equals its opposite
and an undefined number equals nothing. -/
def equal : Value → Value → Bool
  | null, null => true
  | bool a, bool b => a == b
  | number x, number y => x == y
  | text s, text t => s == t
  | _, _ => false

/-- How the language of rules writes a truth value. -/
def truthText (b : Bool) : String := if b then "oui" else "non"

/-- How the language of rules writes a value. -/
def print : Value → String
  | null => "null"
  | bool b => truthText b
  | number x => Decimal.text x
  | text s => "'" ++ s ++ "'"

end Value

/-- A value together with its unit, if it has one. -/
structure Quantity where
  value : Value := .null
  unit : Option String := none
deriving DecidableEq, Repr, Inhabited

namespace Quantity

def equal (p q : Quantity) : Bool :=
  p.value.equal q.value && p.unit == q.unit

/-- A quantity is written as its value, followed by its unit. -/
def print (q : Quantity) : String :=
  match q.unit with
  | none => q.value.print
  | some u => q.value.print ++ " " ++ u

end Quantity

end RuleGraph
