import RuleGraph.Expr
import Std.Data.ExtTreeMap

/-! # Evaluations

Evaluating an expression gives a quantity, the inputs that were needed but not
given, and whether the value could be null in another situation.  What a
reference evaluates to is a parameter here, so that evaluation is recursion on
the expression alone. -/

namespace RuleGraph

/-- What evaluating a rule or an expression gives. -/
structure Evaluation extends Quantity where
  /-- The inputs that were looked for in vain. -/
  missing : NameSet := ∅
  /-- Another situation may leave null in place of the value. -/
  nullable : Bool := false
deriving DecidableEq

namespace Evaluation

/-- Nothing was missing and null is ruled out: the value is that of every situation. -/
def isConstant (y : Evaluation) : Bool := y.missing.isEmpty && !y.nullable

/-- Take over what another evaluation missed and whether it was nullable. -/
def absorb (y x : Evaluation) : Evaluation :=
  { y with missing := y.missing ∪ x.missing, nullable := y.nullable || x.nullable }

/-- Take over from several evaluations. -/
def absorbAll (y : Evaluation) (xs : List Evaluation) : Evaluation := xs.foldl absorb y

end Evaluation

/-- Why a rule has no value. -/
inductive EvalError where
  /-- The value of the rule depends on itself. -/
  | cycle (name : Name)
  /-- The rule is neither in the graph nor given by the situation. -/
  | unknownRule (name : Name)
  /-- An operation on values that it is not defined on. -/
  | illTyped (operation : String)
deriving DecidableEq, Repr

/-- What an error is about. -/
def EvalError.message : EvalError → String
  | cycle n => n.text
  | unknownRule n => n.text
  | illTyped operation => operation

/-- Values that contextual blocks give to rules. -/
abbrev Scope := Std.ExtTreeMap Name Quantity

/-- What a reference evaluates to, below the contextual blocks of a scope. -/
abbrev Meaning := Scope → Name → Except EvalError Evaluation

namespace Expr

/-- Apply an operator to evaluated operands.  The result of arithmetic has the unit of the left
operand, or else that of the right one. -/
def evalOp (o : Operator) (x y : Evaluation) : Except EvalError Evaluation :=
  match o.apply x.value y.value with
  | none => .error (.illTyped (x.value.print ++ " " ++ o.print ++ " " ++ y.value.print))
  | some value =>
    let unit := if o.isComparison then none else x.unit <|> y.unit
    let result : Evaluation := { value, unit }
    .ok ((result.absorb x).absorb y)

/-- A value under a condition is nullable, whether it applies or not. -/
def evalApplied (condition value : Evaluation) : Evaluation :=
  { value with nullable := true }.absorb condition

/-- The scope in which overrides hold; of a repeated name the last one counts. -/
def extend (scope : Scope) (overrides : List (Name × Evaluation)) : Scope :=
  overrides.foldl (fun scope o => scope.insert o.1 o.2.toQuantity) scope

mutual

/-- Evaluate an expression.  All members of a conjunction or disjunction are evaluated, but only
the branch of a condition that is taken; overrides are evaluated outside of their block. -/
def eval (meaning : Meaning) (scope : Scope) : Expr → Except EvalError Evaluation
  | ref n => meaning scope n
  | const q => .ok { q with }
  | op o l r => do
    let x ← eval meaning scope l
    let y ← eval meaning scope r
    evalOp o x y
  | cond c t e => do
    let x ← eval meaning scope c
    if x.value.isTruthy then
      return (← eval meaning scope t).absorb x
    else
      return (← eval meaning scope e).absorb x
  | applicable c v => do
    let x ← eval meaning scope c
    if x.value.isTruthy then
      return evalApplied x (← eval meaning scope v)
    else
      return evalApplied x {}
  | notApplicable c v => do
    let x ← eval meaning scope c
    if x.value.isTruthy then
      return evalApplied x {}
    else
      return evalApplied x (← eval meaning scope v)
  | all es => do
    let xs ← evalMembers meaning scope es
    let result : Evaluation := { value := .bool (xs.all (·.value.isTruthy)) }
    return result.absorbAll xs
  | any es => do
    let xs ← evalMembers meaning scope es
    let result : Evaluation := { value := .bool (xs.any (·.value.isTruthy)) }
    return result.absorbAll xs
  | contextual e os => do
    let xs ← evalOverrides meaning scope os
    let y ← eval meaning (extend scope xs) e
    return y.absorbAll (xs.map Prod.snd)

def evalMembers (meaning : Meaning) (scope : Scope) :
    List Expr → Except EvalError (List Evaluation)
  | [] => return []
  | e :: es => do
    let x ← eval meaning scope e
    return x :: (← evalMembers meaning scope es)

def evalOverrides (meaning : Meaning) (scope : Scope) :
    List (Name × Expr) → Except EvalError (List (Name × Evaluation))
  | [] => return []
  | (n, e) :: os => do
    let x ← eval meaning scope e
    return (n, x) :: (← evalOverrides meaning scope os)

end

/-- An expression that is missing evaluates to null. -/
def evalOption (meaning : Meaning) (scope : Scope) : Option Expr → Except EvalError Evaluation
  | none => .ok {}
  | some e => eval meaning scope e

end Expr

end RuleGraph
