import RuleGraph.Declaration
import RuleGraph.Name
import RuleGraph.Operator

/-! # Expressions

The value of a rule is an expression tree over constants and references to
other rules.  An expression depends on the rules that it refers to and on those
that its contextual blocks override. -/

namespace RuleGraph

/-- Expressions over rule names. -/
inductive Expr where
  /-- Stands for the value of a rule. -/
  | ref (name : Name)
  | const (quantity : Quantity)
  | op (operator : Operator) (left right : Expr)
  | cond (condition whenTrue whenFalse : Expr)
  /-- The value where the condition holds, null elsewhere. -/
  | applicable (condition value : Expr)
  /-- Null where the condition holds, the value elsewhere. -/
  | notApplicable (condition value : Expr)
  /-- Do all members hold? -/
  | all (members : List Expr)
  /-- Does some member hold? -/
  | any (members : List Expr)
  /-- The inner expression, read with other values for some rules. -/
  | contextual (inner : Expr) (overrides : List (Name × Expr))
deriving Repr, Inhabited

namespace Expr

def isConst : Expr → Bool
  | const _ => true
  | _ => false

def isContextual : Expr → Bool
  | contextual _ _ => true
  | _ => false

/-- The names that the contextual block at the root overrides, if there is one. -/
def rootOverrides : Expr → List Name
  | contextual _ overrides => overrides.map Prod.fst
  | _ => []

/-! ## Dependencies -/

mutual

/-- The names that an expression depends on, in order and with repetitions: references, and
before the inner expression of a contextual block each override's name and dependencies. -/
def dependencies : Expr → List Name
  | ref n => [n]
  | const _ => []
  | op _ l r => l.dependencies ++ r.dependencies
  | cond c t e => c.dependencies ++ t.dependencies ++ e.dependencies
  | applicable c v => c.dependencies ++ v.dependencies
  | notApplicable c v => c.dependencies ++ v.dependencies
  | all es => memberDependencies es
  | any es => memberDependencies es
  | contextual e os => overrideDependencies os ++ e.dependencies

def memberDependencies : List Expr → List Name
  | [] => []
  | e :: es => e.dependencies ++ memberDependencies es

def overrideDependencies : List (Name × Expr) → List Name
  | [] => []
  | (n, e) :: os => n :: e.dependencies ++ overrideDependencies os

end

def dependsOn (e : Expr) (n : Name) : Bool := n ∈ e.dependencies

mutual

/-- The names of the reference nodes of an expression, from left to right; the names that
contextual blocks override are not among them. -/
def references : Expr → List Name
  | ref n => [n]
  | const _ => []
  | op _ l r => l.references ++ r.references
  | cond c t e => c.references ++ t.references ++ e.references
  | applicable c v => c.references ++ v.references
  | notApplicable c v => c.references ++ v.references
  | all es => memberReferences es
  | any es => memberReferences es
  | contextual e os => e.references ++ overrideReferences os

def memberReferences : List Expr → List Name
  | [] => []
  | e :: es => e.references ++ memberReferences es

def overrideReferences : List (Name × Expr) → List Name
  | [] => []
  | (_, e) :: os => e.references ++ overrideReferences os

end

mutual

/-- Is there a reference node anywhere in the expression? -/
def hasReferences : Expr → Bool
  | ref _ => true
  | const _ => false
  | op _ l r => l.hasReferences || r.hasReferences
  | cond c t e => c.hasReferences || t.hasReferences || e.hasReferences
  | applicable c v => c.hasReferences || v.hasReferences
  | notApplicable c v => c.hasReferences || v.hasReferences
  | all es => membersHaveReferences es
  | any es => membersHaveReferences es
  | contextual e os => e.hasReferences || overridesHaveReferences os

def membersHaveReferences : List Expr → Bool
  | [] => false
  | e :: es => e.hasReferences || membersHaveReferences es

def overridesHaveReferences : List (Name × Expr) → Bool
  | [] => false
  | (_, e) :: os => e.hasReferences || overridesHaveReferences os

end

/-! ## Equality -/

mutual

/-- Structural equality; numbers compare as numbers, names by text and identity. -/
def equal : Expr → Expr → Bool
  | ref m, ref n => m == n
  | const p, const q => p.equal q
  | op o l r, op p l' r' => o == p && l.equal l' && r.equal r'
  | cond c t e, cond c' t' e' => c.equal c' && t.equal t' && e.equal e'
  | applicable c v, applicable c' v' => c.equal c' && v.equal v'
  | notApplicable c v, notApplicable c' v' => c.equal c' && v.equal v'
  | all es, all fs => membersEqual es fs
  | any es, any fs => membersEqual es fs
  | contextual e os, contextual f ps => e.equal f && overridesEqual os ps
  | _, _ => false

def membersEqual : List Expr → List Expr → Bool
  | [], [] => true
  | e :: es, f :: fs => e.equal f && membersEqual es fs
  | _, _ => false

def overridesEqual : List (Name × Expr) → List (Name × Expr) → Bool
  | [], [] => true
  | (m, e) :: os, (n, f) :: ps => m == n && e.equal f && overridesEqual os ps
  | _, _ => false

end

/-! ## Printing -/

/-- References and constants need no parentheses as operands. -/
def isAtomic : Expr → Bool
  | ref _ => true
  | const _ => true
  | _ => false

/-- The text of an operand, in parentheses unless the operand is atomic. -/
def enclose (e : Expr) (printed : String) : String :=
  if e.isAtomic then printed else "(" ++ printed ++ ")"

mutual

/-- How the language of rules writes an expression. -/
def print : Expr → String
  | ref n => n.text
  | const q => q.print
  | op o l r => l.enclose l.print ++ " " ++ o.print ++ " " ++ r.enclose r.print
  | cond c t e => "si " ++ c.print ++ " alors " ++ t.print ++ " sinon " ++ e.print
  | applicable c v => v.print ++ " applicable si " ++ c.print
  | notApplicable c v => v.print ++ " non applicable si " ++ c.print
  | all es => "toutes ces conditions [" ++ String.intercalate ", " (printMembers es) ++ "]"
  | any es => "une de ces conditions [" ++ String.intercalate ", " (printMembers es) ++ "]"
  | contextual e os =>
    e.print ++ " dans le contexte [" ++ String.intercalate ", " (printOverrides os) ++ "]"

def printMembers : List Expr → List String
  | [] => []
  | e :: es => e.print :: printMembers es

def printOverrides : List (Name × Expr) → List String
  | [] => []
  | (n, e) :: os => (n.text ++ " = " ++ e.print) :: printOverrides os

end

/-- An expression as an attribute: constants without unit as such, all else as text. -/
def toAttribute : Expr → Attribute
  | const ⟨.null, _⟩ => .null
  | const ⟨.bool b, none⟩ => .bool b
  | const ⟨.number x, none⟩ => .number x
  | e => .text e.print

end Expr

end RuleGraph
