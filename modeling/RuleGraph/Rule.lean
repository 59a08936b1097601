import RuleGraph.Expr.Replace

/-! # Rules

A rule is a named node of a rule graph: its value, its default and the other
things it declares, together with the declaration that it is written back
from.  The `with` operations change both. -/

namespace RuleGraph

/-- A rule can declare that references to another one should reach itself instead.

The two lists narrow down in which rules that happens, and the priority decides between several
replacements of one rule; folding only asks which rule is replaced. -/
structure Replacement where
  replaced : Name
  /-- Unless this is empty, only references in these rules are concerned. -/
  whitelist : List Name := []
  /-- References in these rules are not concerned. -/
  blacklist : List Name := []
  priority : Option Int := none
deriving DecidableEq, Repr, Inhabited

/-- Progress of folding on a rule. -/
inductive Status where
  | unset
  /-- Constants stand in place of some references. -/
  | partially
  /-- A constant is all that is left of the value. -/
  | fully
deriving DecidableEq, Repr, Inhabited

namespace Status

/-- The text that marks a status in a declaration. -/
def marker? : Status → Option String
  | unset => none
  | partially => some "partially"
  | fully => some "fully"

/-- The status that a text marks. -/
def ofMarker? : String → Option Status
  | "partially" => some partially
  | "fully" => some fully
  | _ => none

def print (s : Status) : String := s.marker?.getD "unset"

end Status

namespace Declaration

/-! ## The attributes of a rule -/

def valueKey : String := "valeur"
def contextKey : String := "contexte"
def defaultKey : String := "par défaut"
def questionKey : String := "question"
def replacesKey : String := "remplace"
def enumerationKey : String := "une possibilité"
def privateKey : String := "privé"

/-- Write the value of a rule.  A contextual block is written as its inner expression and a map
of its overrides; any other value leaves no such map. -/
def writeValue (d : Declaration) : Expr → Declaration
  | .contextual inner overrides =>
    let context := Declaration.ofList (overrides.map fun o => (o.1.text, o.2.toAttribute))
    (d.insert valueKey inner.toAttribute).insert contextKey context.toAttribute
  | e => (d.insert valueKey e.toAttribute).erase contextKey

/-- Write the default of a rule. -/
def writeDefault (d : Declaration) (e : Expr) : Declaration :=
  d.insert defaultKey e.toAttribute

/-- Names as an attribute: the list of their texts. -/
def ofNames (names : List Name) : Attribute :=
  .list (names.map fun n => .text n.text)

end Declaration

/-- A named rule. -/
structure Rule where
  name : Name
  declared : Declaration := {}
  expr : Option Expr := none
  default : Option Expr := none
  question : Option String := none
  replacements : List Replacement := []
  /-- The rules that are the possible values of this one. -/
  enumeration : Option (List Name) := none
  isPrivate : Bool := false
  status : Status := .unset
deriving Repr, Inhabited

namespace Rule

/-! ## Building rules -/

def withValue (r : Rule) (e : Expr) : Rule :=
  { r with expr := some e, declared := r.declared.writeValue e }

def withDefault (r : Rule) (e : Expr) : Rule :=
  { r with default := some e, declared := r.declared.writeDefault e }

def withQuestion (r : Rule) (question : String) : Rule :=
  { r with
    question := some question
    declared := r.declared.insert Declaration.questionKey (.text question) }

/-- Add a replacement; all replaced rules are written as one list. -/
def withReplacement (r : Rule) (replacement : Replacement) : Rule :=
  let replacements := r.replacements ++ [replacement]
  { r with
    replacements
    declared := r.declared.insert Declaration.replacesKey
      (Declaration.ofNames (replacements.map Replacement.replaced)) }

def withEnumeration (r : Rule) (members : List Name) : Rule :=
  { r with
    enumeration := some members
    declared := r.declared.insert Declaration.enumerationKey (Declaration.ofNames members) }

def asPrivate (r : Rule) : Rule :=
  { r with isPrivate := true, declared := r.declared.insert Declaration.privateKey (.bool true) }

/-! ## Asking rules -/

/-- Inputs have a question or a default: their value is up to the user. -/
def isInput (r : Rule) : Bool := r.question.isSome || r.default.isSome

/-- Does the user choose the value among the members of an enumeration? -/
def isChoice (r : Rule) : Bool := r.enumeration.isSome && r.expr.isNone

/-- A rule without any content, as namespaces and members of enumerations often are. -/
def isEmpty (r : Rule) : Bool :=
  r.expr.isNone && !r.isInput && r.replacements.isEmpty && r.enumeration.isNone

/-- Is the value a contextual block? -/
def isContextual (r : Rule) : Bool := r.expr.any Expr.isContextual

/-- The names that a contextual block as the value of the rule overrides. -/
def overridden (r : Rule) : List Name := (r.expr.map Expr.rootOverrides).getD []

/-- The expressions of the rule: its value, then its default. -/
def exprs (r : Rule) : List Expr := r.expr.toList ++ r.default.toList

/-- All names that the expressions of the rule depend on. -/
def dependencies (r : Rule) : List Name := r.exprs.flatMap Expr.dependencies

def dependsOn (r : Rule) (n : Name) : Bool := n ∈ r.dependencies

/-- The rules that this one is linked to: its dependencies without itself and internal names. -/
def links (r : Rule) : NameSet :=
  .ofList (r.dependencies.filter fun d => d ≠ r.name && !d.isInternal)

/-! ## Replacing references -/

/-- Replace the references to `target` in the value, then in the default: the rule and the number
of references replaced. -/
def replace (r : Rule) (target : Name) (value : Expr) : Except AmbiguousReference (Rule × Nat) := do
  let (expr, m) ← replaceIn r.expr
  let (default, n) ← replaceIn r.default
  return ({ r with expr, default }, m + n)
where
  /-- Replace in an expression that may be missing. -/
  replaceIn : Option Expr → Except AmbiguousReference (Option Expr × Nat)
    | none => return (none, 0)
    | some e => do
      let (e, progress) := e.replace target value
      return (some e, ← progress)

/-- A rule in which references were replaced is folded at least partially. -/
def markReplaced (r : Rule) (count : Nat) : Rule :=
  if 0 < count ∧ r.status = .unset then { r with status := .partially } else r

/-! ## Writing back -/

/-- The declaration of the rule as it stands.  A rule that was folded writes its current
expressions, and its status as the attribute `marker`. -/
def written (r : Rule) (marker : String) : Declaration :=
  match r.status.marker? with
  | none => r.declared
  | some status =>
    let d := match r.expr with
      | none => r.declared
      | some e => r.declared.writeValue e
    let d := match r.default with
      | none => d
      | some e => d.writeDefault e
    d.insert marker (.text status)

/-- The status that the declaration of the rule records under `marker`, if there is one. -/
def recordedStatus (r : Rule) (marker : String) : Option Status :=
  (r.declared.get? marker).bind Attribute.text? |>.bind Status.ofMarker?

end Rule

end RuleGraph
