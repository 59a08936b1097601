import RuleGraph.Evaluator

/-! # Unfoldable rules

Some rules must never be folded, nor deleted for want of references: rules that
replace others together with the rules they replace, members of enumerations,
and contextual rules whose value depends on the situation together with the
rules that they override.  A contextual rule with a constant value protects what
it overrides only as long as it exists, which is a matter of taint. -/

namespace RuleGraph

namespace Rule

/-- The rules that a rule protects by what it declares, whatever its value. -/
def pinned (r : Rule) : List Name :=
  (if r.replacements.isEmpty then [] else r.name :: r.replacements.map Replacement.replaced)
    ++ r.enumeration.getD []

end Rule

namespace Graph

variable {σ : Type}

/-- Add the rules that `r` makes unfoldable.  The value of a contextual rule is asked for. -/
def addUnfoldable (ev : Evaluator σ) (g : Graph) (found : NameSet) (r : Rule) :
    EStateM EvalError (Session σ) NameSet := do
  let found := found.insertMany r.pinned
  if r.isContextual then
    let y ← ev.ask g r.name
    if y.isConstant then
      return found
    else
      Session.note (.contextualVaries r.name)
      return found.insertMany (r.name :: r.overridden)
  else
    return found

/-- The rules whose value cannot be determined statically. -/
def unfoldable (ev : Evaluator σ) (g : Graph) : EStateM EvalError (Session σ) NameSet :=
  g.rules.foldlM (addUnfoldable ev g) ∅

end Graph

end RuleGraph
