import RuleGraph.References

/-! # Taint

A rule is blocked by an unfoldable rule, or by a rule that a contextual rule
overrides, and the block passes on to all rules that depend on it.  A taint
collects what is blocked.  It is computed once for a pass over the rules:
folding and deleting only take references and overrides away, so a taint may
block more than necessary during the pass. -/

namespace RuleGraph

/-- The blocks in force during one pass over the rules. -/
structure Taint where
  /-- The contextual rules that override a rule. -/
  overriders : Links := ∅
  /-- Rules that are unfoldable or overridden, or depend on such a rule. -/
  tainted : NameSet := ∅
  inaccessible : NameSet := ∅

namespace Taint

/-- The contextual rules of a graph, by the rules that they override. -/
def overridersIn (g : Graph) : Links :=
  g.rules.foldl (fun l r => r.overridden.foldl (fun l n => l.attach n r.name) l) ∅

/-- The taint of a graph, given its references, its unfoldable rules and who may be accessed. -/
def ofGraph (g : Graph) (refs : References) (unfoldable : NameSet) (accessible : Name → Bool) :
    Taint :=
  let overriders := overridersIn g
  { overriders
    tainted := refs.parents.closure (unfoldable.toList ++ overriders.keys)
    inaccessible := .ofList (g.names.filter fun n => !accessible n) }

def isTainted (t : Taint) (n : Name) : Bool := t.tainted.contains n

def isAccessible (t : Taint) (n : Name) : Bool := !t.inaccessible.contains n

/-- Is the rule overridden by a contextual rule other than `root`? -/
def isOverriddenExcept (t : Taint) (n root : Name) : Bool :=
  (t.overriders.targets n).toList.any (· ≠ root)

end Taint

end RuleGraph
