import RuleGraph.Graph
import RuleGraph.Links

/-! # References between rules

The children of a rule are the rules it refers to or overrides, and its parents
are the rules that have it as a child.  References to itself and to internal
names are left out.  Both directions are kept as link maps, each the transpose
of the other. -/

namespace RuleGraph

/-- The links between rules, in both directions. -/
structure References where
  parents : Links := ∅
  children : Links := ∅

namespace References

/-- Index the references of all rules of a graph. -/
def ofGraph (g : Graph) : References :=
  let children : Links := g.rules.foldl (fun l r => l.insert r.name r.links) ∅
  { parents := children.transpose, children }

/-- The rules that refer to a rule, in order. -/
def parentsOf (refs : References) (n : Name) : List Name := (refs.parents.targets n).toList

/-- The rules that a rule refers to, in order. -/
def childrenOf (refs : References) (n : Name) : List Name := (refs.children.targets n).toList

def hasParents (refs : References) (n : Name) : Bool := refs.parents.contains n

/-- Drop the link from `parent` to `child`. -/
def unlink (refs : References) (parent child : Name) : References where
  children := refs.children.modify parent (·.erase child)
  parents := refs.parents.detach child parent

/-- Forget all references that a rule makes. -/
def erase (refs : References) (n : Name) : References where
  children := refs.children.erase n
  parents := (refs.childrenOf n).foldl (fun parents child => parents.detach child n) refs.parents

/-- Why a rule cannot be removed from the index. -/
inductive Error where
  | stillReferenced (name : Name)
deriving DecidableEq, Repr

def Error.message : Error → String
  | stillReferenced n => n.text ++ " is still referenced"

/-- Remove a rule, provided that it has no parents. -/
def remove (refs : References) (n : Name) : Except Error References :=
  if refs.hasParents n then .error (.stillReferenced n) else .ok (refs.erase n)

/-- Do both directions hold the same links? -/
def isTransposed (refs : References) : Bool :=
  refs.children.reversedIn refs.parents && refs.parents.reversedIn refs.children

end References

end RuleGraph
