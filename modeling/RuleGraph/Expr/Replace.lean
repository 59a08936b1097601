import RuleGraph.Expr

/-! # Replacing references

Folding copies the constant of a rule into the expressions that refer to it.
References are matched by name.  A reference that is spelled like the target
and is not the target cannot be decided: replacing stops there, and what was
replaced before stays replaced. -/

namespace RuleGraph

/-- A reference with the text of the target and another identity. -/
structure AmbiguousReference where
  text : String
deriving DecidableEq, Repr

/-- How far replacing got: the number of references replaced, or the reference it stopped at. -/
abbrev Progress := Except AmbiguousReference Nat

namespace Expr

/-- Visit a reference node: replace it if it names the target, unless replacing has stopped. -/
def visitRef (target : Name) (value : Expr) (n : Name) : StateM Progress Expr := fun
  | .error stop => (ref n, .error stop)
  | .ok count =>
    if n = target then (value, .ok (count + 1))
    else if n.text = target.text then (ref n, .error ⟨n.text⟩)
    else (ref n, .ok count)

mutual

/-- Visit all reference nodes from left to right; of a contextual block the inner expression
comes first.  Override names are left alone. -/
def visitRefs (target : Name) (value : Expr) : Expr → StateM Progress Expr
  | ref n => visitRef target value n
  | const q => return const q
  | op o l r => return op o (← visitRefs target value l) (← visitRefs target value r)
  | cond c t e =>
    return cond (← visitRefs target value c) (← visitRefs target value t) (← visitRefs target value e)
  | applicable c v =>
    return applicable (← visitRefs target value c) (← visitRefs target value v)
  | notApplicable c v =>
    return notApplicable (← visitRefs target value c) (← visitRefs target value v)
  | all es => return all (← visitMembers target value es)
  | any es => return any (← visitMembers target value es)
  | contextual e os =>
    return contextual (← visitRefs target value e) (← visitOverrides target value os)

def visitMembers (target : Name) (value : Expr) : List Expr → StateM Progress (List Expr)
  | [] => return []
  | e :: es => return (← visitRefs target value e) :: (← visitMembers target value es)

def visitOverrides (target : Name) (value : Expr) :
    List (Name × Expr) → StateM Progress (List (Name × Expr))
  | [] => return []
  | (n, e) :: os => return (n, ← visitRefs target value e) :: (← visitOverrides target value os)

end

/-- Replace the references to `target` by copies of `value`: the expression afterwards, and the
number of references replaced or the ambiguous reference that stopped it. -/
def replace (e : Expr) (target : Name) (value : Expr) : Expr × Progress :=
  visitRefs target value e (.ok 0)

end Expr

end RuleGraph
