import RuleGraph.Folding.State

/-! # Folding one rule

A rule whose value holds in every situation becomes a constant.  The constant
is copied into the rules that refer to it, the links to its own children are
dropped, and the rule is deleted if nothing refers to it any more.  Two
things can fail: the evaluator, and copying into a rule with a reference that
cannot be told from the folded one. -/

namespace RuleGraph

/-- Why folding fails. -/
inductive FoldError where
  | evaluation (error : EvalError)
  | ambiguous (reference : AmbiguousReference)
deriving DecidableEq, Repr

/-- A step of folding; the state is kept when the step fails. -/
abbrev FoldStep (σ α : Type) := EStateM FoldError (Folding σ) α

namespace Folding

variable {σ : Type}

/-- Ask the evaluator for the value of a rule of the current graph. -/
def ask (ev : Evaluator σ) (n : Name) : FoldStep σ Evaluation := fun f =>
  match ev.ask f.graph n f.toSession with
  | .ok y s => .ok y { f with toSession := s }
  | .error e s => .error (.evaluation e) { f with toSession := s }

/-- Replace the references to `target` in one of its parents by a constant.  Parents that are
avoided keep their references. -/
def substituteIn (opts : Options) (target : Name) (q : Quantity) (parent : Name) :
    FoldStep σ Unit := fun f =>
  match f.graph.get? parent with
  | none => .ok () (f.emit (.kept target parent))
  | some r =>
    if opts.avoids r then .ok () (f.emit (.kept target parent))
    else
      match r.replace target (.const q) with
      | .error clash => .error (.ambiguous clash) f
      | .ok (r, count) => .ok () (f.adopt target parent (r.markReplaced count) count)

/-- Replace the references to `target` in all its parents by a constant. -/
def substitute (opts : Options) (target : Name) (q : Quantity) : FoldStep σ Unit := fun f =>
  (f.refs.parentsOf target).forM (substituteIn opts target q) f

/-- Make a rule the constant that it evaluated to. -/
def foldTo (opts : Options) (n : Name) (q : Quantity) : FoldStep σ Unit := fun f =>
  match substitute opts n q ((f.emit (.folded n q)).setConstant n q) with
  | .error e f => .error e f
  | .ok _ f => .ok () ((f.prune opts n).settle opts n)

/-- Is this a rule without content that no rule refers to?  Such a rule is not evaluated. -/
def isIdle (f : Folding σ) (n : Name) : Bool :=
  (f.graph.get? n).any Rule.isEmpty && !f.refs.hasParents n

/-- Fold a rule, or delete it if it is idle: was it folded or deleted? -/
def foldRule (ev : Evaluator σ) (opts : Options) (n : Name) : FoldStep σ Bool := fun f =>
  if f.isIdle n then
    match f.delete? opts n with
    | some f => .ok true f
    | none => .ok false f
  else
    match ask ev n f with
    | .error e f => .error e f
    | .ok y f =>
      if y.isConstant then
        match foldTo opts n y.toQuantity f with
        | .error e f => .error e f
        | .ok _ f => .ok true f
      else .ok false (f.emit (.varies n))

/-- Fold a rule if there is something left to fold in it and it may be folded, counting the rules
folded so far. -/
def visit (ev : Evaluator σ) (opts : Options) (folded : Nat) (n : Name) : FoldStep σ Nat :=
  fun f =>
    if f.isDone n || !f.isFoldable opts n then .ok folded f
    else
      match foldRule ev opts n f with
      | .error e f => .error e f
      | .ok true f => .ok (folded + 1) f
      | .ok false f => .ok folded f

/-- Visit all rules that are in the graph now; the number of rules folded. -/
def pass (ev : Evaluator σ) (opts : Options) : FoldStep σ Nat := fun f =>
  f.graph.names.foldlM (visit ev opts) 0 f

/-- Delete all rules that may be deleted, of those that are in the graph now. -/
def siftPass (opts : Options) (f : Folding σ) : Folding σ :=
  f.graph.names.foldl (discard opts) f

end Folding

end RuleGraph
