import RuleGraph.Folding.Options
import RuleGraph.Folding.Taint
import RuleGraph.Unfoldable

/-! # The state of folding

Folding works on a graph of its own, together with the references between its
rules, the rules that are unfoldable, and the taint of the current pass.  The
steps below cannot fail: asking whether a rule may be folded, deleting a rule
that no other rule refers to, and deleting what a folded rule referred to. -/

namespace RuleGraph

/-- State of folding a graph, where `σ` is the state of the evaluator. -/
structure Folding (σ : Type) extends Session σ where
  graph : Graph
  refs : References
  unfoldable : NameSet
  taint : Taint := {}

namespace Folding

variable {σ : Type}

/-- Note an event. -/
def emit (f : Folding σ) (e : Event) : Folding σ := { f with toSession := f.toSession.emit e }

/-- Compute the taint anew. -/
def refreshTaint (ev : Evaluator σ) (f : Folding σ) : Folding σ :=
  let taint := Taint.ofGraph f.graph f.refs f.unfoldable
    fun n => ev.isAccessible f.graph n f.state
  { f with taint }.emit (.tainted taint.tainted.size)

/-- Does a rule block the folding of the contextual rule `root`?  What only `root` itself
overrides does not, because the override is evaluated together with the rule. -/
def blocks (f : Folding σ) (root n : Name) : Bool :=
  f.unfoldable.contains n || f.taint.isOverriddenExcept n root

/-- Does a contextual rule depend on a rule that blocks its folding? -/
def reachesBlocking (f : Folding σ) (root : Name) : Bool :=
  (f.refs.children.closure [root]).toList.any (f.blocks root)

/-- Can the rule be folded or deleted?  It has to be in the graph and accessible, neither avoided
nor an input, and must not depend on an unfoldable or overridden rule. -/
def isFoldable (opts : Options) (f : Folding σ) (n : Name) : Bool :=
  match f.graph.get? n with
  | none => false
  | some r =>
    !opts.avoids r && !r.isInput && f.taint.isAccessible n &&
      !(if r.isContextual then f.reachesBlocking n else f.taint.isTainted n)

/-- Is there nothing left to fold in the rule? -/
def isDone (f : Folding σ) (n : Name) : Bool :=
  match f.graph.get? n with
  | none => true
  | some r => r.status = .fully

/-- Take a rule out of the graph. -/
def drop (f : Folding σ) (n : Name) : Folding σ :=
  { f with graph := f.graph.erase n, refs := f.refs.erase n }.emit (.deleted n)

/-- May the rule be deleted?  It must be foldable, and neither kept nor referred to. -/
def isDeletable (opts : Options) (f : Folding σ) (n : Name) : Bool :=
  !(f.graph.get? n).any opts.keeps && !f.refs.hasParents n && f.isFoldable opts n

/-- Delete a rule if it may be deleted. -/
def delete? (opts : Options) (f : Folding σ) (n : Name) : Option (Folding σ) :=
  if f.isDeletable opts n then some (f.drop n) else none

/-- Drop the link from `parent` to `child`. -/
def unlink (f : Folding σ) (parent child : Name) : Folding σ :=
  { f with refs := f.refs.unlink parent child }

/-- Drop a link of a folded rule, and delete the child if it may be deleted now. -/
def pruneChild (opts : Options) (parent : Name) (f : Folding σ) (child : Name) : Folding σ :=
  let f := f.unlink parent child
  match f.delete? opts child with
  | some f => f.emit (.pruned child parent)
  | none => f

/-- Drop all links of a folded rule to its children. -/
def prune (opts : Options) (f : Folding σ) (parent : Name) : Folding σ :=
  (f.refs.childrenOf parent).foldl (pruneChild opts parent) f

/-- Make the value of a rule a constant. -/
def setConstant (f : Folding σ) (n : Name) (q : Quantity) : Folding σ :=
  { f with graph := f.graph.modify n fun r => { r with expr := some (.const q) } }

/-- Mark a rule as fully folded. -/
def markFully (f : Folding σ) (n : Name) : Folding σ :=
  { f with graph := f.graph.modify n fun r => { r with status := .fully } }

/-- Delete a rule if it may be deleted, and leave the state alone otherwise. -/
def discard (opts : Options) (f : Folding σ) (n : Name) : Folding σ :=
  (f.delete? opts n).getD f

/-- Delete a folded rule if it may be deleted, and mark it as fully folded otherwise. -/
def settle (opts : Options) (f : Folding σ) (n : Name) : Folding σ :=
  (f.delete? opts n).getD (f.markFully n)

/-- Adopt the rule that came out of replacing references to `target` in `parent`.  The link goes
unless an override of the target remains. -/
def adopt (f : Folding σ) (target parent : Name) (r : Rule) (count : Nat) : Folding σ :=
  let f := { f with graph := f.graph.modify parent fun _ => r }.emit (.replaced count target parent)
  if r.dependsOn target then f else f.unlink parent target

end Folding

end RuleGraph
