import RuleGraph.Folding.Weight

/-! # Folding a graph

Passes over the rules are repeated until one of them folds and deletes nothing.
If rules to keep were given, what is neither kept nor referred to is then
deleted, and folding starts again as long as that deletes a rule.  Each
repetition starts from a lighter graph. -/

namespace RuleGraph

namespace Folding

variable {σ : Type}

/-- A pass that folds a rule or changes the number of rules makes the graph strictly lighter. -/
theorem weight_lt_of_pass {ev : Evaluator σ} {opts : Options} {f f' : Folding σ} {k : Nat}
    (h : pass ev opts (f.refreshTaint ev) = .ok k f')
    (changed : ¬(f'.graph.size = f.graph.size ∧ k = 0)) :
    f'.graph.weight < f.graph.weight := by
  obtain ⟨hlight, hlt⟩ := lighter_pass h
  change Graph.Lighter f.graph f'.graph at hlight
  by_cases hk : k = 0
  · have hne : f'.graph.size ≠ f.graph.size := fun hs => changed ⟨hs, hk⟩
    exact hlight.weight_lt_of_size_lt (Nat.lt_of_le_of_ne hlight.size_le hne)
  · exact hlt hk

/-- Fold all rules repeatedly, until no rule is folded or deleted. -/
def sweep (ev : Evaluator σ) (opts : Options) (f : Folding σ) :
    EStateM.Result FoldError (Folding σ) Unit :=
  match _h : pass ev opts (f.refreshTaint ev) with
  | .error e f' => .error e f'
  | .ok folded f' =>
    let swept := f'.emit (.swept f.graph.size f'.graph.size folded)
    if _unchanged : f'.graph.size = f.graph.size ∧ folded = 0 then .ok () swept
    else sweep ev opts swept
termination_by f.graph.weight
decreasing_by
  have hlt := weight_lt_of_pass _h _unchanged
  exact hlt

/-- A sweep adds and opens no rule. -/
theorem lighter_sweep {ev : Evaluator σ} {opts : Options} {f f' : Folding σ}
    (h : sweep ev opts f = .ok () f') : Graph.Lighter f.graph f'.graph := by
  fun_induction sweep ev opts f with
  | case1 => exact nomatch h
  | case2 f k f₁ hp swept =>
    have hf' : swept = f' := (EStateM.Result.ok.inj h).2
    rw [← hf']
    exact (lighter_pass hp).1
  | case3 f k f₁ hp swept changed ih =>
    exact (lighter_pass hp).1.trans (ih h)

/-- Delete the rules that are neither kept nor referred to, until none is left. -/
def sift (ev : Evaluator σ) (opts : Options) (f : Folding σ) : Folding σ :=
  let f' := (f.refreshTaint ev).siftPass opts
  let sifted := f'.emit (.sifted f.graph.size f'.graph.size)
  if _unchanged : f'.graph.size = f.graph.size then sifted else sift ev opts sifted
termination_by f.graph.size
decreasing_by
  exact Nat.lt_of_le_of_ne (size_siftPass_le opts (f.refreshTaint ev)) _unchanged

theorem size_sift_le (ev : Evaluator σ) (opts : Options) (f : Folding σ) :
    (f.sift ev opts).graph.size ≤ f.graph.size := by
  fun_induction sift ev opts f with
  | case1 f => exact size_siftPass_le opts (f.refreshTaint ev)
  | case2 f f' sifted changed ih =>
    exact Nat.le_trans ih (size_siftPass_le opts (f.refreshTaint ev))

/-- Fold until nothing changes.  If rules to keep are given, delete what is neither kept nor
referred to, and fold again as long as that deletes a rule. -/
def run (ev : Evaluator σ) (opts : Options) (f : Folding σ) :
    EStateM.Result FoldError (Folding σ) Unit :=
  match _h : sweep ev opts f with
  | .error e f' => .error e f'
  | .ok _ f' =>
    if opts.keep.isNone then .ok () f'
    else
      let sifted := f'.sift ev opts
      if _unchanged : sifted.graph.size = f'.graph.size then .ok () sifted
      else run ev opts sifted
termination_by f.graph.size
decreasing_by
  exact Nat.lt_of_lt_of_le (Nat.lt_of_le_of_ne (size_sift_le ev opts f') _unchanged)
    (lighter_sweep _h).size_le

/-- The state in which folding starts: a graph whose statuses were restored. -/
def start (s : Session σ) (g : Graph) (unfoldable : NameSet) : Folding σ :=
  let f : Folding σ := { s with graph := g, refs := .ofGraph g, unfoldable }
  f.emit (.classified unfoldable.size g.size)

end Folding

namespace Graph

variable {σ : Type}

/-- Fold a graph with an evaluator, within a session. -/
def foldWith (ev : Evaluator σ) (opts : Options) (g : Graph) :
    EStateM FoldError (Session σ) Graph := fun s =>
  let g := g.restoreStatus opts.marker
  match g.unfoldable ev s with
  | .error e s => .error (.evaluation e) s
  | .ok unfoldable s =>
    match (Folding.start s g unfoldable).run ev opts with
    | .error e f => .error e f.toSession
    | .ok _ f => .ok f.graph f.toSession

/-- Fold a graph: replace rules whose value does not depend on the situation by their value, and
delete rules that are no longer referred to. -/
def fold (g : Graph) (opts : Options := {}) : Except FoldError Graph :=
  match g.foldWith Evaluator.interpreter opts { state := () } with
  | .ok folded _ => .ok folded
  | .error e _ => .error e

end Graph

end RuleGraph
