import RuleGraph.Evaluation
import RuleGraph.Graph

/-! # Interpretation of rules

A situation gives values to rules, which take precedence over the graph.  The
meaning of a rule is found by evaluating its active body, in which references
stand for the meanings of other rules.  The rules under evaluation are kept on
a stack, and a rule that is met again is a cycle.  Every rule on the stack is
one of the graph or of the situation, so the stack bounds the recursion, with
whatever scopes contextual blocks open on the way. -/

namespace RuleGraph

/-- What the user gives rules as their values. -/
abbrev Situation := Std.ExtTreeMap Name Expr

namespace Rule

/-- Does the value come from the user, who provides it or chooses it from an enumeration? -/
def isAsked (r : Rule) : Bool := r.isInput || r.isChoice

/-- The expression that the rule evaluates to where nothing else is given: its default if the user
is asked for the value, and its value otherwise. -/
def body (r : Rule) : Option Expr := if r.isAsked then r.default else r.expr

/-- Evaluate the body of a rule; a rule that the user is asked for reports itself as missing. -/
def evalBody (r : Rule) (meaning : Meaning) (scope : Scope) : Except EvalError Evaluation := do
  let y ← Expr.evalOption meaning scope r.body
  return if r.isAsked then { y with missing := y.missing.insert r.name } else y

end Rule

namespace Graph

/-- The names that a situation or the graph gives a body to. -/
def bound (g : Graph) (s : Situation) : List Name := s.keys ++ g.names

/-- The number of names of a list that are not on the stack. -/
def unvisited (stack : List Name) : List Name → Nat
  | [] => 0
  | n :: ns => (if n ∈ stack then 0 else 1) + unvisited stack ns

/-- Pushing a name leaves no more names to be visited. -/
theorem unvisited_push_le (stack : List Name) (n : Name) (ns : List Name) :
    unvisited (n :: stack) ns ≤ unvisited stack ns := by
  induction ns with
  | nil => exact Nat.le_refl _
  | cons m ns ih =>
    rw [unvisited, unvisited]
    by_cases hm : m ∈ stack
    · rw [if_pos hm, if_pos (List.mem_cons_of_mem n hm)]
      exact Nat.add_le_add_left ih _
    · rw [if_neg hm]
      split
      · omega
      · omega

/-- Pushing a new name of the list leaves fewer names to be visited. -/
theorem unvisited_push_lt {stack : List Name} {n : Name} {ns : List Name}
    (hn : n ∈ ns) (hs : n ∉ stack) :
    unvisited (n :: stack) ns < unvisited stack ns := by
  induction ns with
  | nil => exact nomatch hn
  | cons m ns ih =>
    rw [unvisited, unvisited]
    by_cases hm : m = n
    · subst hm
      rw [if_neg hs, if_pos (List.mem_cons_self ..)]
      have := unvisited_push_le stack m ns
      omega
    · have ih := ih ((List.mem_cons.mp hn).resolve_left (Ne.symm hm))
      simp only [List.mem_cons, hm, false_or]
      omega

theorem mem_bound_of_situation {g : Graph} {s : Situation} {n : Name} {e : Expr}
    (h : s[n]? = some e) : n ∈ g.bound s := by
  refine List.mem_append_left _ (Std.ExtTreeMap.mem_keys.mpr ?_)
  exact Std.ExtTreeMap.mem_iff_isSome_getElem?.mpr (by rw [h]; rfl)

theorem mem_bound_of_rule {g : Graph} {s : Situation} {n : Name} {r : Rule}
    (h : g.get? n = some r) : n ∈ g.bound s :=
  List.mem_append_right _ (mem_names_of_get? h)

/-- What a name evaluates to while the rules on the stack are under evaluation.  A name on the
stack is a cycle, even if it is overridden or given. -/
def meaning (g : Graph) (s : Situation) (stack : List Name) (scope : Scope) (n : Name) :
    Except EvalError Evaluation :=
  if _hs : n ∈ stack then .error (.cycle n)
  else
    match scope[n]? with
    | some q => .ok { q with }
    | none =>
      match _hn : s[n]? with
      | some e => e.eval (fun scope m => g.meaning s (n :: stack) scope m) scope
      | none =>
        match _hr : g.get? n with
        | some r => r.evalBody (fun scope m => g.meaning s (n :: stack) scope m) scope
        | none => .error (.unknownRule n)
termination_by unvisited stack (g.bound s)
decreasing_by
  · exact unvisited_push_lt (mem_bound_of_situation _hn) _hs
  · exact unvisited_push_lt (mem_bound_of_rule _hr) _hs

/-- What a name evaluates to, one step at a time. -/
theorem meaning_eq (g : Graph) (s : Situation) (stack : List Name) (scope : Scope) (n : Name) :
    g.meaning s stack scope n =
      if n ∈ stack then .error (.cycle n)
      else
        match scope[n]?, s[n]?, g.get? n with
        | some q, _, _ => .ok { q with }
        | none, some e, _ => e.eval (g.meaning s (n :: stack)) scope
        | none, none, some r => r.evalBody (g.meaning s (n :: stack)) scope
        | none, none, none => .error (.unknownRule n) := by
  rw [meaning]
  by_cases hs : n ∈ stack
  · rw [dif_pos hs, if_pos hs]
  · rw [dif_neg hs, if_neg hs]
    cases scope[n]? with
    | some q => rfl
    | none =>
      dsimp only
      split
      · rename_i e hn
        rw [hn]
      · rename_i hn
        rw [hn]
        split
        · rename_i r hr
          rw [hr]
        · rename_i hr
          rw [hr]

/-- Evaluate a rule in a situation. -/
def evaluate (g : Graph) (n : Name) (s : Situation := ∅) : Except EvalError Evaluation :=
  g.meaning s [] ∅ n

end Graph

end RuleGraph
