import Mathlib.Logic.Relation
import RuleGraph.Proofs.Meaning

/-! # What errors tell

    An evaluation fails because a rule depends on itself, because a name has no
    rule, or because an operation is not defined on its operands.  The first
    two can be told from the graph and the situation alone, by following
    references from body to body (`Graph.Refers`):

    * an expression fails by an operation, or as one of its references does
      (`Expr.eval_eq_error`);
    * each name on the stack refers to the one that is looked up next, so the
      stack is a path, and a name that is met again closes a cycle
      (`Graph.meaning_justified`).  Contextual blocks need no care: what they
      override has a value at once, and nothing is looked up for it. -/

namespace RuleGraph

/-- A computation in two parts fails in the first part, or in the second one. -/
theorem of_bind_eq_error {α β : Type} {x : Except EvalError α} {k : α → Except EvalError β}
    {err : EvalError} (h : (x >>= k) = .error err) :
    x = .error err ∨ ∃ a, x = .ok a ∧ k a = .error err := by
  cases x with
  | error e =>
      cases h
      exact Or.inl rfl
  | ok a => exact Or.inr ⟨a, rfl, h⟩

namespace Expr

/-! ## Errors of an expression -/

variable {m : Meaning} {scope : Scope} {err : EvalError}

/-- The error is that of an operation, or of a reference to one of the names. -/
def ErrorFrom (m : Meaning) (names : List Name) (err : EvalError) : Prop :=
  (∃ operation, err = .illTyped operation) ∨ ∃ scope, ∃ n ∈ names, m scope n = .error err

theorem ErrorFrom.mono {names names' : List Name} (h : ErrorFrom m names err)
    (hsub : ∀ n ∈ names, n ∈ names') : ErrorFrom m names' err := by
  refine h.imp_right ?_
  rintro ⟨scope, n, hn, herr⟩
  exact ⟨scope, n, hsub n hn, herr⟩

theorem errorFrom_left {names names' : List Name} (h : ErrorFrom m names err) :
    ErrorFrom m (names ++ names') err :=
  h.mono fun _ hn => List.mem_append_left _ hn

theorem errorFrom_right {names names' : List Name} (h : ErrorFrom m names' err) :
    ErrorFrom m (names ++ names') err :=
  h.mono fun _ hn => List.mem_append_right _ hn

/-- The error of an operator is that of an operation, whatever the names are. -/
theorem evalOp_eq_error {o : Operator} {x y : Evaluation} (h : evalOp o x y = .error err)
    (names : List Name) : ErrorFrom m names err := by
  rw [evalOp] at h
  split at h
  · cases h
    exact Or.inl ⟨_, rfl⟩
  · cases h

/-- If members fail, the error comes from the references of one of them. -/
theorem evalMembers_eq_error {es : List Expr}
    (hes : ∀ e ∈ es, eval m scope e = .error err → ErrorFrom m e.references err)
    (h : evalMembers m scope es = .error err) : ErrorFrom m (memberReferences es) err := by
  induction es with
  | nil => cases h
  | cons e es ih =>
      obtain ⟨he, hes⟩ := List.forall_mem_cons.mp hes
      rcases of_bind_eq_error h with h | ⟨x, -, h⟩
      · exact errorFrom_left (he h)
      · rcases of_bind_eq_error h with h | ⟨xs, -, h⟩
        · exact errorFrom_right (ih hes h)
        · cases h

/-- If overrides fail, the error comes from the references of one of their values. -/
theorem evalOverrides_eq_error {os : List (Name × Expr)}
    (hos : ∀ o ∈ os, eval m scope o.2 = .error err → ErrorFrom m o.2.references err)
    (h : evalOverrides m scope os = .error err) : ErrorFrom m (overrideReferences os) err := by
  induction os with
  | nil => cases h
  | cons o os ih =>
      obtain ⟨n, e⟩ := o
      obtain ⟨he, hos⟩ := List.forall_mem_cons.mp hos
      rcases of_bind_eq_error h with h | ⟨x, -, h⟩
      · exact errorFrom_left (he h)
      · rcases of_bind_eq_error h with h | ⟨xs, -, h⟩
        · exact errorFrom_right (ih hos h)
        · cases h

/-- An expression fails by one of its operations, or as a reference in it does. -/
theorem eval_eq_error {e : Expr} (h : eval m scope e = .error err) :
    ErrorFrom m e.references err := by
  induction e generalizing scope with
  | ref n => exact Or.inr ⟨scope, n, List.mem_singleton_self n, h⟩
  | const q => cases h
  | op o l r ihl ihr =>
      rcases of_bind_eq_error h with h | ⟨x, -, h⟩
      · exact errorFrom_left (ihl h)
      · rcases of_bind_eq_error h with h | ⟨y, -, h⟩
        · exact errorFrom_right (ihr h)
        · exact evalOp_eq_error h _
  | cond c t e ihc iht ihe =>
      rcases of_bind_eq_error h with h | ⟨x, -, h⟩
      · exact errorFrom_left (errorFrom_left (ihc h))
      · -- only the branch that is taken can fail
        split at h
        · rcases of_bind_eq_error h with h | ⟨y, -, h⟩
          · exact errorFrom_left (errorFrom_right (iht h))
          · cases h
        · rcases of_bind_eq_error h with h | ⟨y, -, h⟩
          · exact errorFrom_right (ihe h)
          · cases h
  | applicable c v ihc ihv =>
      rcases of_bind_eq_error h with h | ⟨x, -, h⟩
      · exact errorFrom_left (ihc h)
      · split at h
        · rcases of_bind_eq_error h with h | ⟨y, -, h⟩
          · exact errorFrom_right (ihv h)
          · cases h
        · cases h
  | notApplicable c v ihc ihv =>
      rcases of_bind_eq_error h with h | ⟨x, -, h⟩
      · exact errorFrom_left (ihc h)
      · split at h
        · cases h
        · rcases of_bind_eq_error h with h | ⟨y, -, h⟩
          · exact errorFrom_right (ihv h)
          · cases h
  | all es ih | any es ih =>
      rcases of_bind_eq_error h with h | ⟨xs, -, h⟩
      · exact evalMembers_eq_error (fun e he => ih e he) h
      · cases h
  | contextual e os ihe ihos =>
      rcases of_bind_eq_error h with h | ⟨xs, -, h⟩
      · exact errorFrom_right (evalOverrides_eq_error (fun o ho => ihos o ho) h)
      · rcases of_bind_eq_error h with h | ⟨y, -, h⟩
        · exact errorFrom_left (ihe h)
        · cases h

end Expr

/-- A rule fails only if its body does. -/
theorem Rule.evalBody_eq_error {r : Rule} {m : Meaning} {scope : Scope} {err : EvalError}
    (h : r.evalBody m scope = .error err) :
    ∃ e, r.body = some e ∧ e.eval m scope = .error err := by
  rcases of_bind_eq_error h with h | ⟨y, -, h⟩
  · cases hbody : r.body with
    | none =>
        rw [hbody] at h
        cases h
    | some e =>
        rw [hbody] at h
        exact ⟨e, rfl, h⟩
  · cases h

namespace Graph

/-! ## Errors of a rule -/

variable {g : Graph} {s : Situation} {stack : List Name} {scope : Scope} {r n : Name}
  {err : EvalError}

/-- The expression that the first name is evaluated by has a reference to the second one. -/
def Refers (g : Graph) (s : Situation) (p n : Name) : Prop :=
  ∃ e, g.active s p = some e ∧ n ∈ e.references

/-- The second name can be reached from the first one along references. -/
def ComesTo (g : Graph) (s : Situation) : Name → Name → Prop := Relation.ReflTransGen (g.Refers s)

/-- The name can be reached from itself along at least one reference. -/
def OnCycle (g : Graph) (s : Situation) (n : Name) : Prop := Relation.TransGen (g.Refers s) n n

/-- The graph and the situation account for an error of evaluating `r`. -/
inductive Justifies (g : Graph) (s : Situation) (r : Name) : EvalError → Prop where
  | cycle {n : Name} : g.ComesTo s r n → g.OnCycle s n → Justifies g s r (.cycle n)
  | unknownRule {n : Name} : g.ComesTo s r n → g.contains n = false → n ∉ s →
      Justifies g s r (.unknownRule n)
  | illTyped (operation : String) : Justifies g s r (.illTyped operation)

/-- Errors are justified wherever the evaluation of `r` has come to, if the stack is a path from `r`
to the name that is looked up. -/
theorem meaning_justified (hn : g.ComesTo s r n)
    (hstack : ∀ p ∈ stack, Relation.TransGen (g.Refers s) p n)
    (h : g.meaning s stack scope n = .error err) : g.Justifies s r err := by
  induction stack using stack_induction g s generalizing scope n with
  | step stack ih =>
      by_cases hmem : n ∈ stack
      · rw [meaning_of_mem hmem] at h
        cases h
        exact .cycle hn (hstack n hmem)
      -- what fails below the body of `n` fails with `n` on the stack
      have hbelow : ∀ {e : Expr}, n ∈ g.bound s → g.active s n = some e →
          e.eval (g.meaning s (n :: stack)) scope = .error err → g.Justifies s r err := by
        intro e hbound hactive herr
        rcases Expr.eval_eq_error herr with ⟨operation, rfl⟩ | ⟨scope', d, hd, herr⟩
        · exact .illTyped operation
        · have hnd : g.Refers s n d := ⟨e, hactive, hd⟩
          refine ih n hmem hbound (Relation.ReflTransGen.tail hn hnd) ?_ herr
          intro p hp
          rcases List.mem_cons.mp hp with rfl | hp
          · exact Relation.TransGen.single hnd
          · exact Relation.TransGen.tail (hstack p hp) hnd
      cases hq : scope[n]? with
      | some q =>
          rw [meaning_of_scope hmem hq] at h
          cases h
      | none =>
          cases hs : s[n]? with
          | some e =>
              rw [meaning_of_situation hmem hq hs] at h
              exact hbelow (mem_bound_of_situation hs) (active_of_situation hs) h
          | none =>
              cases hr : g.get? n with
              | some t =>
                  rw [meaning_of_rule hmem hq hs hr] at h
                  obtain ⟨e, hbody, h⟩ := Rule.evalBody_eq_error h
                  exact hbelow (mem_bound_of_rule hr) ((active_of_rule hs hr).trans hbody) h
              | none =>
                  rw [meaning_of_none hmem hq hs hr] at h
                  cases h
                  refine .unknownRule hn ?_ ?_
                  · rw [contains, hr]
                    rfl
                  · rw [Std.ExtTreeMap.mem_iff_isSome_getElem?, hs]
                    exact Bool.false_ne_true

theorem evaluate_justified (h : g.evaluate r s = .error err) : g.Justifies s r err :=
  meaning_justified Relation.ReflTransGen.refl (fun _ hp => absurd hp List.not_mem_nil) h

/-- Errors are justified.  If a cycle is reported, the name can be reached and lies on a cycle of
references; if a rule is unknown, the name can be reached, and neither the graph nor the situation
has it.  So where references form no cycle and lead to known names only, an evaluation succeeds or
fails by an operation. -/
theorem evaluation_errors_justified (g : Graph) (r : Name) (s : Situation) :
    (∀ n, g.evaluate r s = .error (.cycle n) → g.ComesTo s r n ∧ g.OnCycle s n) ∧
    (∀ n, g.evaluate r s = .error (.unknownRule n) →
      g.ComesTo s r n ∧ g.contains n = false ∧ n ∉ s) ∧
    ((∀ n, g.ComesTo s r n → ¬g.OnCycle s n) →
      (∀ n, g.ComesTo s r n → g.contains n = true ∨ n ∈ s) →
      (∃ y, g.evaluate r s = .ok y) ∨
        ∃ operation, g.evaluate r s = .error (.illTyped operation)) := by
  refine ⟨?_, ?_, ?_⟩
  · intro n h
    cases evaluate_justified h with
    | cycle hcomes hcycle => exact ⟨hcomes, hcycle⟩
  · intro n h
    cases evaluate_justified h with
    | unknownRule hcomes hg hs => exact ⟨hcomes, hg, hs⟩
  · intro hacyclic hknown
    cases h : g.evaluate r s with
    | ok y => exact Or.inl ⟨y, rfl⟩
    | error err =>
        cases evaluate_justified h with
        | cycle hcomes hcycle => exact absurd hcycle (hacyclic _ hcomes)
        | unknownRule hcomes hg hs =>
            rcases hknown _ hcomes with hknown | hknown
            · rw [hg] at hknown
              cases hknown
            · exact absurd hknown hs
        | illTyped operation => exact Or.inr ⟨operation, rfl⟩

/-- A cake that is iced when the oven is off, an icing that is made for a cake, a bread of a dough
for which there is no flour, and a toast of the wrong kind. -/
def bakery : Graph where
  rules := [
    { name := ⟨"bread", 0⟩, expr := some (.all [.ref ⟨"oven", 4⟩, .ref ⟨"dough", 2⟩]) },
    { name := ⟨"cake", 1⟩,
      expr := some (.contextual (.ref ⟨"icing", 3⟩)
        [(⟨"oven", 4⟩, .const { value := .bool false })]) },
    { name := ⟨"dough", 2⟩, expr := some (.any [.ref ⟨"flour", 6⟩]) },
    { name := ⟨"icing", 3⟩, expr := some (.any [.ref ⟨"oven", 4⟩, .ref ⟨"cake", 1⟩]) },
    { name := ⟨"oven", 4⟩, question := some "Is the oven on?",
      default := some (.const { value := .bool true }) },
    { name := ⟨"toast", 5⟩,
      expr := some (.op .add (.ref ⟨"oven", 4⟩) (.const { value := .text "slice" })) }]
  increasing := by decide

/-- Of toast and oven, only the toast refers to anything, and that is the oven. -/
theorem refers_bakery {p n : Name} (h : bakery.Refers ∅ p n)
    (hp : p = ⟨"toast", 5⟩ ∨ p = ⟨"oven", 4⟩) : p = ⟨"toast", 5⟩ ∧ n = ⟨"oven", 4⟩ := by
  obtain ⟨e, hactive, hn⟩ := h
  rcases hp with rfl | rfl
  · cases hactive
    exact ⟨rfl, List.mem_singleton.mp hn⟩
  · cases hactive
    cases hn

/-- From the toast one comes to the oven, and no further. -/
theorem comesTo_bakery {n : Name} (h : bakery.ComesTo ∅ ⟨"toast", 5⟩ n) :
    n = ⟨"toast", 5⟩ ∨ n = ⟨"oven", 4⟩ := by
  induction h with
  | refl => exact Or.inl rfl
  | tail _ hstep ih => exact Or.inr (refers_bakery hstep ih).2

/-- Nothing that one comes to from the toast is on a cycle. -/
theorem not_onCycle_bakery {n : Name} (h : bakery.ComesTo ∅ ⟨"toast", 5⟩ n) :
    ¬bakery.OnCycle ∅ n := by
  intro hcycle
  obtain ⟨p, hnp, hpn⟩ := Relation.TransGen.head'_iff.mp hcycle
  obtain ⟨rfl, rfl⟩ := refers_bakery hnp (comesTo_bakery h)
  rcases Relation.ReflTransGen.cases_head hpn with heq | ⟨q, hstep, -⟩
  · exact absurd heq (by decide)
  · exact absurd (refers_bakery hstep (Or.inr rfl)).1 (by decide)

/-- In the bakery, a cake is reported to be on a cycle and flour to be unknown, and both is so; the
toast, below which nothing of this kind can be found, fails by an operation. -/
theorem evaluation_errors_justified_bakery :
    (bakery.evaluate ⟨"cake", 1⟩ ∅ = .error (.cycle ⟨"cake", 1⟩) ∧
      bakery.OnCycle ∅ ⟨"cake", 1⟩) ∧
    (bakery.evaluate ⟨"bread", 0⟩ ∅ = .error (.unknownRule ⟨"flour", 6⟩) ∧
      bakery.ComesTo ∅ ⟨"bread", 0⟩ ⟨"flour", 6⟩ ∧ bakery.contains ⟨"flour", 6⟩ = false ∧
      ⟨"flour", 6⟩ ∉ (∅ : Situation)) ∧
    ((∃ y, bakery.evaluate ⟨"toast", 5⟩ ∅ = .ok y) ∨
      ∃ operation, bakery.evaluate ⟨"toast", 5⟩ ∅ = .error (.illTyped operation)) := by
  have hcake : bakery.evaluate ⟨"cake", 1⟩ ∅ = .error (.cycle ⟨"cake", 1⟩) := by decide +kernel
  have hbread : bakery.evaluate ⟨"bread", 0⟩ ∅ = .error (.unknownRule ⟨"flour", 6⟩) := by
    decide +kernel
  have hknown : ∀ n, bakery.ComesTo ∅ ⟨"toast", 5⟩ n →
      bakery.contains n = true ∨ n ∈ (∅ : Situation) := by
    intro n hn
    rcases comesTo_bakery hn with rfl | rfl
    · exact Or.inl rfl
    · exact Or.inl rfl
  exact ⟨⟨hcake, ((evaluation_errors_justified bakery ⟨"cake", 1⟩ ∅).1 _ hcake).2⟩,
    ⟨hbread, (evaluation_errors_justified bakery ⟨"bread", 0⟩ ∅).2.1 _ hbread⟩,
    (evaluation_errors_justified bakery ⟨"toast", 5⟩ ∅).2.2 (fun _ => not_onCycle_bakery) hknown⟩

end Graph

end RuleGraph
