import RuleGraph.Proofs.Meaning

/-! # The stack of an interpretation

    The meaning of a name recurs with an argument for the stack, and with one
    for what contextual blocks override.  An interpreter that works in place
    has one stack, onto which it pushes the name that it looks up and from
    which it pops it again, and one situation, which it extends by constants
    wherever it enters a block (`Graph.runRule`).  It takes a bound on how
    deeply its calls are nested, and gives up where that does not suffice; so
    it terminates if some bound suffices.

    * What is shown of a computation is that it gives up only under bounds that
      are too small, and that otherwise the stack is as it was when it returns,
      and the stacks there were meanwhile have a property, which can be any
      that pushing a new name keeps (`Returns`).  A name that is looked up is
      among those pushed, unless it was on the stack (`entered`).
    * Extending the situation by constants is the same as keeping them in a
      scope of their own (`Overlay`).  So the names that have a body stay those
      of the situation at the start, and with them the bound on the stack.
    * Therefore each function of the interpreter returns, with the result that
      the recursion over meanings gives (`runExpr_returns`, `runRule_returns`). -/

namespace RuleGraph

/-- The state of an interpreter. -/
structure Machine where
  /-- The names under evaluation, the last one first. -/
  stack : List Name := []
  /-- All stacks that there were, the last one first. -/
  reached : List (List Name) := []

namespace Machine

def push (n : Name) (m : Machine) : Machine := ⟨n :: m.stack, (n :: m.stack) :: m.reached⟩

def pop (m : Machine) : Machine := { m with stack := m.stack.tail }

def clear (m : Machine) : Machine := { m with stack := [] }

end Machine

/-- A computation of the interpreter, which may give up. -/
abbrev Run := StateT Machine Option

/-- Go on with a result, and pass an error on. -/
abbrev Run.andThen {α β : Type} (x : Run (Except EvalError α)) (k : α → Run (Except EvalError β)) :
    Run (Except EvalError β) := do
  match ← x with
  | .error e => return .error e
  | .ok a => k a

/-- Compute with a name on the stack, unless it is there already. -/
abbrev Run.within {α : Type} (n : Name) (x : Run (Except EvalError α)) :
    Run (Except EvalError α) := do
  if n ∈ (← get).stack then return .error (.cycle n)
  else
    modifyThe Machine (Machine.push n)
    let y ← x
    modifyThe Machine Machine.pop
    return y

/-- The situation inside of a contextual block. -/
def Situation.override (s : Situation) (overrides : List (Name × Evaluation)) : Situation :=
  overrides.foldl (fun s o => s.insert o.1 (.const o.2.toQuantity)) s

namespace Graph

mutual

/-- Evaluate a name, with calls nested to the given depth at most. -/
def runRule (g : Graph) : Nat → Situation → Name → Run (Except EvalError Evaluation)
  | 0, _, _ => failure
  | d + 1, s, n =>
    Run.within n
      (match s[n]?, g.get? n with
        | some e, _ => runExpr g d s e
        | none, some r => runBody g d s r
        | none, none => return .error (.unknownRule n))

/-- Evaluate the body of a rule. -/
def runBody (g : Graph) : Nat → Situation → Rule → Run (Except EvalError Evaluation)
  | 0, _, _ => failure
  | d + 1, s, r =>
    Run.andThen
      (match r.body with
        | some e => runExpr g d s e
        | none => return .ok {})
      fun y => return .ok (if r.isAsked then { y with missing := y.missing.insert r.name } else y)

/-- Evaluate an expression. -/
def runExpr (g : Graph) : Nat → Situation → Expr → Run (Except EvalError Evaluation)
  | 0, _, _ => failure
  | d + 1, s, .ref n => runRule g d s n
  | _ + 1, _, .const q => return .ok { q with }
  | d + 1, s, .op o l r =>
    (runExpr g d s l).andThen fun x => (runExpr g d s r).andThen fun y => return Expr.evalOp o x y
  | d + 1, s, .cond c t e =>
    (runExpr g d s c).andThen fun x =>
      (runExpr g d s (if x.value.isTruthy then t else e)).andThen fun y => return .ok (y.absorb x)
  | d + 1, s, .applicable c v =>
    (runExpr g d s c).andThen fun x =>
      if x.value.isTruthy then
        (runExpr g d s v).andThen fun y => return .ok (Expr.evalApplied x y)
      else
        return .ok (Expr.evalApplied x {})
  | d + 1, s, .notApplicable c v =>
    (runExpr g d s c).andThen fun x =>
      if x.value.isTruthy then
        return .ok (Expr.evalApplied x {})
      else
        (runExpr g d s v).andThen fun y => return .ok (Expr.evalApplied x y)
  | d + 1, s, .all es =>
    (runMembers g d s es).andThen fun xs =>
      let result : Evaluation := { value := .bool (xs.all (·.value.isTruthy)) }
      return .ok (result.absorbAll xs)
  | d + 1, s, .any es =>
    (runMembers g d s es).andThen fun xs =>
      let result : Evaluation := { value := .bool (xs.any (·.value.isTruthy)) }
      return .ok (result.absorbAll xs)
  | d + 1, s, .contextual e os =>
    (runOverrides g d s os).andThen fun xs =>
      (runExpr g d (s.override xs) e).andThen fun y => return .ok (y.absorbAll (xs.map Prod.snd))

/-- Evaluate expressions one after the other. -/
def runMembers (g : Graph) : Nat → Situation → List Expr →
    Run (Except EvalError (List Evaluation))
  | 0, _, _ => failure
  | _ + 1, _, [] => return .ok []
  | d + 1, s, e :: es =>
    (runExpr g d s e).andThen fun x => (runMembers g d s es).andThen fun xs => return .ok (x :: xs)

/-- Evaluate overrides one after the other, outside of their block. -/
def runOverrides (g : Graph) : Nat → Situation → List (Name × Expr) →
    Run (Except EvalError (List (Name × Evaluation)))
  | 0, _, _ => failure
  | _ + 1, _, [] => return .ok []
  | d + 1, s, (n, e) :: os =>
    (runExpr g d s e).andThen fun x =>
      (runOverrides g d s os).andThen fun xs => return .ok ((n, x) :: xs)

end

/-- Evaluate a name on an interpreter that may have been used before. -/
def interpret (g : Graph) (d : Nat) (n : Name) (s : Situation := ∅) :
    Run (Except EvalError Evaluation) := do
  modifyThe Machine Machine.clear
  g.runRule d s n

end Graph

/-! ## Returning computations -/

section Returns

variable {α β : Type} {P : List Name → Prop} {pushed : List (List Name)} {stack : List Name}
  {x : Run (Except EvalError α)} {y : Except EvalError α}

/-- Started on the stack, the computation gives up only below some depth.  Otherwise it returns the
result and the same stack.  All stacks that there were meanwhile have the property, and those that
had to be pushed are among them. -/
def Returns (P : List Name → Prop) (pushed : List (List Name)) (stack : List Name)
    (x : Nat → Run (Except EvalError α)) (y : Except EvalError α) : Prop :=
  ∃ depth, ∀ d reached, (d < depth ∧ x d ⟨stack, reached⟩ = none) ∨ ∃ more,
    x d ⟨stack, reached⟩ = some (y, ⟨stack, more ++ reached⟩) ∧
      (∀ st ∈ more, P st) ∧ pushed ⊆ more

/-- What gives up in its first part gives up. -/
theorem Run.andThen_of_none {m : Machine} (hx : x m = none) (k : α → Run (Except EvalError β)) :
    x.andThen k m = none := by
  change (x m).bind _ = _
  rw [hx]
  rfl

theorem Run.andThen_of_error {m m' : Machine} {e : EvalError} (hx : x m = some (.error e, m'))
    (k : α → Run (Except EvalError β)) : x.andThen k m = some (.error e, m') := by
  change (x m).bind _ = _
  rw [hx]
  rfl

theorem Run.andThen_of_ok {m m' : Machine} {a : α} (hx : x m = some (.ok a, m'))
    (k : α → Run (Except EvalError β)) : x.andThen k m = k a m' := by
  change (x m).bind _ = _
  rw [hx]
  rfl

/-- Looking up a name on the stack is a cycle, and leaves the interpreter as it was. -/
theorem Run.within_of_mem {m : Machine} {n : Name} (hn : n ∈ m.stack)
    (x : Run (Except EvalError α)) : x.within n m = some (.error (.cycle n), m) := by
  change (ite (n ∈ m.stack) _ _ : Run (Except EvalError α)) m = _
  rw [if_pos hn]
  rfl

/-- Looking up any other name pushes it, and pops it whatever the result is. -/
theorem Run.within_of_not_mem {m : Machine} {n : Name} (hn : n ∉ m.stack)
    (x : Run (Except EvalError α)) :
    x.within n m = (x (m.push n)).map fun r => (r.1, r.2.pop) := by
  change (ite (n ∈ m.stack) _ _ : Run (Except EvalError α)) m = _
  rw [if_neg hn]
  change (x (m.push n)).bind _ = _
  cases x (m.push n) with
  | none => rfl
  | some r => rfl

theorem returns_pure (y : Except EvalError α) : Returns P [] stack (fun _ => pure y) y := by
  refine ⟨0, ?_⟩
  intro d reached
  exact Or.inr ⟨[], rfl, fun _ hst => absurd hst List.not_mem_nil, List.nil_subset _⟩

/-- Which stacks had to be pushed can be left open. -/
theorem Returns.weaken {x : Nat → Run (Except EvalError α)} (h : Returns P pushed stack x y) :
    Returns P [] stack x y := by
  obtain ⟨depth, h⟩ := h
  refine ⟨depth, ?_⟩
  intro d reached
  refine (h d reached).imp_right ?_
  rintro ⟨more, hrun, hmore, -⟩
  exact ⟨more, hrun, hmore, List.nil_subset _⟩

/-- A computation that gives up at depth zero takes one more level than what it calls. -/
theorem Returns.succ {x : Nat → Run (Except EvalError α)} (hzero : x 0 = failure)
    (h : Returns P pushed stack (fun d => x (d + 1)) y) : Returns P pushed stack x y := by
  obtain ⟨depth, h⟩ := h
  refine ⟨depth + 1, ?_⟩
  intro d reached
  cases d with
  | zero => exact Or.inl ⟨Nat.succ_pos depth, congrFun hzero _⟩
  | succ d => exact (h d reached).imp_left fun hd => ⟨Nat.succ_lt_succ hd.1, hd.2⟩

/-- Two computations return one after the other, at a depth that suffices for both. -/
theorem Returns.andThen {x : Nat → Run (Except EvalError α)}
    {k : Nat → α → Run (Except EvalError β)} {f : α → Except EvalError β}
    (hx : Returns P [] stack x y) (hk : ∀ a, Returns P [] stack (fun d => k d a) (f a)) :
    Returns P [] stack (fun d => (x d).andThen (k d)) (y >>= f) := by
  obtain ⟨depth, hx⟩ := hx
  cases y with
  | error e =>
      refine ⟨depth, ?_⟩
      intro d reached
      rcases hx d reached with ⟨hd, hnone⟩ | ⟨more, hrun, hmore⟩
      · exact Or.inl ⟨hd, Run.andThen_of_none hnone (k d)⟩
      · exact Or.inr ⟨more, Run.andThen_of_error hrun (k d), hmore⟩
  | ok a =>
      obtain ⟨depth', hk⟩ := hk a
      refine ⟨max depth depth', ?_⟩
      intro d reached
      rcases hx d reached with ⟨hd, hnone⟩ | ⟨more, hrun, hmore, -⟩
      · exact Or.inl ⟨Nat.lt_of_lt_of_le hd (Nat.le_max_left depth depth'),
          Run.andThen_of_none hnone (k d)⟩
      rcases hk d (more ++ reached) with ⟨hd, hnone⟩ | ⟨more', hrun', hmore', -⟩
      · exact Or.inl ⟨Nat.lt_of_lt_of_le hd (Nat.le_max_right depth depth'),
          (Run.andThen_of_ok hrun (k d)).trans hnone⟩
      refine Or.inr ⟨more' ++ more, ?_, ?_, List.nil_subset _⟩
      · rw [List.append_assoc]
        exact (Run.andThen_of_ok hrun (k d)).trans hrun'
      · intro st hst
        rcases List.mem_append.mp hst with hst | hst
        · exact hmore' st hst
        · exact hmore st hst

/-- A computation that returns with a name on the stack returns without it, and the stack with the
name was pushed. -/
theorem Returns.within {x : Nat → Run (Except EvalError α)} {n : Name}
    (hx : Returns P [] (n :: stack) x y) (hn : n ∉ stack) (hP : P (n :: stack)) :
    Returns P [n :: stack] stack (fun d => (x d).within n) y := by
  obtain ⟨depth, hx⟩ := hx
  refine ⟨depth, ?_⟩
  intro d reached
  have hwithin := Run.within_of_not_mem (m := ⟨stack, reached⟩) hn (x d)
  rcases hx d ((n :: stack) :: reached) with ⟨hd, hnone⟩ | ⟨more, hrun, hmore, -⟩
  · exact Or.inl ⟨hd, hwithin.trans (congrArg (Option.map _) hnone)⟩
  refine Or.inr ⟨more ++ [n :: stack], ?_, ?_, List.subset_append_right _ _⟩
  · rw [List.append_assoc]
    exact hwithin.trans (congrArg (Option.map _) hrun)
  · intro st hst
    rcases List.mem_append.mp hst with hst | hst
    · exact hmore st hst
    · rw [List.mem_singleton.mp hst]
      exact hP

/-- A cycle is reported at every depth, and nothing is pushed. -/
theorem returns_within_of_mem {n : Name} (hn : n ∈ stack) (x : Nat → Run (Except EvalError α)) :
    Returns P [] stack (fun d => (x d).within n) (.error (.cycle n)) := by
  refine ⟨0, ?_⟩
  intro d reached
  exact Or.inr ⟨[], Run.within_of_mem hn (x d), fun _ hst => absurd hst List.not_mem_nil,
    List.nil_subset _⟩

end Returns

/-! ## Scopes within situations -/

/-- The situation gives the constants of the scope, and otherwise what another one gives. -/
def Overlay (s : Situation) (scope : Scope) (sit : Situation) : Prop :=
  ∀ n : Name, sit[n]? = (scope[n]?.map Expr.const).or s[n]?

theorem Overlay.refl (s : Situation) : Overlay s ∅ s := by
  intro n
  rw [Std.ExtTreeMap.getElem?_empty]
  rfl

theorem Overlay.insert {s sit : Situation} {scope : Scope} (h : Overlay s scope sit) (n : Name)
    (q : Quantity) : Overlay s (scope.insert n q) (sit.insert n (.const q)) := by
  intro m
  rw [Std.ExtTreeMap.getElem?_insert, Std.ExtTreeMap.getElem?_insert]
  split
  · rfl
  · exact h m

/-- Extending the situation by the overrides of a block is extending the scope by them. -/
theorem Overlay.override {s sit : Situation} {scope : Scope} (h : Overlay s scope sit)
    (xs : List (Name × Evaluation)) : Overlay s (Expr.extend scope xs) (sit.override xs) := by
  induction xs generalizing scope sit with
  | nil => exact h
  | cons o xs ih => exact ih (h.insert o.1 o.2.toQuantity)

namespace Graph

/-! ## The interpreter returns -/

section

variable {g : Graph} {s sit : Situation} {scope : Scope} {P : List Name → Prop}
  {stack names : List Name} {M : Meaning}

/-- The stack that looking up a name pushes, unless the name is there already. -/
def entered (n : Name) (stack : List Name) : List (List Name) :=
  if n ∈ stack then [] else [n :: stack]

theorem mem_entered {n : Name} {stack : List Name} (hn : n ∉ stack) :
    n :: stack ∈ entered n stack := by
  rw [entered, if_neg hn]
  exact List.mem_singleton_self _

/-- Names are looked up on the stack with the results that the meaning gives, and pushed unless they
are there already. -/
def LooksUp (g : Graph) (s : Situation) (P : List Name → Prop) (stack names : List Name)
    (M : Meaning) : Prop :=
  ∀ scope sit, Overlay s scope sit → ∀ n ∈ names,
    Returns P (entered n stack) stack (g.runRule · sit n) (M scope n)

/-- Members return the values that they have in the meaning, if each of them does. -/
theorem runMembers_returns {es : List Expr}
    (hes : ∀ e ∈ es, Returns P [] stack (g.runExpr · sit e) (e.eval M scope)) :
    Returns P [] stack (g.runMembers · sit es) (Expr.evalMembers M scope es) := by
  induction es with
  | nil =>
      refine Returns.succ rfl ?_
      simp only [runMembers]
      exact returns_pure _
  | cons e es ih =>
      obtain ⟨he, hes⟩ := List.forall_mem_cons.mp hes
      refine Returns.succ rfl ?_
      simp only [runMembers]
      exact he.andThen fun x => (ih hes).andThen fun xs => returns_pure _

/-- Overrides return the values that they have in the meaning, if each of them does. -/
theorem runOverrides_returns {os : List (Name × Expr)}
    (hos : ∀ o ∈ os, Returns P [] stack (g.runExpr · sit o.2) (o.2.eval M scope)) :
    Returns P [] stack (g.runOverrides · sit os) (Expr.evalOverrides M scope os) := by
  induction os with
  | nil =>
      refine Returns.succ rfl ?_
      simp only [runOverrides]
      exact returns_pure _
  | cons o os ih =>
      obtain ⟨n, e⟩ := o
      obtain ⟨he, hos⟩ := List.forall_mem_cons.mp hos
      refine Returns.succ rfl ?_
      simp only [runOverrides]
      exact he.andThen fun x => (ih hos).andThen fun xs => returns_pure _

theorem runExpr_const_returns (q : Quantity) :
    Returns P [] stack (g.runExpr · sit (.const q)) (.ok { q with }) := by
  refine Returns.succ rfl ?_
  simp only [runExpr]
  exact returns_pure _

/-- If the names that it refers to are looked up as the meaning says, an expression returns its
value in the meaning. -/
theorem runExpr_returns {e : Expr} (hM : g.LooksUp s P stack names M) (hsit : Overlay s scope sit)
    (he : ∀ n ∈ e.references, n ∈ names) :
    Returns P [] stack (g.runExpr · sit e) (e.eval M scope) := by
  induction e generalizing scope sit with
  | ref n =>
      refine Returns.succ rfl ?_
      simp only [runExpr]
      exact (hM scope sit hsit n (he n (List.mem_singleton_self n))).weaken
  | const q => exact runExpr_const_returns q
  | op o l r ihl ihr =>
      obtain ⟨hl, hr⟩ := List.forall_mem_append.mp he
      refine Returns.succ rfl ?_
      simp only [runExpr]
      exact (ihl hsit hl).andThen fun x => (ihr hsit hr).andThen fun y => returns_pure _
  | cond c t e ihc iht ihe =>
      obtain ⟨hct, he⟩ := List.forall_mem_append.mp he
      obtain ⟨hc, ht⟩ := List.forall_mem_append.mp hct
      refine Returns.succ rfl ?_
      simp only [runExpr]
      refine (ihc hsit hc).andThen fun x => ?_
      split
      · exact (iht hsit ht).andThen fun y => returns_pure _
      · exact (ihe hsit he).andThen fun y => returns_pure _
  | applicable c v ihc ihv =>
      obtain ⟨hc, hv⟩ := List.forall_mem_append.mp he
      refine Returns.succ rfl ?_
      simp only [runExpr]
      refine (ihc hsit hc).andThen fun x => ?_
      split
      · exact (ihv hsit hv).andThen fun y => returns_pure _
      · exact returns_pure _
  | notApplicable c v ihc ihv =>
      obtain ⟨hc, hv⟩ := List.forall_mem_append.mp he
      refine Returns.succ rfl ?_
      simp only [runExpr]
      refine (ihc hsit hc).andThen fun x => ?_
      split
      · exact returns_pure _
      · exact (ihv hsit hv).andThen fun y => returns_pure _
  | all es ih | any es ih =>
      rw [Expr.references, Expr.memberReferences_eq] at he
      refine Returns.succ rfl ?_
      simp only [runExpr]
      refine (runMembers_returns fun e he' => ?_).andThen fun xs => returns_pure _
      exact ih e he' hsit fun n hn => he n (List.mem_flatMap.mpr ⟨e, he', hn⟩)
  | contextual e os ihe ihos =>
      obtain ⟨he, hos⟩ := List.forall_mem_append.mp he
      rw [Expr.overrideReferences_eq] at hos
      refine Returns.succ rfl ?_
      simp only [runExpr]
      refine (runOverrides_returns fun o ho => ?_).andThen fun xs => ?_
      · exact ihos o ho hsit fun n hn => hos n (List.mem_flatMap.mpr ⟨o, ho, hn⟩)
      · -- within the block the overrides are constants of the situation, and values of the scope
        exact (ihe (hsit.override xs) he).andThen fun y => returns_pure _

/-- If the names that its body refers to are looked up as the meaning says, so is a rule. -/
theorem runBody_returns {r : Rule} (hM : g.LooksUp s P stack names M) (hsit : Overlay s scope sit)
    (hr : ∀ e, r.body = some e → ∀ n ∈ e.references, n ∈ names) :
    Returns P [] stack (g.runBody · sit r) (r.evalBody M scope) := by
  refine Returns.succ rfl ?_
  simp only [runBody]
  refine Returns.andThen ?_ fun y => returns_pure _
  cases hbody : r.body with
  | none => exact returns_pure _
  | some e => exact runExpr_returns hM hsit (hr e hbody)

end

/-- The names that have a body, and those that the situation, a value or a default refers to. -/
def mentioned (g : Graph) (s : Situation) : List Name :=
  g.bound s ++ s.toList.flatMap (fun o => o.2.references) ++
    g.rules.flatMap fun r => (r.expr.toList ++ r.default.toList).flatMap Expr.references

/-- What the expression of a name refers to is mentioned. -/
theorem mem_mentioned_of_active {g : Graph} {s : Situation} {n d : Name} {e : Expr}
    (h : g.active s n = some e) (hd : d ∈ e.references) : d ∈ g.mentioned s := by
  cases hs : s[n]? with
  | some e' =>
      rw [active_of_situation hs] at h
      cases h
      refine List.mem_append_left _ (List.mem_append_right _ (List.mem_flatMap.mpr ?_))
      exact ⟨(n, e), Std.ExtTreeMap.mem_toList_iff_getElem?_eq_some.mpr hs, hd⟩
  | none =>
      cases hr : g.get? n with
      | none =>
          rw [active, hs, hr] at h
          cases h
      | some r =>
          rw [active_of_rule hs hr, Rule.body] at h
          refine List.mem_append_right _ (List.mem_flatMap.mpr ⟨r, mem_of_get? hr, ?_⟩)
          refine List.mem_flatMap.mpr ⟨e, List.mem_append.mpr ?_, hd⟩
          split at h
          · exact Or.inr (Option.mem_toList.mpr h)
          · exact Or.inl (Option.mem_toList.mpr h)

section

variable {g : Graph} {s : Situation} {P : List Name → Prop} {stack names : List Name}

/-- Names are looked up as the recursion over meanings does, with any property of stacks that
pushing a name keeps. -/
theorem runRule_returns (hnames : ∀ d ∈ g.mentioned s, d ∈ names)
    (hpush : ∀ st, P st → ∀ n ∈ names, n ∉ st → P (n :: st)) (hP : P stack) :
    g.LooksUp s P stack names (g.meaning s stack) := by
  induction stack using stack_induction g s with
  | step stack ih =>
      intro scope sit hsit n hn
      refine Returns.succ rfl ?_
      simp only [runRule]
      by_cases hmem : n ∈ stack
      · rw [entered, if_pos hmem, meaning_of_mem hmem]
        exact returns_within_of_mem hmem _
      have hpushed : P (n :: stack) := hpush stack hP n hn hmem
      have hactive : ∀ e, g.active s n = some e → ∀ d ∈ e.references, d ∈ names :=
        fun e he d hd => hnames d (mem_mentioned_of_active he hd)
      rw [entered, if_neg hmem]
      refine Returns.within ?_ hmem hpushed
      rw [hsit n]
      cases hq : scope[n]? with
      | some q =>
          rw [meaning_of_scope hmem hq]
          exact runExpr_const_returns q
      | none =>
          cases hs : s[n]? with
          | some e =>
              rw [meaning_of_situation hmem hq hs]
              exact runExpr_returns (ih n hmem (mem_bound_of_situation hs) hpushed) hsit
                (hactive e (active_of_situation hs))
          | none =>
              cases hr : g.get? n with
              | some r =>
                  rw [meaning_of_rule hmem hq hs hr]
                  refine runBody_returns (ih n hmem (mem_bound_of_rule hr) hpushed) hsit ?_
                  exact fun e he => hactive e ((active_of_rule hs hr).trans he)
              | none =>
                  rw [meaning_of_none hmem hq hs hr]
                  exact returns_pure _

end

/-- The stack has distinct names of the list on top of another stack, which has none of them. -/
def Tops (names base st : List Name) : Prop :=
  ∃ new, st = new ++ base ∧ new.Nodup ∧ new.Disjoint base ∧ ∀ p ∈ new, p ∈ names

/-- One more name can be pushed, if it is one of the list that is not on the stack. -/
theorem Tops.push {names base st : List Name} (h : Tops names base st) (n : Name) (hn : n ∈ names)
    (hst : n ∉ st) : Tops names base (n :: st) := by
  obtain ⟨new, rfl, hnodup, hdisjoint, hnew⟩ := h
  obtain ⟨hn', hbase⟩ := not_or.mp (mt List.mem_append.mpr hst)
  refine ⟨n :: new, rfl, List.nodup_cons.mpr ⟨hn', hnodup⟩, ?_, ?_⟩
  · exact List.disjoint_cons_left.mpr ⟨hbase, hdisjoint⟩
  · exact List.forall_mem_cons.mpr ⟨hn, hnew⟩

theorem tops_self (names base : List Name) : Tops names base base :=
  ⟨[], rfl, List.nodup_nil, List.disjoint_nil_left base, fun _ hp => absurd hp List.not_mem_nil⟩

/-- Interpretation is total.  Looking up any name in any situation and from any stack gives up only
below some depth.  Otherwise it returns what the recursion over meanings gives, be it a value or an
error, and leaves the stack as it was; meanwhile distinct names that were not on the stack are on
top of it, and the name itself was pushed unless it was there already.  Therefore an evaluation
returns on any interpreter, after the name alone was on its stack, and with names on it that are
pairwise distinct and, the one asked for apart, mentioned by the graph or the situation that it was
started in. -/
theorem interpretation_total (g : Graph) (s : Situation) (n : Name) :
    (∀ stack, ∃ depth, ∀ d reached,
      (d < depth ∧ g.runRule d s n ⟨stack, reached⟩ = none) ∨ ∃ more,
        g.runRule d s n ⟨stack, reached⟩ =
          some (g.meaning s stack ∅ n, ⟨stack, more ++ reached⟩) ∧
        (∀ st ∈ more, Tops (n :: g.mentioned s) stack st) ∧ (n ∉ stack → n :: stack ∈ more)) ∧
    ∃ depth, ∀ d ≥ depth, ∀ m, ∃ more,
      g.interpret d n s m = some (g.evaluate n s, ⟨[], more ++ m.reached⟩) ∧ [n] ∈ more ∧
      ∀ st ∈ more, st.Nodup ∧ ∀ p ∈ st, p = n ∨ p ∈ g.mentioned s := by
  have hreturns : ∀ stack, Returns (Tops (n :: g.mentioned s) stack) (entered n stack) stack
      (g.runRule · s n) (g.meaning s stack ∅ n) := by
    intro stack
    have hmentioned : ∀ d ∈ g.mentioned s, d ∈ n :: g.mentioned s :=
      fun d hd => List.mem_cons_of_mem n hd
    have hlooksUp := runRule_returns hmentioned (fun st => Tops.push) (tops_self _ stack)
    exact hlooksUp ∅ s (Overlay.refl s) n List.mem_cons_self
  refine ⟨?_, ?_⟩
  · intro stack
    obtain ⟨depth, hreturns⟩ := hreturns stack
    refine ⟨depth, fun d reached => (hreturns d reached).imp_right ?_⟩
    rintro ⟨more, hrun, hmore, hentered⟩
    exact ⟨more, hrun, hmore, fun hn => hentered (mem_entered hn)⟩
  obtain ⟨depth, hreturns⟩ := hreturns []
  refine ⟨depth, ?_⟩
  intro d hd m
  rcases hreturns d m.reached with ⟨hlt, -⟩ | ⟨more, hrun, hmore, hentered⟩
  · exact absurd hlt (Nat.not_lt_of_le hd)
  refine ⟨more, hrun, hentered (mem_entered List.not_mem_nil), ?_⟩
  intro st hst
  obtain ⟨new, rfl, hnodup, -, hnew⟩ := hmore st hst
  rw [List.append_nil]
  exact ⟨hnodup, fun p hp => List.mem_cons.mp (hnew p hp)⟩

end Graph

end RuleGraph
