import RuleGraph.Interpreter
import RuleGraph.Proofs.Substitution

/-! # Comparing evaluations

    An expression is evaluated twice, with different meanings for its references
    and below different scopes.  `Follows` says what the first evaluation tells
    about the second: whenever the first one succeeds, and missed allowed inputs
    only, the second one gives the same evaluation or fails with an error that
    is tolerated.  It is enough to know this of the references: evaluating an
    expression, and with it the body of a rule, hands it on (`eval_follows`).

    Apart from that, evaluating with a constant substituted for a name is
    evaluating with that name standing for the constant (`eval_subst`). -/

namespace RuleGraph

/-- A computation in two parts returns only if both parts do. -/
theorem exists_ok_of_bind {α β : Type} {x : Except EvalError α} {k : α → Except EvalError β} {b : β}
    (h : (x >>= k) = .ok b) : ∃ a, x = .ok a ∧ k a = .ok b := by
  cases x with
  | error e => cases h
  | ok a => exact ⟨a, rfl, h⟩

/-! ## Results that follow others -/

/-- If the first result is a clear value, the second one is the same value or a tolerated error. -/
def Follows {α : Type} (clear : α → Prop) (tolerated : EvalError → Prop)
    (x x' : Except EvalError α) : Prop :=
  ∀ a, x = .ok a → clear a → x' = .ok a ∨ ∃ e, x' = .error e ∧ tolerated e

namespace Follows

variable {α β : Type} {clear : α → Prop} {clear' : β → Prop} {tolerated : EvalError → Prop}
  {x x' : Except EvalError α}

theorem refl (x : Except EvalError α) : Follows clear tolerated x x :=
  fun _ h _ => Or.inl h

theorem of_error {e : EvalError} : Follows clear tolerated (.error e) x' :=
  fun _ h => nomatch h

theorem of_tolerated {e : EvalError} (h : tolerated e) : Follows clear tolerated x (.error e) :=
  fun _ _ _ => Or.inr ⟨e, rfl, h⟩

/-- A computation that goes on with a result follows another if both of its parts do.  What comes
out clear must have come from something clear. -/
theorem bind {k k' : α → Except EvalError β} (hx : Follows clear tolerated x x')
    (hk : ∀ a, x = .ok a → Follows clear' tolerated (k a) (k' a))
    (hclear : ∀ a b, k a = .ok b → clear' b → clear a) :
    Follows clear' tolerated (x >>= k) (x' >>= k') := by
  intro b hb hb'
  cases x with
  | error e => cases hb
  | ok a =>
      rcases hx a rfl (hclear a b hb hb') with rfl | ⟨e, rfl, he⟩
      · exact hk a rfl b hb hb'
      · exact Or.inr ⟨e, rfl, he⟩

/-- What is computed from a result follows in the same way, if it is clear only for clear
results. -/
theorem map {f : α → β} (hx : Follows clear tolerated x x')
    (hclear : ∀ a, clear' (f a) → clear a) :
    Follows clear' tolerated (x >>= fun a => .ok (f a)) (x' >>= fun a => .ok (f a)) := by
  refine hx.bind (fun a _ => refl _) ?_
  rintro a b ⟨⟩ hb
  exact hclear a hb

end Follows

/-! ## The inputs that were missed -/

namespace Evaluation

/-- Only allowed inputs were missed. -/
def Within (allowed : Name → Prop) (y : Evaluation) : Prop := ∀ n ∈ y.missing, allowed n

variable {allowed : Name → Prop} {x y z : Evaluation}

/-- An evaluation that takes over from another one has missed what either of them missed. -/
theorem within_absorb : (y.absorb x).Within allowed ↔ y.Within allowed ∧ x.Within allowed := by
  simp only [Within, absorb, Std.ExtTreeSet.mem_union_iff, or_imp, forall_and]

theorem within_absorbAll {xs : List Evaluation} :
    (y.absorbAll xs).Within allowed ↔ y.Within allowed ∧ ∀ x ∈ xs, x.Within allowed := by
  induction xs generalizing y with
  | nil => simp [absorbAll]
  | cons x xs ih =>
      show ((y.absorb x).absorbAll xs).Within allowed ↔ _
      rw [ih, within_absorb, List.forall_mem_cons, and_assoc]

theorem within_evalApplied :
    (Expr.evalApplied x y).Within allowed ↔ y.Within allowed ∧ x.Within allowed :=
  within_absorb

/-- An operator has missed what its operands missed. -/
theorem within_of_evalOp {o : Operator} (h : Expr.evalOp o x y = .ok z)
    (hz : z.Within allowed) : x.Within allowed ∧ y.Within allowed := by
  rw [Expr.evalOp] at h
  split at h
  · cases h
  · cases h
    rw [within_absorb, within_absorb] at hz
    exact ⟨hz.1.2, hz.2⟩

end Evaluation

namespace Expr

/-! ## Evaluating twice -/

variable {allowed : Name → Prop} {tolerated : EvalError → Prop} {m m' : Meaning}
  {scope scope' : Scope}

/-- One evaluation of an expression follows another one of the same expression. -/
abbrev EvalFollows (allowed : Name → Prop) (tolerated : EvalError → Prop) (m m' : Meaning)
    (scope scope' : Scope) (e : Expr) : Prop :=
  Follows (Evaluation.Within allowed) tolerated (eval m scope e) (eval m' scope' e)

/-! ### One node -/

/-- An operation follows if both operands do. -/
theorem evalFollows_op {o : Operator} {l r : Expr}
    (hl : EvalFollows allowed tolerated m m' scope scope' l)
    (hr : EvalFollows allowed tolerated m m' scope scope' r) :
    EvalFollows allowed tolerated m m' scope scope' (op o l r) := by
  refine hl.bind (fun x _ => hr.bind (fun y _ => Follows.refl _) ?_) ?_
  · intro y z hok hz
    exact (Evaluation.within_of_evalOp hok hz).2
  · intro x z hok hz
    obtain ⟨y, -, hok⟩ := exists_ok_of_bind hok
    exact (Evaluation.within_of_evalOp hok hz).1

/-- A conditional follows if its condition and both of its branches do. -/
theorem evalFollows_cond {c t e : Expr}
    (hc : EvalFollows allowed tolerated m m' scope scope' c)
    (ht : EvalFollows allowed tolerated m m' scope scope' t)
    (he : EvalFollows allowed tolerated m m' scope scope' e) :
    EvalFollows allowed tolerated m m' scope scope' (cond c t e) := by
  refine hc.bind ?_ ?_
  · intro x _
    split
    · exact ht.map fun y hy => (Evaluation.within_absorb.mp hy).1
    · exact he.map fun y hy => (Evaluation.within_absorb.mp hy).1
  · intro x z hok hz
    split at hok
    · obtain ⟨y, -, ⟨⟩⟩ := exists_ok_of_bind hok
      exact (Evaluation.within_absorb.mp hz).2
    · obtain ⟨y, -, ⟨⟩⟩ := exists_ok_of_bind hok
      exact (Evaluation.within_absorb.mp hz).2

/-- An applicability follows if its condition and its value do. -/
theorem evalFollows_applicable {c v : Expr}
    (hc : EvalFollows allowed tolerated m m' scope scope' c)
    (hv : EvalFollows allowed tolerated m m' scope scope' v) :
    EvalFollows allowed tolerated m m' scope scope' (applicable c v) := by
  refine hc.bind ?_ ?_
  · intro x _
    split
    · exact hv.map fun y hy => (Evaluation.within_evalApplied.mp hy).1
    · exact Follows.refl _
  · intro x z hok hz
    split at hok
    · obtain ⟨y, -, ⟨⟩⟩ := exists_ok_of_bind hok
      exact (Evaluation.within_evalApplied.mp hz).2
    · cases hok
      exact (Evaluation.within_evalApplied.mp hz).2

theorem evalFollows_notApplicable {c v : Expr}
    (hc : EvalFollows allowed tolerated m m' scope scope' c)
    (hv : EvalFollows allowed tolerated m m' scope scope' v) :
    EvalFollows allowed tolerated m m' scope scope' (notApplicable c v) := by
  refine hc.bind ?_ ?_
  · intro x _
    split
    · exact Follows.refl _
    · exact hv.map fun y hy => (Evaluation.within_evalApplied.mp hy).1
  · intro x z hok hz
    split at hok
    · cases hok
      exact (Evaluation.within_evalApplied.mp hz).2
    · obtain ⟨y, -, ⟨⟩⟩ := exists_ok_of_bind hok
      exact (Evaluation.within_evalApplied.mp hz).2

/-! ### Members and overrides -/

/-- A list of members follows if all members do. -/
theorem evalMembers_follows {es : List Expr}
    (h : ∀ e ∈ es, EvalFollows allowed tolerated m m' scope scope' e) :
    Follows (fun xs => ∀ x ∈ xs, x.Within allowed) tolerated (evalMembers m scope es)
      (evalMembers m' scope' es) := by
  induction es with
  | nil => exact Follows.refl _
  | cons e es ih =>
      obtain ⟨he, hes⟩ := List.forall_mem_cons.mp h
      refine he.bind (fun x _ => (ih hes).map fun xs hxs => (List.forall_mem_cons.mp hxs).2) ?_
      intro x xs hok hxs
      obtain ⟨_, -, ⟨⟩⟩ := exists_ok_of_bind hok
      exact (List.forall_mem_cons.mp hxs).1

/-- Overrides follow if their values do. -/
theorem evalOverrides_follows {os : List (Name × Expr)}
    (h : ∀ o ∈ os, EvalFollows allowed tolerated m m' scope scope' o.2) :
    Follows (fun xs => ∀ x ∈ xs.map Prod.snd, x.Within allowed) tolerated
      (evalOverrides m scope os) (evalOverrides m' scope' os) := by
  induction os with
  | nil => exact Follows.refl _
  | cons o os ih =>
      obtain ⟨n, e⟩ := o
      obtain ⟨he, hos⟩ := List.forall_mem_cons.mp h
      refine he.bind (fun x _ => (ih hos).map fun xs hxs => (List.forall_mem_cons.mp hxs).2) ?_
      intro x xs hok hxs
      obtain ⟨_, -, ⟨⟩⟩ := exists_ok_of_bind hok
      exact (List.forall_mem_cons.mp hxs).1

/-- Evaluated overrides have the names that they had before. -/
theorem map_fst_of_evalOverrides {os : List (Name × Expr)} {xs : List (Name × Evaluation)}
    (h : evalOverrides m scope os = .ok xs) : xs.map Prod.fst = os.map Prod.fst := by
  induction os generalizing xs with
  | nil =>
      cases h
      rfl
  | cons o os ih =>
      obtain ⟨n, e⟩ := o
      obtain ⟨x, -, h⟩ := exists_ok_of_bind h
      obtain ⟨xs, hxs, ⟨⟩⟩ := exists_ok_of_bind h
      rw [List.map_cons, List.map_cons, ih hxs]

/-! ### Whole expressions -/

/-- Overriding the same names in the same way keeps scopes related. -/
theorem extend_related {related : Scope → Scope → Prop} {overridable : Name → Prop}
    (hinsert : ∀ {scope scope' n q}, overridable n → related scope scope' →
      related (scope.insert n q) (scope'.insert n q))
    {xs : List (Name × Evaluation)} (hxs : ∀ n ∈ xs.map Prod.fst, overridable n)
    (h : related scope scope') : related (extend scope xs) (extend scope' xs) := by
  induction xs generalizing scope scope' with
  | nil => exact h
  | cons x xs ih =>
      obtain ⟨hx, hxs⟩ := List.forall_mem_cons.mp hxs
      exact ih hxs (hinsert hx h)

/-- Below related scopes an evaluation follows another one, if every reference to a name that the
expression may refer to does, and overriding what it overrides keeps scopes related. -/
theorem eval_follows (related : Scope → Scope → Prop) (overridable referable : Name → Prop)
    (hinsert : ∀ {scope scope' n q}, overridable n → related scope scope' →
      related (scope.insert n q) (scope'.insert n q))
    (href : ∀ {scope scope' n}, referable n → related scope scope' →
      Follows (Evaluation.Within allowed) tolerated (m scope n) (m' scope' n))
    {e : Expr} (hover : ∀ n ∈ e.overrides, overridable n)
    (hrefs : ∀ n ∈ e.references, referable n) (h : related scope scope') :
    EvalFollows allowed tolerated m m' scope scope' e := by
  induction e generalizing scope scope' with
  | ref n => exact href (hrefs n (List.mem_singleton_self n)) h
  | const q => exact Follows.refl _
  | op o l r ihl ihr =>
      rw [overrides, blocks, List.flatten_append, List.forall_mem_append] at hover
      rw [references, List.forall_mem_append] at hrefs
      exact evalFollows_op (ihl hover.1 hrefs.1 h) (ihr hover.2 hrefs.2 h)
  | cond c t e ihc iht ihe =>
      rw [overrides, blocks, List.flatten_append, List.flatten_append, List.forall_mem_append,
        List.forall_mem_append] at hover
      rw [references, List.forall_mem_append, List.forall_mem_append] at hrefs
      exact evalFollows_cond (ihc hover.1.1 hrefs.1.1 h) (iht hover.1.2 hrefs.1.2 h)
        (ihe hover.2 hrefs.2 h)
  | applicable c v ihc ihv =>
      rw [overrides, blocks, List.flatten_append, List.forall_mem_append] at hover
      rw [references, List.forall_mem_append] at hrefs
      exact evalFollows_applicable (ihc hover.1 hrefs.1 h) (ihv hover.2 hrefs.2 h)
  | notApplicable c v ihc ihv =>
      rw [overrides, blocks, List.flatten_append, List.forall_mem_append] at hover
      rw [references, List.forall_mem_append] at hrefs
      exact evalFollows_notApplicable (ihc hover.1 hrefs.1 h) (ihv hover.2 hrefs.2 h)
  | all es ih | any es ih =>
      rw [references, memberReferences_eq] at hrefs
      have hes : ∀ e ∈ es, EvalFollows allowed tolerated m m' scope scope' e := fun e he =>
        ih e he (fun n hn => hover n (mem_overrides_all.mpr ⟨e, he, hn⟩))
          (fun n hn => hrefs n (List.mem_flatMap.mpr ⟨e, he, hn⟩)) h
      exact (evalMembers_follows hes).map fun xs hxs => (Evaluation.within_absorbAll.mp hxs).2
  | contextual e os ihe ihos =>
      rw [references, overrideReferences_eq, List.forall_mem_append] at hrefs
      have hos : ∀ o ∈ os, EvalFollows allowed tolerated m m' scope scope' o.2 := fun o ho =>
        ihos o ho (fun n hn => hover n (mem_overrides_contextual.mpr (Or.inr (Or.inl ⟨o, ho, hn⟩))))
          (fun n hn => hrefs.2 n (List.mem_flatMap.mpr ⟨o, ho, hn⟩)) h
      refine (evalOverrides_follows hos).bind ?_ ?_
      · -- the block is evaluated below the scopes that the overrides extend, which are related
        intro xs hxs
        have hnames : ∀ n ∈ xs.map Prod.fst, overridable n := by
          rw [map_fst_of_evalOverrides hxs]
          exact fun n hn => hover n (mem_overrides_contextual.mpr (Or.inl hn))
        have he := ihe (fun n hn => hover n (mem_overrides_contextual.mpr (Or.inr (Or.inr hn))))
          hrefs.1 (extend_related hinsert hnames h)
        exact he.map fun y hy => (Evaluation.within_absorbAll.mp hy).1
      · intro xs z hok hz
        obtain ⟨y, -, ⟨⟩⟩ := exists_ok_of_bind hok
        exact (Evaluation.within_absorbAll.mp hz).2

/-! ## Evaluating a substitution -/

/-- The meaning in which a name stands for a constant. -/
def standFor (target : Name) (q : Quantity) (m : Meaning) : Meaning := fun scope n =>
  if n = target then .ok { q with } else m scope n

theorem evalMembers_subst {target : Name} {q : Quantity} {es : List Expr}
    (h : ∀ e ∈ es, ∀ scope, eval m scope (subst target (const q) e) =
      eval (standFor target q m) scope e) :
    evalMembers m scope (substMembers target (const q) es) =
      evalMembers (standFor target q m) scope es := by
  induction es with
  | nil => rfl
  | cons e es ih =>
      obtain ⟨he, hes⟩ := List.forall_mem_cons.mp h
      rw [substMembers, evalMembers, evalMembers, he, ih hes]

theorem evalOverrides_subst {target : Name} {q : Quantity} {os : List (Name × Expr)}
    (h : ∀ o ∈ os, ∀ scope, eval m scope (subst target (const q) o.2) =
      eval (standFor target q m) scope o.2) :
    evalOverrides m scope (substOverrides target (const q) os) =
      evalOverrides (standFor target q m) scope os := by
  induction os with
  | nil => rfl
  | cons o os ih =>
      obtain ⟨n, e⟩ := o
      obtain ⟨he, hos⟩ := List.forall_mem_cons.mp h
      rw [substOverrides, evalOverrides, evalOverrides, he, ih hos]

/-- Evaluating an expression with a constant filled in is evaluating it where the name stands for
the constant. -/
theorem eval_subst (target : Name) (q : Quantity) (m : Meaning) (scope : Scope) (e : Expr) :
    eval m scope (subst target (const q) e) = eval (standFor target q m) scope e := by
  induction e generalizing scope with
  | ref n =>
      rw [subst, eval, standFor]
      by_cases hn : n = target
      · rw [if_pos hn, if_pos hn, eval]
      · rw [if_neg hn, if_neg hn, eval]
  | const q' => rfl
  | op o l r ihl ihr => rw [subst, eval, eval, ihl, ihr]
  | cond c t e ihc iht ihe => rw [subst, eval, eval, ihc, iht, ihe]
  | applicable c v ihc ihv => rw [subst, eval, eval, ihc, ihv]
  | notApplicable c v ihc ihv => rw [subst, eval, eval, ihc, ihv]
  | all es ih => rw [subst, eval, eval, evalMembers_subst ih]
  | any es ih => rw [subst, eval, eval, evalMembers_subst ih]
  | contextual e os ihe ihos =>
      rw [subst, eval, eval, evalOverrides_subst ihos]
      simp only [ihe]

end Expr

namespace Rule

variable {r : Rule} {allowed : Name → Prop} {tolerated : EvalError → Prop} {m m' : Meaning}
  {scope scope' : Scope}

theorem mem_exprs_of_body {e : Expr} (he : r.body = some e) : e ∈ r.exprs := by
  rw [body] at he
  split at he
  · exact List.mem_append_right _ (Option.mem_toList.mpr he)
  · exact List.mem_append_left _ (Option.mem_toList.mpr he)

theorem mem_references_of_body {e : Expr} {d : Name} (he : r.body = some e)
    (hd : d ∈ e.references) : d ∈ r.references :=
  List.mem_flatMap.mpr ⟨e, mem_exprs_of_body he, hd⟩

/-- A rule follows if its body does. -/
theorem evalBody_follows
    (h : ∀ e, r.body = some e → Expr.EvalFollows allowed tolerated m m' scope scope' e) :
    Follows (Evaluation.Within allowed) tolerated (r.evalBody m scope)
      (r.evalBody m' scope') := by
  have hbody : Follows (Evaluation.Within allowed) tolerated
      (Expr.evalOption m scope r.body) (Expr.evalOption m' scope' r.body) := by
    cases hb : r.body with
    | none => exact Follows.refl _
    | some e => exact h e hb
  refine hbody.map ?_
  intro y hy
  split at hy
  · exact fun n hn => hy n (Std.ExtTreeSet.mem_insert.mpr (Or.inr hn))
  · exact hy

/-- A rule that the user is asked for reports itself as missing. -/
theorem mem_missing_of_isAsked {y : Evaluation} (h : r.isAsked = true)
    (hy : r.evalBody m scope = .ok y) : r.name ∈ y.missing := by
  obtain ⟨x, -, hx⟩ := exists_ok_of_bind hy
  cases hx
  rw [if_pos h]
  exact Std.ExtTreeSet.mem_insert_self

theorem isAsked_subst (r : Rule) (target : Name) (value : Expr) :
    (r.subst target value).isAsked = r.isAsked := by
  simp [isAsked, isInput, isChoice, subst]

/-- The body of a rule in which a name was replaced is the body with the name replaced. -/
theorem body_subst (r : Rule) (target : Name) (value : Expr) :
    (r.subst target value).body = r.body.map (Expr.subst target value) := by
  rw [body, isAsked_subst, body]
  split
  · rfl
  · rfl

/-- Evaluating a rule with a constant filled in is evaluating it where the name stands for the
constant. -/
theorem evalBody_subst (r : Rule) (target : Name) (q : Quantity) (m : Meaning) (scope : Scope) :
    (r.subst target (.const q)).evalBody m scope =
      r.evalBody (Expr.standFor target q m) scope := by
  rw [evalBody, evalBody, isAsked_subst, body_subst]
  cases r.body with
  | none => rfl
  | some e =>
      rw [Option.map_some, Expr.evalOption, Expr.evalOption, Expr.eval_subst]
      rfl

end Rule

end RuleGraph
