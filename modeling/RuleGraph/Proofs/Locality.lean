import RuleGraph.Proofs.Errors

/-! # Evaluation is local

    An expression asks for the meaning of its references and of nothing else
    (`eval_congr`).  So of all the rules of a graph, an evaluation reads only
    those that it comes to along references: two graphs that have these rules
    in common cannot be told apart by it, not even by its errors. -/

namespace RuleGraph

namespace Expr

variable {m m' : Meaning} {scope : Scope}

/-- Members have the same values in two meanings if each of them has. -/
theorem evalMembers_congr {es : List Expr} (h : ∀ e ∈ es, eval m scope e = eval m' scope e) :
    evalMembers m scope es = evalMembers m' scope es := by
  induction es with
  | nil => rfl
  | cons e es ih =>
      obtain ⟨he, hes⟩ := List.forall_mem_cons.mp h
      rw [evalMembers, evalMembers, he, ih hes]

theorem evalOverrides_congr {os : List (Name × Expr)}
    (h : ∀ o ∈ os, eval m scope o.2 = eval m' scope o.2) :
    evalOverrides m scope os = evalOverrides m' scope os := by
  induction os with
  | nil => rfl
  | cons o os ih =>
      obtain ⟨n, e⟩ := o
      obtain ⟨he, hos⟩ := List.forall_mem_cons.mp h
      rw [evalOverrides, evalOverrides, he, ih hos]

/-- Meanings that agree on the references of an expression give it the same value.  They have to
agree in all scopes, since a contextual block looks up its references in a scope of its own. -/
theorem eval_congr {e : Expr} (h : ∀ n ∈ e.references, ∀ scope, m scope n = m' scope n)
    (scope : Scope) : eval m scope e = eval m' scope e := by
  induction e generalizing scope with
  | ref n => exact h n (List.mem_singleton_self n) scope
  | const q => rfl
  | op o l r ihl ihr =>
      rw [references, List.forall_mem_append] at h
      rw [eval, eval, ihl h.1, ihr h.2]
  | cond c t e ihc iht ihe =>
      rw [references, List.forall_mem_append, List.forall_mem_append] at h
      rw [eval, eval, ihc h.1.1, iht h.1.2, ihe h.2]
  | applicable c v ihc ihv | notApplicable c v ihc ihv =>
      rw [references, List.forall_mem_append] at h
      rw [eval, eval, ihc h.1, ihv h.2]
  | all es ih | any es ih =>
      rw [references, memberReferences_eq] at h
      rw [eval, eval, evalMembers_congr]
      intro e he
      exact ih e he (fun n hn => h n (List.mem_flatMap.mpr ⟨e, he, hn⟩)) scope
  | contextual e os ihe ihos =>
      rw [references, List.forall_mem_append, overrideReferences_eq] at h
      have hoverrides : evalOverrides m scope os = evalOverrides m' scope os := by
        refine evalOverrides_congr ?_
        intro o ho
        exact ihos o ho (fun n hn => h.2 n (List.mem_flatMap.mpr ⟨o, ho, hn⟩)) scope
      simp only [eval, hoverrides, ihe h.1]

end Expr

/-- A rule has the same value in two meanings if its body has. -/
theorem Rule.evalBody_congr {r : Rule} {m m' : Meaning} {scope : Scope}
    (h : ∀ e, r.body = some e → e.eval m scope = e.eval m' scope) :
    r.evalBody m scope = r.evalBody m' scope := by
  rw [evalBody, evalBody]
  cases hbody : r.body with
  | none => rfl
  | some e => rw [Expr.evalOption, Expr.evalOption, h e hbody]

namespace Graph

variable {g g' : Graph} {s : Situation} {stack : List Name} {scope : Scope} {r n : Name}

/-- Two graphs give the same meaning to a name that the evaluation of `r` comes to, if they have the
same rules for all names that it comes to and that are not given. -/
theorem meaning_eq_of_comesTo
    (h : ∀ p, g.ComesTo s r p → s[p]? = none → g.get? p = g'.get? p) (hn : g.ComesTo s r n) :
    g.meaning s stack scope n = g'.meaning s stack scope n := by
  induction stack using stack_induction g s generalizing scope n with
  | step stack ih =>
      by_cases hmem : n ∈ stack
      · rw [meaning_of_mem hmem, meaning_of_mem hmem]
      -- one more reference leads to names that the evaluation comes to as well
      have hbelow : ∀ {e : Expr}, n ∈ g.bound s → g.active s n = some e →
          e.eval (g.meaning s (n :: stack)) scope = e.eval (g'.meaning s (n :: stack)) scope := by
        intro e hbound hactive
        refine Expr.eval_congr ?_ scope
        intro d hd scope'
        exact ih n hmem hbound (Relation.ReflTransGen.tail hn ⟨e, hactive, hd⟩)
      cases hq : scope[n]? with
      | some q => rw [meaning_of_scope hmem hq, meaning_of_scope hmem hq]
      | none =>
          cases hs : s[n]? with
          | some e =>
              rw [meaning_of_situation hmem hq hs, meaning_of_situation hmem hq hs]
              exact hbelow (mem_bound_of_situation hs) (active_of_situation hs)
          | none =>
              have hrules := h n hn hs
              cases hr : g.get? n with
              | none =>
                  rw [meaning_of_none hmem hq hs hr, meaning_of_none hmem hq hs (hrules ▸ hr)]
              | some t =>
                  rw [meaning_of_rule hmem hq hs hr, meaning_of_rule hmem hq hs (hrules ▸ hr)]
                  refine Rule.evalBody_congr ?_
                  intro e hbody
                  exact hbelow (mem_bound_of_rule hr) ((active_of_rule hs hr).trans hbody)

/-- The names that a name leads to: the references of the expression that it is given, or else those
of the value and the default of its rule. -/
def successors (g : Graph) (s : Situation) (p : Name) : List Name :=
  match s[p]?, g.get? p with
  | some e, _ => e.references
  | none, some r => r.references
  | none, none => []

/-- The second name can be reached from the first one. -/
def Reachable (g : Graph) (s : Situation) : Name → Name → Prop :=
  Relation.ReflTransGen fun p n => n ∈ g.successors s p

/-- What a name refers to is among its successors. -/
theorem mem_successors_of_refers {p : Name} (h : g.Refers s p n) : n ∈ g.successors s p := by
  obtain ⟨e, hactive, hn⟩ := h
  cases hs : s[p]? with
  | some e' =>
      rw [active_of_situation hs] at hactive
      cases hactive
      rw [successors, hs]
      exact hn
  | none =>
      cases hr : g.get? p with
      | none => simp [active, hs, hr] at hactive
      | some t =>
          rw [active_of_rule hs hr] at hactive
          rw [successors, hs, hr]
          exact Rule.mem_references_of_body hactive hn

/-- What one comes to along references can be reached. -/
theorem reachable_of_comesTo (h : g.ComesTo s r n) : g.Reachable s r n :=
  Relation.ReflTransGen.mono (fun _ _ => mem_successors_of_refers) _ _ h

/-- Names that lead to each other only hold all that can be reached from them. -/
theorem mem_of_reachable {names : List Name} (hr : r ∈ names)
    (hclosed : ∀ p ∈ names, ∀ d ∈ g.successors s p, d ∈ names) (h : g.Reachable s r n) :
    n ∈ names := by
  induction h with
  | refl => exact hr
  | tail _ hstep ih => exact hclosed _ ih _ hstep

/-- Evaluation sees only what is reachable: if two graphs have the same rule, or both none, for all
names that can be reached from `r` in the first one, then `r` has the same evaluation in both, or
fails with the same error. -/
theorem evaluate_eq_of_reachable (g g' : Graph) (r : Name) (s : Situation)
    (h : ∀ n, g.Reachable s r n → g.get? n = g'.get? n) : g.evaluate r s = g'.evaluate r s := by
  refine meaning_eq_of_comesTo ?_ Relation.ReflTransGen.refl
  intro p hp _
  exact h p (reachable_of_comesTo hp)

/-- A parcel whose fee is paid by weight, as the scale shows it, or by a stamp. -/
def parcel : Graph where
  rules := [
    { name := ⟨"fee", 0⟩, expr := some (.any [.ref ⟨"weight", 5⟩, .ref ⟨"stamp", 4⟩]) },
    { name := ⟨"glue", 1⟩, question := some "Is there glue?", default := some (.ref ⟨"scale", 3⟩) },
    { name := ⟨"parcel", 2⟩,
      expr := some (.contextual (.ref ⟨"fee", 0⟩) [(⟨"weight", 5⟩, .ref ⟨"scale", 3⟩)]) },
    { name := ⟨"scale", 3⟩, expr := some (.const { value := .bool false }) },
    { name := ⟨"stamp", 4⟩, expr := some (.ref ⟨"album", 7⟩) },
    { name := ⟨"weight", 5⟩, expr := some (.ref ⟨"postage", 8⟩) },
    { name := ⟨"zone", 6⟩, expr := some (.ref ⟨"parcel", 2⟩) }]
  increasing := by decide

/-- The parcel, with an album of stamps that the first one lacks and without zones. -/
def parcel.withAlbum : Graph where
  rules := { name := ⟨"album", 7⟩, expr := some (.ref ⟨"parcel", 2⟩) } ::
    parcel.rules.filter (·.name ≠ ⟨"zone", 6⟩)
  increasing := by decide

/-- A stamp that is glued on. -/
def parcel.glued : Situation := (∅ : Situation).insert ⟨"stamp", 4⟩ (.all [.ref ⟨"glue", 1⟩])

/-- The rule of the stamp is never read, so the album is not reached.  The glue is, by way of the
situation, and reported as missing. -/
theorem evaluate_eq_of_reachable_parcel :
    (∀ n, parcel.Reachable parcel.glued ⟨"parcel", 2⟩ n →
      parcel.get? n = parcel.withAlbum.get? n) ∧
    parcel.evaluate ⟨"parcel", 2⟩ parcel.glued =
      parcel.withAlbum.evaluate ⟨"parcel", 2⟩ parcel.glued ∧
    (parcel.evaluate ⟨"parcel", 2⟩ parcel.glued).toOption.any
      (fun y => y.missing.toList = [⟨"glue", 1⟩]) = true := by
  have hreach : ∀ n, parcel.Reachable parcel.glued ⟨"parcel", 2⟩ n →
      n ∈ [⟨"fee", 0⟩, ⟨"glue", 1⟩, ⟨"parcel", 2⟩, ⟨"scale", 3⟩, ⟨"stamp", 4⟩, ⟨"weight", 5⟩,
        ⟨"postage", 8⟩] :=
    fun n => mem_of_reachable (by decide) (by decide +kernel)
  have hrules : ∀ n, parcel.Reachable parcel.glued ⟨"parcel", 2⟩ n →
      parcel.get? n = parcel.withAlbum.get? n := by
    intro n hn
    have hn := hreach n hn
    simp only [List.mem_cons, List.not_mem_nil, or_false] at hn
    rcases hn with rfl | rfl | rfl | rfl | rfl | rfl | rfl
    all_goals rfl
  exact ⟨hrules, evaluate_eq_of_reachable _ _ _ _ hrules, by decide +kernel⟩

end Graph

end RuleGraph
