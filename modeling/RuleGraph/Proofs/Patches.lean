import RuleGraph.Proofs.Meaning

/-! # Situations as patches

    A situation gives names values for the time of an evaluation.  The same can
    be had by changing the graph: where every name that is given has a rule that
    consists of the value alone, the situation is not needed any more.  The
    patched graph exists if the texts of these names are not in use for other
    names, for two rules of a graph cannot share a text. -/

namespace RuleGraph

/-! ## Rules that are only a value -/

/-- The rule that has a value and nothing else. -/
def Rule.given (n : Name) (e : Expr) : Rule := Rule.withValue { name := n } e

/-- A rule that is only a value evaluates to it. -/
theorem Rule.evalBody_given (n : Name) (e : Expr) (m : Meaning) (scope : Scope) :
    (Rule.given n e).evalBody m scope = e.eval m scope := by
  show (e.eval m scope >>= fun y => pure y) = _
  rw [bind_pure]

namespace Graph

variable {g g' : Graph} {s : Situation} {n : Name}

/-! ## Patching a graph -/

/-- The graph with the rule of every name that is given replaced, or added, as the given value. -/
def patch (g : Graph) (s : Situation) : Except Error Graph :=
  (s.toList.map fun o => Rule.given o.1 o.2).foldlM insert (s.keys.foldl erase g)

/-- No other name, of a rule or given, has the text of a name that is given. -/
def Distinguishes (g : Graph) (s : Situation) : Prop :=
  ∀ c ∈ s.keys, ∀ n ∈ g.bound s, n.text = c.text → n = c

instance (g : Graph) (s : Situation) : Decidable (g.Distinguishes s) :=
  inferInstanceAs (Decidable (∀ c ∈ s.keys, ∀ n ∈ g.bound s, n.text = c.text → n = c))

/-- After names were removed, the rules of the other names are left. -/
theorem mem_rules_foldl_erase {names : List Name} {r : Rule} :
    r ∈ (names.foldl erase g).rules ↔ r ∈ g.rules ∧ r.name ∉ names := by
  induction names generalizing g with
  | nil => simp
  | cons n names ih =>
      rw [List.foldl_cons, ih, erase]
      simp [and_assoc]

theorem mem_keys_of_mem_toList {o : Name × Expr} (h : o ∈ s.toList) : o.1 ∈ s.keys := by
  rw [← Std.ExtTreeMap.map_fst_toList_eq_keys]
  exact List.mem_map_of_mem h

theorem not_mem_keys (h : s[n]? = none) : n ∉ s.keys := by
  rw [Std.ExtTreeMap.mem_keys, Std.ExtTreeMap.mem_iff_isSome_getElem?, h]
  exact Bool.false_ne_true

/-- The rules that are given have different texts. -/
theorem Distinguishes.pairwise (h : g.Distinguishes s) :
    (s.toList.map fun o => Rule.given o.1 o.2).Pairwise fun r t => r.name.text ≠ t.name.text := by
  rw [List.pairwise_map]
  refine Std.ExtTreeMap.distinct_keys_toList.imp_of_mem ?_
  intro o o' ho ho' hne htext
  have hsame : o.1 = o'.1 := h o'.1 (mem_keys_of_mem_toList ho') o.1
    (List.mem_append_left _ (mem_keys_of_mem_toList ho)) htext
  exact hne (Std.compare_eq_iff_eq.mpr hsame)

/-- The rules that stay have other texts than those that are given. -/
theorem Distinguishes.fresh (h : g.Distinguishes s) :
    ∀ r ∈ s.toList.map fun o => Rule.given o.1 o.2, ∀ t ∈ (s.keys.foldl erase g).rules,
      t.name.text ≠ r.name.text := by
  intro r hr t ht htext
  obtain ⟨o, ho, rfl⟩ := List.mem_map.mp hr
  obtain ⟨ht, hkey⟩ := mem_rules_foldl_erase.mp ht
  have hbound : t.name ∈ g.bound s := mem_bound_of_rule (get?_name_of_mem ht)
  have hsame : t.name = o.1 := h o.1 (mem_keys_of_mem_toList ho) t.name hbound htext
  exact hkey (hsame ▸ mem_keys_of_mem_toList ho)

/-- A patched graph has the given rules, and under all other names the rules it had. -/
theorem patch_eq_ok (h : g.Distinguishes s) :
    ∃ g', g.patch s = .ok g' ∧ ∀ n, g'.get? n = (s[n]?.map (Rule.given n)).or (g.get? n) := by
  obtain ⟨g', hpatch, hperm⟩ := foldlM_insert_eq_ok h.pairwise h.fresh
  refine ⟨g', hpatch, ?_⟩
  intro n
  cases hs : s[n]? with
  | some e =>
      have hmem : Rule.given n e ∈ s.toList.map fun o => Rule.given o.1 o.2 :=
        List.mem_map_of_mem (Std.ExtTreeMap.mem_toList_iff_getElem?_eq_some.mpr hs)
      exact get?_name_of_mem (hperm.mem_iff.mpr (List.mem_append_left _ hmem))
  | none =>
      have hkey := not_mem_keys hs
      ext r
      show g'.get? n = some r ↔ g.get? n = some r
      rw [get?_eq_some_iff, get?_eq_some_iff, hperm.mem_iff, List.mem_append,
        mem_rules_foldl_erase]
      constructor
      · rintro ⟨hr | ⟨hr, -⟩, rfl⟩
        · obtain ⟨o, ho, rfl⟩ := List.mem_map.mp hr
          exact absurd (mem_keys_of_mem_toList ho) hkey
        · exact ⟨hr, rfl⟩
      · rintro ⟨hr, rfl⟩
        exact ⟨Or.inr ⟨hr, hkey⟩, rfl⟩

/-! ## Evaluating in a patched graph -/

/-- Names have the same meaning in a situation as under the rules that it gives. -/
theorem meaning_patch (h : ∀ n, g'.get? n = (s[n]?.map (Rule.given n)).or (g.get? n)) :
    g.meaning s = g'.meaning ∅ := by
  have hempty : ∀ n, (∅ : Situation)[n]? = none := fun _ => Std.ExtTreeMap.getElem?_empty
  funext stack
  induction stack using stack_induction g s with
  | step stack ih =>
      funext scope n
      by_cases hmem : n ∈ stack
      · rw [meaning_of_mem hmem, meaning_of_mem hmem]
      have hn := h n
      cases hq : scope[n]? with
      | some q => rw [meaning_of_scope hmem hq, meaning_of_scope hmem hq]
      | none =>
          cases hs : s[n]? with
          | some e =>
              rw [hs, Option.map_some, Option.some_or] at hn
              rw [meaning_of_situation hmem hq hs, meaning_of_rule hmem hq (hempty n) hn,
                Rule.evalBody_given, ih n hmem (mem_bound_of_situation hs)]
          | none =>
              rw [hs, Option.map_none, Option.none_or] at hn
              cases hr : g.get? n with
              | some r =>
                  rw [hr] at hn
                  rw [meaning_of_rule hmem hq hs hr, meaning_of_rule hmem hq (hempty n) hn,
                    ih n hmem (mem_bound_of_rule hr)]
              | none =>
                  rw [hr] at hn
                  rw [meaning_of_none hmem hq hs hr, meaning_of_none hmem hq (hempty n) hn]

/-- A situation acts as a patch of the graph.  If the names that it gives share their texts with no
other names, the patched graph exists, with the given values as rules and all else unchanged, and
every rule has the same evaluation there without the situation, or fails with the same error. -/
theorem situation_acts_as_patch (g : Graph) (s : Situation) (h : g.Distinguishes s) :
    ∃ g', g.patch s = .ok g' ∧
      (∀ n, g'.get? n = (s[n]?.map (Rule.given n)).or (g.get? n)) ∧
      ∀ r, g.evaluate r s = g'.evaluate r := by
  obtain ⟨g', hpatch, hget⟩ := patch_eq_ok h
  refine ⟨g', hpatch, hget, ?_⟩
  intro r
  rw [evaluate, evaluate, meaning_patch hget]

/-- The price of a meal, with a tip if the service was good. -/
def meal : Graph where
  rules := [
    { name := ⟨"price", 0⟩,
      expr := some (.contextual (.any [.ref ⟨"tip", 2⟩, .ref ⟨"wine", 3⟩])
        [(⟨"wine", 3⟩, .const { value := .bool true })]) },
    { name := ⟨"service", 1⟩, question := some "Was the service good?" },
    { name := ⟨"tip", 2⟩, expr := some (.all [.ref ⟨"service", 1⟩]) },
    { name := ⟨"wine", 3⟩, expr := some (.ref ⟨"price", 0⟩) }]
  increasing := by decide

/-- The service is as good as the view, which is a question of the wine. -/
def meal.withView : Situation :=
  ((∅ : Situation).insert ⟨"service", 1⟩ (.ref ⟨"view", 4⟩)).insert ⟨"view", 4⟩ (.ref ⟨"wine", 3⟩)

/-- The service is no input in the patched graph, and the view is a new rule.  They have a value
where the price overrides the wine, and are on a cycle everywhere else. -/
theorem situation_acts_as_patch_meal :
    meal.Distinguishes meal.withView ∧
    ∃ g', meal.patch meal.withView = .ok g' ∧
      g'.get? ⟨"service", 1⟩ = some (Rule.given ⟨"service", 1⟩ (.ref ⟨"view", 4⟩)) ∧
      g'.evaluate ⟨"price", 0⟩ = .ok { value := .bool true } ∧
      g'.evaluate ⟨"tip", 2⟩ = .error (.cycle ⟨"tip", 2⟩) := by
  have hdistinct : meal.Distinguishes meal.withView := by decide +kernel
  obtain ⟨g', hpatch, hget, heval⟩ := situation_acts_as_patch meal meal.withView hdistinct
  have hservice : meal.withView[(⟨"service", 1⟩ : Name)]? = some (.ref ⟨"view", 4⟩) := rfl
  have hprice : meal.evaluate ⟨"price", 0⟩ meal.withView = .ok { value := .bool true } := by
    decide +kernel
  have htip : meal.evaluate ⟨"tip", 2⟩ meal.withView = .error (.cycle ⟨"tip", 2⟩) := by
    decide +kernel
  refine ⟨hdistinct, g', hpatch, ?_, (heval _).symm.trans hprice, (heval _).symm.trans htip⟩
  rw [hget, hservice]
  rfl

end Graph

end RuleGraph
