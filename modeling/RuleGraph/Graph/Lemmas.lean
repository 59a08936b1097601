import RuleGraph.Graph

/-! # Looking up rules after a change

What the operations on a graph do to its size and to the rules found in it. -/

namespace RuleGraph

namespace Graph

/-- A rule of the graph is the one found under its name. -/
theorem get?_name_of_mem {g : Graph} {r : Rule} (hr : r ∈ g.rules) : g.get? r.name = some r := by
  obtain ⟨rules, increasing⟩ := g
  change r ∈ rules at hr
  change rules.find? (·.name = r.name) = some r
  induction rules with
  | nil => exact nomatch hr
  | cons s rules ih =>
    obtain ⟨hs, hrules⟩ := List.pairwise_cons.mp increasing
    rcases List.mem_cons.mp hr with rfl | hr
    · exact List.find?_cons_of_pos (by simp)
    · have hne : s.name ≠ r.name := by
        intro h
        have hlt := hs r hr
        rw [h] at hlt
        exact String.lt_irrefl _ hlt
      rw [List.find?_cons_of_neg (by simpa using hne)]
      exact ih hrules hr

/-- The rule of a name is the only one with this name. -/
theorem get?_eq_some_iff {g : Graph} {n : Name} {r : Rule} :
    g.get? n = some r ↔ r ∈ g.rules ∧ r.name = n := by
  constructor
  · intro h
    exact ⟨mem_of_get? h, name_of_get? h⟩
  · rintro ⟨hr, rfl⟩
    exact get?_name_of_mem hr

/-- The names of a graph are those that it has a rule for. -/
theorem mem_names_iff {g : Graph} {n : Name} : n ∈ g.names ↔ ∃ r, g.get? n = some r := by
  constructor
  · intro hn
    obtain ⟨r, hr, rfl⟩ := List.mem_map.mp hn
    exact ⟨r, get?_name_of_mem hr⟩
  · rintro ⟨r, hr⟩
    exact mem_names_of_get? hr

/-- Rules of a graph with the same text are the same. -/
theorem eq_of_text_eq {g : Graph} {n m : Name} (hn : n ∈ g.names) (hm : m ∈ g.names)
    (h : n.text = m.text) : n = m := by
  obtain ⟨r, hr, rfl⟩ := List.mem_map.mp hn
  obtain ⟨t, ht, rfl⟩ := List.mem_map.mp hm
  obtain ⟨rules, increasing⟩ := g
  change r ∈ rules at hr
  change t ∈ rules at ht
  induction rules with
  | nil => exact absurd hr List.not_mem_nil
  | cons s rules ih =>
    obtain ⟨hs, hrules⟩ := List.pairwise_cons.mp increasing
    have hne : ∀ {u : Rule}, u ∈ rules → s.name.text ≠ u.name.text := fun hu =>
      String.ne_of_lt (hs _ hu)
    rcases List.mem_cons.mp hr with rfl | hr'
    · rcases List.mem_cons.mp ht with rfl | ht'
      · rfl
      · exact absurd h (hne ht')
    · rcases List.mem_cons.mp ht with rfl | ht'
      · exact absurd h.symm (hne hr')
      · exact ih hrules (List.mem_map_of_mem hr') (List.mem_map_of_mem ht') hr' ht'

/-- The name that is found under a text is the one in the graph that has this text. -/
theorem find?_eq_some_iff {g : Graph} {n : Name} {text : String} :
    g.find? text = some n ↔ n ∈ g.names ∧ n.text = text := by
  rw [find?, Option.map_eq_some_iff]
  constructor
  · rintro ⟨r, hr, rfl⟩
    have htext : r.name.text = text := by simpa using List.find?_some hr
    exact ⟨List.mem_map_of_mem (List.mem_of_find?_eq_some hr), htext⟩
  · rintro ⟨hn, rfl⟩
    obtain ⟨r, hr, rfl⟩ := List.mem_map.mp hn
    cases hfind : g.rules.find? (·.name.text = r.name.text) with
    | none =>
      have hne := List.find?_eq_none.mp hfind r hr
      simp at hne
    | some t =>
      have htext : t.name.text = r.name.text := by simpa using List.find?_some hfind
      have ht : t.name ∈ g.names := List.mem_map_of_mem (List.mem_of_find?_eq_some hfind)
      exact ⟨t, rfl, eq_of_text_eq ht hn htext⟩

/-! ## Adding rules -/

/-- Putting a rule in its place keeps all others, each as often as it was there. -/
theorem perm_place (r : Rule) (rules : List Rule) : (place r rules).Perm (r :: rules) := by
  induction rules with
  | nil => exact .refl _
  | cons t rules ih =>
    rw [place]
    split
    · exact .refl _
    · exact (ih.cons t).trans (.swap r t rules)

/-- A rule with a new text can be added. -/
theorem insert_eq_ok {g : Graph} {r : Rule} (h : ∀ t ∈ g.rules, t.name.text ≠ r.name.text) :
    ∃ g', g.insert r = .ok g' ∧ g'.rules.Perm (r :: g.rules) := by
  rw [insert]
  split
  · rename_i n hn
    obtain ⟨t, ht, -⟩ := Option.map_eq_some_iff.mp hn
    have htext : t.name.text = r.name.text := by
      simpa using List.find?_some ht
    exact absurd htext (h t (List.mem_of_find?_eq_some ht))
  · exact ⟨_, rfl, perm_place r g.rules⟩

/-- Rules whose texts differ from each other and from those of the graph can be added one by one. -/
theorem foldlM_insert_eq_ok {g : Graph} {rules : List Rule}
    (htexts : rules.Pairwise fun r t => r.name.text ≠ t.name.text)
    (hfresh : ∀ r ∈ rules, ∀ t ∈ g.rules, t.name.text ≠ r.name.text) :
    ∃ g', rules.foldlM insert g = .ok g' ∧ g'.rules.Perm (rules ++ g.rules) := by
  induction rules generalizing g with
  | nil => exact ⟨g, rfl, .refl _⟩
  | cons r rules ih =>
    obtain ⟨hr, htexts⟩ := List.pairwise_cons.mp htexts
    obtain ⟨g₁, hinsert, hperm⟩ := insert_eq_ok (hfresh r (List.mem_cons_self ..))
    have hfresh₁ : ∀ u ∈ rules, ∀ t ∈ g₁.rules, t.name.text ≠ u.name.text := by
      intro u hu t ht
      rcases List.mem_cons.mp (hperm.mem_iff.mp ht) with rfl | ht
      · exact hr u hu
      · exact hfresh u (List.mem_cons_of_mem r hu) t ht
    obtain ⟨g', hfold, hperm'⟩ := ih htexts hfresh₁
    refine ⟨g', ?_, (hperm'.trans (hperm.append_left rules)).trans List.perm_middle⟩
    rw [List.foldlM_cons, hinsert]
    exact hfold

/-! ## Changing rules -/

/-- After a change of all rules, a name has what its rule was changed to. -/
theorem get?_map (g : Graph) (n : Name) (f : Rule → Rule) :
    (g.map f).get? n = (g.get? n).map fun r => { f r with name := r.name } := by
  rw [get?, get?, map, List.find?_map]
  rfl

/-- After statuses were restored, a rule has the status that it records, or else its own. -/
theorem get?_restoreStatus (g : Graph) (marker : String) (n : Name) :
    (g.restoreStatus marker).get? n =
      (g.get? n).map fun r => { r with status := (r.recordedStatus marker).getD r.status } := by
  rw [restoreStatus, get?_map]

/-- Where no status was recorded, there is none to restore. -/
theorem restoreStatus_eq_self {g : Graph} {marker : String}
    (h : ∀ r ∈ g.rules, r.recordedStatus marker = none) : g.restoreStatus marker = g := by
  obtain ⟨rules, increasing⟩ := g
  have hrules : (restoreStatus ⟨rules, increasing⟩ marker).rules = rules := by
    show rules.map _ = rules
    refine (List.map_congr_left ?_).trans (List.map_id rules)
    intro r hr
    dsimp only
    rw [h r hr]
    rfl
  show Graph.mk _ _ = Graph.mk _ _
  congr 1

theorem size_map (g : Graph) (f : Rule → Rule) : (g.map f).size = g.size :=
  List.length_map ..

/-- After a rule was changed, its name has what it was changed to. -/
theorem get?_modify_self (g : Graph) (n : Name) (f : Rule → Rule) :
    (g.modify n f).get? n = (g.get? n).map fun r => { f r with name := n } := by
  rw [modify, get?_map]
  cases h : g.get? n with
  | none => rfl
  | some r =>
    rw [Option.map_some, Option.map_some, if_pos (name_of_get? h), name_of_get? h]

theorem get?_modify_of_ne {g : Graph} {n m : Name} (h : n ≠ m) (f : Rule → Rule) :
    (g.modify m f).get? n = g.get? n := by
  rw [modify, get?_map]
  cases hr : g.get? n with
  | none => rfl
  | some r =>
    have hne : r.name ≠ m := by
      rw [name_of_get? hr]
      exact h
    rw [Option.map_some, if_neg hne]

/-! ## Removing rules -/

theorem size_erase_le (g : Graph) (n : Name) : (g.erase n).size ≤ g.size :=
  List.length_filter_le ..

theorem size_erase_lt {g : Graph} {n : Name} {r : Rule} (h : g.get? n = some r) :
    (g.erase n).size < g.size := by
  refine Nat.lt_of_le_of_ne (size_erase_le g n) ?_
  intro heq
  have hall := List.length_filter_eq_length_iff.mp heq r (mem_of_get? h)
  simp [name_of_get? h] at hall

theorem get?_erase_of_ne {g : Graph} {n m : Name} (h : n ≠ m) :
    (g.erase m).get? n = g.get? n := by
  rw [get?, get?, erase, List.find?_filter]
  congr 1
  funext r
  by_cases hr : r.name = n
  · simp [hr, h]
  · simp [hr]

end Graph

end RuleGraph
