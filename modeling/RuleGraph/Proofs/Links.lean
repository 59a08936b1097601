import Mathlib.Logic.Relation
import RuleGraph.Links

/-! # What link maps hold

    Membership in the targets of a name, after each operation on a link map.
    Two facts about whole maps follow:

    * `transpose` holds exactly the reversed links, and none of its entries is
      empty (`Tidy`), so that the presence of an entry tells whether a name is
      the target of a link;
    * `closure` holds exactly the names that can be reached from its sources
      (`mem_closure`).  The worklist is followed once in each direction: what
      it collects can be reached, and what it has seen is closed under links
      up to the names that still wait. -/

namespace RuleGraph

namespace Links

/-! ## Targets after a change -/

theorem not_mem_targets_empty {a b : Name} : b ∉ targets ∅ a := by
  simp [targets]

/-- A new entry replaces the links of its name, and no others. -/
theorem mem_targets_insert {l : Links} {n a b : Name} {ts : NameSet} :
    b ∈ targets (l.insert n ts) a ↔ if n = a then b ∈ ts else b ∈ l.targets a := by
  rw [targets, Std.ExtTreeMap.getD_insert]
  by_cases h : n = a
  · simp [h]
  · simp [h, targets]

theorem mem_targets_erase {l : Links} {n a b : Name} :
    b ∈ targets (l.erase n) a ↔ a ≠ n ∧ b ∈ l.targets a := by
  rw [targets, Std.ExtTreeMap.getD_erase]
  by_cases h : n = a
  · simp [h]
  · simp [h, targets, Ne.symm h]

theorem mem_targets_modify_erase {l : Links} {n c a b : Name} :
    b ∈ targets (l.modify n (·.erase c)) a ↔ b ∈ l.targets a ∧ ¬(a = n ∧ b = c) := by
  rw [targets, Std.ExtTreeMap.getD_modify]
  by_cases h : n = a
  · subst h
    rw [targets, Std.ExtTreeMap.getD_eq_getD_getElem?]
    cases l[n]? with
    | none => simp
    | some ts =>
        simp only [Std.LawfulEqCmp.compare_eq_iff_eq, ↓reduceIte, Option.map_some,
          Option.getD_some, Std.ExtTreeSet.mem_erase, true_and, ne_eq]
        rw [and_comm, eq_comm]
  · simp [h, targets, Ne.symm h]

/-- Adding a link adds this one and no other. -/
theorem mem_targets_attach {l : Links} {s t a b : Name} :
    b ∈ (l.attach s t).targets a ↔ (a = s ∧ b = t) ∨ b ∈ l.targets a := by
  rw [attach, mem_targets_insert]
  by_cases h : s = a
  · subst h
    rw [if_pos rfl, Std.ExtTreeSet.mem_insert, Std.LawfulEqCmp.compare_eq_iff_eq, eq_comm]
    simp
  · rw [if_neg h]
    simp [Ne.symm h]

/-- Removing a link removes this one and no other. -/
theorem mem_targets_detach {l : Links} {s t a b : Name} :
    b ∈ (l.detach s t).targets a ↔ b ∈ l.targets a ∧ ¬(a = s ∧ b = t) := by
  rw [detach]
  split
  · rename_i hs
    have hempty : a = s → b ∉ l.targets a := by
      rintro rfl
      rw [targets, Std.ExtTreeMap.getD_eq_getD_getElem?, hs]
      exact Std.ExtTreeSet.not_mem_empty
    exact ⟨fun h => ⟨h, fun hab => hempty hab.1 h⟩, And.left⟩
  · rename_i ts hs
    have hts : l.targets s = ts := by
      rw [targets, Std.ExtTreeMap.getD_eq_getD_getElem?, hs]
      rfl
    -- whether the entry goes or stays, it holds what is left of the targets
    have hrest : ∀ x, x ∈ ts.erase t ↔ x ∈ l.targets s ∧ x ≠ t := by
      intro x
      rw [Std.ExtTreeSet.mem_erase, hts, ne_eq, Std.LawfulEqCmp.compare_eq_iff_eq, and_comm,
        eq_comm]
    dsimp only
    by_cases ha : a = s
    · subst ha
      simp only [true_and]
      rw [← hrest b]
      split
      · rename_i he
        rw [mem_targets_erase, Std.ExtTreeSet.isEmpty_iff.mp he]
        simp
      · rw [mem_targets_insert, if_pos rfl]
    · simp only [ha, false_and, not_false_eq_true, and_true]
      split
      · rw [mem_targets_erase]
        exact and_iff_right ha
      · rw [mem_targets_insert, if_neg (Ne.symm ha)]

/-! ## The opposite direction -/

/-- Entering the links of one source backwards adds these and no others. -/
theorem mem_targets_foldl_attach {source : Name} {ts : List Name} {back : Links} {a b : Name} :
    b ∈ (ts.foldl (fun back t => back.attach t source) back).targets a ↔
      (a ∈ ts ∧ b = source) ∨ b ∈ back.targets a := by
  induction ts generalizing back with
  | nil => simp
  | cons t ts ih =>
      rw [List.foldl_cons, ih, mem_targets_attach, List.mem_cons]
      constructor
      · rintro (⟨ha, hb⟩ | ⟨ha, hb⟩ | hb)
        · exact Or.inl ⟨Or.inr ha, hb⟩
        · exact Or.inl ⟨Or.inl ha, hb⟩
        · exact Or.inr hb
      · rintro (⟨ha | ha, hb⟩ | hb)
        · exact Or.inr (Or.inl ⟨ha, hb⟩)
        · exact Or.inl ⟨ha, hb⟩
        · exact Or.inr (Or.inr hb)

/-- Every link is found in one of the entries. -/
theorem mem_targets_iff {l : Links} {a b : Name} :
    b ∈ l.targets a ↔ ∃ ts, (a, ts) ∈ l.toList ∧ b ∈ ts := by
  rw [targets, Std.ExtTreeMap.getD_eq_getD_getElem?]
  simp only [Std.ExtTreeMap.mem_toList_iff_getElem?_eq_some]
  cases l[a]? with
  | none => simp
  | some ts => simp

/-- The transpose holds exactly the reversed links. -/
theorem mem_targets_transpose {l : Links} {a b : Name} :
    b ∈ l.transpose.targets a ↔ a ∈ l.targets b := by
  have hfold : ∀ (entries : List (Name × NameSet)) (back : Links),
      b ∈ (entries.foldl (fun back e =>
        e.2.foldl (fun back t => back.attach t e.1) back) back).targets a ↔
      (∃ ts, (b, ts) ∈ entries ∧ a ∈ ts) ∨ b ∈ back.targets a := by
    intro entries
    induction entries with
    | nil => simp
    | cons e entries ih =>
        intro back
        obtain ⟨source, ts⟩ := e
        rw [List.foldl_cons, ih, Std.ExtTreeSet.foldl_eq_foldl_toList, mem_targets_foldl_attach,
          Std.ExtTreeSet.mem_toList]
        simp only [List.mem_cons, Prod.mk.injEq]
        constructor
        · rintro (⟨ts', hts', ha⟩ | ⟨ha, hb⟩ | hb)
          · exact Or.inl ⟨ts', Or.inr hts', ha⟩
          · exact Or.inl ⟨ts, Or.inl ⟨hb, rfl⟩, ha⟩
          · exact Or.inr hb
        · rintro (⟨ts', ⟨hb, rfl⟩ | hts', ha⟩ | hb)
          · exact Or.inr (Or.inl ⟨ha, hb⟩)
          · exact Or.inl ⟨ts', hts', ha⟩
          · exact Or.inr (Or.inr hb)
  rw [transpose, Std.ExtTreeMap.foldl_eq_foldl_toList, hfold, ← mem_targets_iff]
  exact or_iff_left not_mem_targets_empty

/-! ## Maps without empty entries -/

/-- Every entry of the map holds a link. -/
def Tidy (l : Links) : Prop := ∀ n ∈ l, ∃ t, t ∈ l.targets n

theorem tidy_empty : Tidy ∅ := by
  intro n hn
  simp at hn

theorem mem_of_mem_targets {l : Links} {a b : Name} (h : b ∈ l.targets a) : a ∈ l := by
  refine Decidable.byContradiction fun ha => ?_
  rw [targets, Std.ExtTreeMap.getD_eq_fallback ha] at h
  exact Std.ExtTreeSet.not_mem_empty h

/-- In a tidy map, the names with an entry are those with a link. -/
theorem Tidy.mem_iff {l : Links} (h : l.Tidy) {n : Name} : n ∈ l ↔ ∃ t, t ∈ l.targets n :=
  ⟨h n, fun ⟨_, ht⟩ => mem_of_mem_targets ht⟩

/-- A tidy map has no empty entry. -/
theorem Tidy.isEmpty_eq_false {l : Links} (h : l.Tidy) {n : Name} {ts : NameSet}
    (hn : l[n]? = some ts) : ts.isEmpty = false := by
  have hmem : n ∈ l := by
    rw [Std.ExtTreeMap.mem_iff_isSome_getElem?, hn]
    rfl
  obtain ⟨t, ht⟩ := h n hmem
  rw [targets, Std.ExtTreeMap.getD_eq_getD_getElem?, hn] at ht
  rw [← Bool.not_eq_true, Std.ExtTreeSet.isEmpty_iff]
  rintro rfl
  exact Std.ExtTreeSet.not_mem_empty ht

theorem Tidy.attach {l : Links} (h : l.Tidy) (s t : Name) : (l.attach s t).Tidy := by
  intro n hn
  rw [Links.attach, Std.ExtTreeMap.mem_insert, Std.LawfulEqCmp.compare_eq_iff_eq] at hn
  rcases hn with rfl | hn
  · exact ⟨t, mem_targets_attach.mpr (Or.inl ⟨rfl, rfl⟩)⟩
  · obtain ⟨u, hu⟩ := h n hn
    exact ⟨u, mem_targets_attach.mpr (Or.inr hu)⟩

/-- A tidy map stays tidy when a link is removed, because its last link takes an entry along. -/
theorem Tidy.detach {l : Links} (h : l.Tidy) (s t : Name) : (l.detach s t).Tidy := by
  intro n hn
  by_cases hns : n = s
  · subst hns
    rw [Links.detach] at hn ⊢
    split at hn
    · rename_i hnone
      rw [Std.ExtTreeMap.mem_iff_isSome_getElem?, hnone] at hn
      cases hn
    · rename_i ts hts
      dsimp only at hn ⊢
      split at hn
      · simp at hn
      · rename_i hne
        rw [if_neg hne]
        have hne : (ts.erase t).toList ≠ [] := by
          rw [Ne, ← List.isEmpty_iff, Std.ExtTreeSet.isEmpty_toList]
          exact hne
        obtain ⟨u, hu⟩ := List.exists_mem_of_ne_nil _ hne
        refine ⟨u, mem_targets_insert.mpr ?_⟩
        rw [if_pos rfl]
        exact Std.ExtTreeSet.mem_toList.mp hu
  · have hl : n ∈ l := by
      rw [Links.detach] at hn
      split at hn
      · exact hn
      · dsimp only at hn
        split at hn
        · exact (Std.ExtTreeMap.mem_erase.mp hn).2
        · rw [Std.ExtTreeMap.mem_insert, Std.LawfulEqCmp.compare_eq_iff_eq] at hn
          exact hn.resolve_left (Ne.symm hns)
    obtain ⟨u, hu⟩ := h n hl
    exact ⟨u, mem_targets_detach.mpr ⟨hu, fun hn => hns hn.1⟩⟩

/-- A loop whose steps leave no empty entries leaves none. -/
theorem Tidy.foldl {α : Type} {step : Links → α → Links}
    (hstep : ∀ l x, l.Tidy → (step l x).Tidy) {l : Links} (h : l.Tidy) (xs : List α) :
    (xs.foldl step l).Tidy := by
  induction xs generalizing l with
  | nil => exact h
  | cons x xs ih => exact ih (hstep l x h)

/-- Links that are read backwards make a tidy map. -/
theorem tidy_transpose (l : Links) : l.transpose.Tidy := by
  rw [transpose, Std.ExtTreeMap.foldl_eq_foldl_toList]
  refine tidy_empty.foldl (fun back e h => ?_) l.toList
  rw [Std.ExtTreeSet.foldl_eq_foldl_toList]
  exact h.foldl (fun back t h => h.attach t e.1) _

/-- Every link of the one map is reversed in the other, as the check finds out. -/
theorem reversedIn_iff {l back : Links} :
    l.reversedIn back = true ↔ ∀ a b, b ∈ l.targets a → a ∈ back.targets b := by
  simp only [reversedIn, linked, List.all_eq_true, Std.ExtTreeSet.mem_toList,
    Std.ExtTreeSet.contains_iff_mem, Prod.forall]
  constructor
  · intro h a b hb
    obtain ⟨ts, hts, hb⟩ := mem_targets_iff.mp hb
    exact h a ts hts b hb
  · intro h a ts hts b hb
    exact h a b (mem_targets_iff.mpr ⟨ts, hts, hb⟩)

/-! ## Reachability -/

/-- One name leads to another along zero or more links. -/
def Leads (l : Links) : Name → Name → Prop :=
  Relation.ReflTransGen fun a b => b ∈ l.targets a

theorem Leads.mono {l l' : Links} (h : ∀ a b, b ∈ l.targets a → b ∈ l'.targets a) {a b : Name}
    (hab : l.Leads a b) : l'.Leads a b :=
  Relation.ReflTransGen.mono h _ _ hab

/-- A set that holds the end of a path and is closed against the links holds its start. -/
theorem Leads.mem_of_closed {l : Links} {P : Name → Prop}
    (closed : ∀ a b, b ∈ l.targets a → P b → P a) {a b : Name} (hab : l.Leads a b) (hb : P b) :
    P a := by
  induction hab using Relation.ReflTransGen.head_induction_on with
  | refl => exact hb
  | head hstep _ ih => exact closed _ _ hstep ih

/-- A visit comes only to names that it has seen already or that a waiting name leads to. -/
theorem leads_of_mem_visit {l : Links} {waiting : List Name} {seen : NameSet} {n : Name}
    (h : n ∈ l.visit waiting seen) : n ∈ seen ∨ ∃ w ∈ waiting, l.Leads w n := by
  fun_induction visit l waiting seen with
  | case1 seen => exact Or.inl h
  | case2 m waiting seen hm ih =>
      rcases ih h with hn | ⟨w, hw, hwn⟩
      · exact Or.inl hn
      · exact Or.inr ⟨w, List.mem_cons_of_mem m hw, hwn⟩
  | case3 m waiting seen hm ih =>
      rcases ih h with hn | ⟨w, hw, hwn⟩
      · rcases Std.ExtTreeSet.mem_insert.mp hn with hmn | hn
        · obtain rfl := Std.LawfulEqCmp.compare_eq_iff_eq.mp hmn
          exact Or.inr ⟨m, List.mem_cons_self .., Relation.ReflTransGen.refl⟩
        · exact Or.inl hn
      · rcases List.mem_append.mp hw with hw | hw
        · have hmw : w ∈ l.targets m := Std.ExtTreeSet.mem_toList.mp hw
          exact Or.inr ⟨m, List.mem_cons_self .., Relation.ReflTransGen.head hmw hwn⟩
        · exact Or.inr ⟨w, List.mem_cons_of_mem m hw, hwn⟩

/-- A visit keeps the names that it has seen, and comes to all that wait. -/
theorem mem_visit_of_mem {l : Links} {waiting : List Name} {seen : NameSet} {n : Name}
    (h : n ∈ seen ∨ n ∈ waiting) : n ∈ l.visit waiting seen := by
  fun_induction visit l waiting seen with
  | case1 seen => exact h.resolve_right List.not_mem_nil
  | case2 m waiting seen hm ih =>
      refine ih ?_
      rcases h with h | h
      · exact Or.inl h
      · rcases List.mem_cons.mp h with rfl | h
        · exact Or.inl hm
        · exact Or.inr h
  | case3 m waiting seen hm ih =>
      refine ih ?_
      rcases h with h | h
      · exact Or.inl (Std.ExtTreeSet.mem_insert.mpr (Or.inr h))
      · rcases List.mem_cons.mp h with rfl | h
        · exact Or.inl Std.ExtTreeSet.mem_insert_self
        · exact Or.inr (List.mem_append_right _ h)

/-- If links lead from the names seen only to names seen or waiting, then the result of the visit
is closed under links. -/
theorem visit_closed {l : Links} {waiting : List Name} {seen : NameSet}
    (hseen : ∀ a ∈ seen, ∀ b ∈ l.targets a, b ∈ seen ∨ b ∈ waiting) {a b : Name}
    (ha : a ∈ l.visit waiting seen) (hb : b ∈ l.targets a) : b ∈ l.visit waiting seen := by
  fun_induction visit l waiting seen with
  | case1 seen => exact (hseen a ha b hb).resolve_right List.not_mem_nil
  | case2 m waiting seen hm ih =>
      refine ih ?_ ha
      intro a ha b hb
      rcases hseen a ha b hb with h | h
      · exact Or.inl h
      · rcases List.mem_cons.mp h with rfl | h
        · exact Or.inl hm
        · exact Or.inr h
  | case3 m waiting seen hm ih =>
      refine ih ?_ ha
      intro a ha b hb
      rcases Std.ExtTreeSet.mem_insert.mp ha with hma | ha
      · obtain rfl := Std.LawfulEqCmp.compare_eq_iff_eq.mp hma
        exact Or.inr (List.mem_append_left _ (Std.ExtTreeSet.mem_toList.mpr hb))
      · rcases hseen a ha b hb with h | h
        · exact Or.inl (Std.ExtTreeSet.mem_insert.mpr (Or.inr h))
        · rcases List.mem_cons.mp h with rfl | h
          · exact Or.inl Std.ExtTreeSet.mem_insert_self
          · exact Or.inr (List.mem_append_right _ h)

/-- The closure of some names holds exactly the names that they lead to. -/
theorem mem_closure {l : Links} {sources : List Name} {n : Name} :
    n ∈ l.closure sources ↔ ∃ s ∈ sources, l.Leads s n := by
  rw [closure]
  constructor
  · intro h
    exact (leads_of_mem_visit h).resolve_left Std.ExtTreeSet.not_mem_empty
  · rintro ⟨s, hs, hsn⟩
    induction hsn with
    | refl => exact mem_visit_of_mem (Or.inr hs)
    | tail _ hstep ih =>
        exact visit_closed (fun _ ha => absurd ha Std.ExtTreeSet.not_mem_empty) ih hstep

end Links

end RuleGraph
