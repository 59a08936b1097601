import RuleGraph.Folding.Step
import RuleGraph.Proofs.ReferenceIndex

/-! # An index that keeps up with its graph

    Folding changes the graph and the index of its references side by side.
    `References.Tracks` says that the index has all links of the graph and no
    others, up to leftover links of one rule: a rule that was just folded has
    lost its references while the index still holds them, until they are
    dropped one by one.  Every change that folding makes to a graph keeps the
    index on track with the change made to the index at the same time. -/

namespace RuleGraph

theorem Rule.default_eq_none {r : Rule} (h : r.isInput = false) : r.default = none := by
  rw [isInput, Bool.or_eq_false_iff] at h
  exact Option.isSome_eq_false_iff.mp h.2 |> Option.isNone_iff_eq_none.mp

theorem Rule.question_eq_none {r : Rule} (h : r.isInput = false) : r.question = none := by
  rw [isInput, Bool.or_eq_false_iff] at h
  exact Option.isSome_eq_false_iff.mp h.1 |> Option.isNone_iff_eq_none.mp

namespace Graph

/-! ## Looking up rules of a changed graph -/

/-- After a rule was removed, the rules of the other names are left. -/
theorem get?_erase_eq_some {g : Graph} {n p : Name} {r : Rule} :
    (g.erase n).get? p = some r ↔ p ≠ n ∧ g.get? p = some r := by
  by_cases hp : p = n
  · have hnone : (g.erase n).get? n = none := by
      rw [get?, erase, List.find?_filter, List.find?_eq_none]
      simp
    simp [hp, hnone]
  · simp [get?_erase_of_ne hp, hp]

theorem get?_modify {g : Graph} {n p : Name} {f : Rule → Rule} :
    (g.modify n f).get? p =
      (g.get? p).map fun r => if p = n then { f r with name := p } else r := by
  by_cases hp : p = n
  · subst hp
    simp only [get?_modify_self, if_true]
  · simp [get?_modify_of_ne hp, hp]

/-- After a rule was changed, its name has the changed rule and other names have theirs. -/
theorem get?_modify_eq_some {g : Graph} {n p : Name} {f : Rule → Rule} {r' : Rule} :
    (g.modify n f).get? p = some r' ↔
      ∃ r, g.get? p = some r ∧ (if p = n then { f r with name := p } else r) = r' := by
  rw [get?_modify, Option.map_eq_some_iff]

/-- A rule of a changed graph is the one that was changed, or one of the others. -/
theorem of_get?_modify {g : Graph} {n p : Name} {f : Rule → Rule} {r' : Rule}
    (h : (g.modify n f).get? p = some r') (hf : ∀ r, r.name = n → (f r).name = n) :
    (p = n ∧ ∃ r, g.get? n = some r ∧ f r = r') ∨ (p ≠ n ∧ g.get? p = some r') := by
  obtain ⟨r, hr, rfl⟩ := get?_modify_eq_some.mp h
  by_cases hp : p = n
  · subst hp
    refine Or.inl ⟨rfl, r, hr, ?_⟩
    rw [if_pos rfl, ← hf r (name_of_get? hr)]
  · rw [if_neg hp]
    exact Or.inr ⟨hp, hr⟩

/-! ## Links and overrides of a graph -/

/-- The graph has a rule of the first name, which is linked to the second one. -/
def HasLink (g : Graph) (p c : Name) : Prop := ∃ r, g.get? p = some r ∧ c ∈ r.links

/-- The graph has a rule of the first name, which overrides the second one. -/
def Overrides (g : Graph) (p c : Name) : Prop := ∃ r, g.get? p = some r ∧ c ∈ r.overridden

/-- The graph has a rule of this name, which is no input and has this constant as its value. -/
def IsConstant (g : Graph) (n : Name) (q : Quantity) : Prop :=
  ∃ r, g.get? n = some r ∧ r.isInput = false ∧ r.expr = some (.const q)

/-- The second name can be reached from the first one along zero or more links of the graph. -/
def Leads (g : Graph) : Name → Name → Prop := Relation.ReflTransGen g.HasLink

variable {g : Graph} {n p c target : Name} {q : Quantity}

theorem overrides_of_mem {r : Rule} (hr : r ∈ g.rules) (hc : c ∈ r.overridden) :
    g.Overrides r.name c :=
  ⟨r, get?_name_of_mem hr, hc⟩

/-- A rule that is no input and has a constant value is linked to nothing. -/
theorem IsConstant.not_hasLink (h : g.IsConstant n q) (c : Name) : ¬g.HasLink n c := by
  obtain ⟨r, hr, hinput, hexpr⟩ := h
  rintro ⟨s, hs, hc⟩
  obtain rfl : r = s := Option.some.inj (hr.symm.trans hs)
  obtain ⟨e, he, hce⟩ := Rule.mem_dependencies.mp (Rule.mem_links.mp hc).1
  rw [Rule.exprs, hexpr, Rule.default_eq_none hinput] at he
  cases List.mem_singleton.mp he
  exact absurd hce List.not_mem_nil

/-- A rule with a constant value overrides nothing. -/
theorem IsConstant.not_overrides (h : g.IsConstant n q) (c : Name) : ¬g.Overrides n c := by
  obtain ⟨r, hr, -, hexpr⟩ := h
  rintro ⟨s, hs, hc⟩
  obtain rfl : r = s := Option.some.inj (hr.symm.trans hs)
  rw [Rule.overridden, hexpr] at hc
  cases hc

/-! ### Removing a rule -/

/-- Removing a rule removes its links and no others. -/
theorem hasLink_erase : (g.erase n).HasLink p c ↔ p ≠ n ∧ g.HasLink p c := by
  simp only [HasLink, get?_erase_eq_some, and_assoc, exists_and_left]

theorem Overrides.of_erase (h : (g.erase n).Overrides p c) : g.Overrides p c := by
  obtain ⟨r, hr, hc⟩ := h
  exact ⟨r, (get?_erase_eq_some.mp hr).2, hc⟩

/-! ### Changing a rule -/

/-- A change that adds no dependency adds no link. -/
theorem HasLink.of_modify {f : Rule → Rule}
    (hf : ∀ r, g.get? n = some r → ∀ d ∈ (f r).dependencies, d ∈ r.dependencies)
    (h : (g.modify n f).HasLink p c) : g.HasLink p c := by
  obtain ⟨r', hr', hc⟩ := h
  obtain ⟨r, hr, rfl⟩ := get?_modify_eq_some.mp hr'
  refine ⟨r, hr, ?_⟩
  by_cases hp : p = n
  · subst hp
    rw [if_pos rfl] at hc
    obtain ⟨hc, hne, hinternal⟩ := Rule.mem_links.mp hc
    rw [← name_of_get? hr] at hne
    exact Rule.mem_links.mpr ⟨hf r hr c hc, hne, hinternal⟩
  · rwa [if_neg hp] at hc

theorem HasLink.modify_of_ne {f : Rule → Rule} (hp : p ≠ n) (h : g.HasLink p c) :
    (g.modify n f).HasLink p c := by
  obtain ⟨r, hr, hc⟩ := h
  exact ⟨r, (get?_modify_of_ne hp f).trans hr, hc⟩

/-- A link stays if the changed rule still depends on its end. -/
theorem HasLink.modify_self {f : Rule → Rule}
    (hf : ∀ r, g.get? p = some r → c ∈ r.dependencies → c ∈ (f r).dependencies)
    (h : g.HasLink p c) : (g.modify p f).HasLink p c := by
  obtain ⟨r, hr, hc⟩ := h
  obtain ⟨hc, hne, hinternal⟩ := Rule.mem_links.mp hc
  refine ⟨_, get?_modify_eq_some.mpr ⟨r, hr, if_pos rfl⟩, ?_⟩
  rw [name_of_get? hr] at hne
  exact Rule.mem_links.mpr ⟨hf r hr hc, hne, hinternal⟩

/-- A change that overrides nothing new adds no override. -/
theorem Overrides.of_modify {f : Rule → Rule}
    (hf : ∀ r, g.get? n = some r → ∀ d ∈ (f r).overridden, d ∈ r.overridden)
    (h : (g.modify n f).Overrides p c) : g.Overrides p c := by
  obtain ⟨r', hr', hc⟩ := h
  obtain ⟨r, hr, rfl⟩ := get?_modify_eq_some.mp hr'
  refine ⟨r, hr, ?_⟩
  by_cases hp : p = n
  · subst hp
    rw [if_pos rfl] at hc
    exact hf r hr c hc
  · rwa [if_neg hp] at hc

end Graph

namespace References

/-- The index has the links of the graph, and no others except from the rule `stale`. -/
structure Tracks (refs : References) (g : Graph) (stale : Option Name) : Prop where
  sound : refs.Sound
  complete : ∀ {p c : Name}, g.HasLink p c → c ∈ refs.children.targets p
  exact : ∀ {p c : Name}, c ∈ refs.children.targets p → stale ≠ some p → g.HasLink p c

namespace Tracks

variable {refs : References} {g : Graph} {stale : Option Name} {n p target : Name}

/-- A new index tracks its graph. -/
theorem ofGraph (g : Graph) : (ofGraph g).Tracks g none where
  sound := sound_ofGraph g
  complete := mem_children_ofGraph.mpr
  exact h _ := mem_children_ofGraph.mp h

/-- Removing a rule together with the references it makes. -/
theorem erase (h : refs.Tracks g stale) (n : Name) : (refs.erase n).Tracks (g.erase n) stale where
  sound := h.sound.erase n
  complete hpc := by
    obtain ⟨hp, hpc⟩ := Graph.hasLink_erase.mp hpc
    exact mem_children_erase.mpr ⟨hp, h.complete hpc⟩
  exact hc hstale := by
    obtain ⟨hp, hc⟩ := mem_children_erase.mp hc
    exact Graph.hasLink_erase.mpr ⟨hp, h.exact hc hstale⟩

/-- A rule that loses references makes the index stale. -/
theorem modify (h : refs.Tracks g none) {f : Rule → Rule}
    (hf : ∀ r, g.get? n = some r → ∀ d ∈ (f r).dependencies, d ∈ r.dependencies) :
    refs.Tracks (g.modify n f) (some n) where
  sound := h.sound
  complete hpc := h.complete (hpc.of_modify hf)
  exact hc hn := (h.exact hc nofun).modify_of_ne fun hp => hn (congrArg some hp.symm)

/-- A change of a rule that keeps its dependencies. -/
theorem modify_of_iff (h : refs.Tracks g stale) {f : Rule → Rule}
    (hf : ∀ r, g.get? n = some r → ∀ d, d ∈ (f r).dependencies ↔ d ∈ r.dependencies) :
    refs.Tracks (g.modify n f) stale where
  sound := h.sound
  complete hpc := h.complete (hpc.of_modify fun r hr d => (hf r hr d).mp)
  exact {p c} hc hstale := by
    by_cases hp : p = n
    · subst hp
      exact (h.exact hc hstale).modify_self fun r hr => (hf r hr c).mpr
    · exact (h.exact hc hstale).modify_of_ne hp

/-- A rule that loses exactly the references to one name, together with the link to it. -/
theorem modify_unlink (h : refs.Tracks g stale) {f : Rule → Rule}
    (hf : ∀ r, g.get? n = some r →
      ∀ d, d ∈ (f r).dependencies ↔ d ∈ r.dependencies ∧ d ≠ target) :
    (refs.unlink n target).Tracks (g.modify n f) stale where
  sound := h.sound.unlink n target
  complete {p c} hpc := by
    refine mem_children_unlink.mpr ⟨h.complete (hpc.of_modify fun r hr d hd => ?_), ?_⟩
    · exact ((hf r hr d).mp hd).1
    · rintro ⟨rfl, rfl⟩
      obtain ⟨r', hr', hc⟩ := hpc
      obtain ⟨r, hr, rfl⟩ := Graph.get?_modify_eq_some.mp hr'
      rw [if_pos rfl] at hc
      exact ((hf r hr c).mp (Rule.mem_links.mp hc).1).2 rfl
  exact {p c} hc hstale := by
    obtain ⟨hold, hne⟩ := mem_children_unlink.mp hc
    by_cases hp : p = n
    · subst hp
      have hct : c ≠ target := fun hct => hne ⟨rfl, hct⟩
      exact (h.exact hold hstale).modify_self fun r hr hd => (hf r hr c).mpr ⟨hd, hct⟩
    · exact (h.exact hold hstale).modify_of_ne hp

/-- Dropping a link that the graph does not have. -/
theorem unlink (h : refs.Tracks g stale) (hlink : ¬g.HasLink n target) :
    (refs.unlink n target).Tracks g stale where
  sound := h.sound.unlink n target
  complete hpc := by
    refine mem_children_unlink.mpr ⟨h.complete hpc, ?_⟩
    rintro ⟨rfl, rfl⟩
    exact hlink hpc
  exact hc := h.exact (mem_children_unlink.mp hc).1

end Tracks

end References

end RuleGraph
