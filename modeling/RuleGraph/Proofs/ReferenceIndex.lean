import RuleGraph.Graph.Lemmas
import RuleGraph.Proofs.Links
import RuleGraph.Proofs.Substitution
import RuleGraph.References

/-! # The two directions of the index

    Both link maps of an index hold the same links, and the map of parents has
    no empty entry (`References.Sound`), whatever is unlinked or erased.  So
    the presence of an entry among the parents tells whether a name is the
    child of some rule.  The children that a new index gives a rule are the
    names that its expressions depend on, without itself and internal names. -/

namespace RuleGraph

/-! ## The links of a rule -/

namespace Rule

theorem mem_dependencies {r : Rule} {d : Name} :
    d ∈ r.dependencies ↔ ∃ e ∈ r.exprs, d ∈ e.dependencies :=
  List.mem_flatMap

/-- The links of a rule are its dependencies, without itself and internal names. -/
theorem mem_links {r : Rule} {d : Name} :
    d ∈ r.links ↔ d ∈ r.dependencies ∧ d ≠ r.name ∧ d.isInternal = false := by
  simp [links]

/-- The expressions of a rule in which a name was replaced are its expressions with the name
replaced. -/
theorem mem_exprs_subst {r : Rule} {target : Name} {value e : Expr} :
    e ∈ (r.subst target value).exprs ↔ ∃ e' ∈ r.exprs, Expr.subst target value e' = e := by
  simp only [exprs, subst, List.mem_append, Option.mem_toList, Option.map_eq_some_iff]
  constructor
  · rintro (⟨e', he', rfl⟩ | ⟨e', he', rfl⟩)
    · exact ⟨e', Or.inl he', rfl⟩
    · exact ⟨e', Or.inr he', rfl⟩
  · rintro ⟨e', he' | he', rfl⟩
    · exact Or.inl ⟨e', he', rfl⟩
    · exact Or.inr ⟨e', he', rfl⟩

/-- Filling in a constant adds no dependency. -/
theorem mem_dependencies_of_subst {r : Rule} {target d : Name} {q : Quantity}
    (h : d ∈ (r.subst target (.const q)).dependencies) : d ∈ r.dependencies := by
  obtain ⟨e, he, hd⟩ := mem_dependencies.mp h
  obtain ⟨e', he', rfl⟩ := mem_exprs_subst.mp he
  refine mem_dependencies.mpr ⟨e', he', Expr.mem_dependencies.mpr ?_⟩
  rcases Expr.mem_dependencies_subst_const.mp hd with ⟨hd, -⟩ | hd
  · exact Or.inl hd
  · exact Or.inr hd

/-- Substituting a constant keeps the dependencies other than the target. -/
theorem mem_dependencies_subst {r : Rule} {target d : Name} {q : Quantity} (hd : d ≠ target)
    (h : d ∈ r.dependencies) : d ∈ (r.subst target (.const q)).dependencies := by
  obtain ⟨e, he, hde⟩ := mem_dependencies.mp h
  refine mem_dependencies.mpr ⟨_, mem_exprs_subst.mpr ⟨e, he, rfl⟩, ?_⟩
  refine Expr.mem_dependencies_subst_const.mpr ?_
  rcases Expr.mem_dependencies.mp hde with hde | hde
  · exact Or.inl ⟨hde, hd⟩
  · exact Or.inr hde

end Rule

/-- Rules of a graph have different texts. -/
theorem Graph.pairwise_text_ne (g : Graph) :
    g.rules.Pairwise fun r t => r.name.text ≠ t.name.text := by
  refine g.increasing.imp ?_
  intro r t hlt heq
  rw [heq] at hlt
  exact String.lt_irrefl _ hlt

/-! ## Both directions -/

namespace References

/-- Both directions hold the same links, and every entry of the parents holds one. -/
structure Sound (refs : References) : Prop where
  transposed : ∀ {p c : Name}, p ∈ refs.parents.targets c ↔ c ∈ refs.children.targets p
  tidy : refs.parents.Tidy

/-- The names of a sound index that have parents are the children of a rule. -/
theorem Sound.hasParents_iff {refs : References} (h : refs.Sound) {n : Name} :
    refs.hasParents n = true ↔ ∃ p, n ∈ refs.children.targets p := by
  rw [hasParents, Std.ExtTreeMap.contains_iff_mem, h.tidy.mem_iff]
  exact exists_congr fun p => h.transposed

/-- Both directions hold the same links if and only if each link is found in either of them. -/
theorem isTransposed_iff {refs : References} :
    refs.isTransposed = true ↔
      ∀ p c, p ∈ refs.parents.targets c ↔ c ∈ refs.children.targets p := by
  rw [isTransposed, Bool.and_eq_true_iff, Links.reversedIn_iff, Links.reversedIn_iff]
  constructor
  · exact fun h p c => ⟨h.2 c p, h.1 p c⟩
  · exact fun h => ⟨fun p c => (h p c).mpr, fun c p => (h p c).mp⟩

theorem Sound.isTransposed {refs : References} (h : refs.Sound) : refs.isTransposed = true :=
  isTransposed_iff.mpr fun _ _ => h.transposed

/-- A path along the parents is a path along the children, followed backwards. -/
theorem leads_parents_iff {refs : References} (h : refs.isTransposed = true) {p c : Name} :
    refs.parents.Leads c p ↔ refs.children.Leads p c := by
  rw [isTransposed_iff] at h
  refine Iff.trans ?_ Relation.reflTransGen_swap
  constructor
  · exact Relation.ReflTransGen.mono (fun c p => (h p c).mp) _ _
  · exact Relation.ReflTransGen.mono (fun c p => (h p c).mpr) _ _

theorem mem_parentsOf {refs : References} {p c : Name} :
    p ∈ refs.parentsOf c ↔ p ∈ refs.parents.targets c :=
  Std.ExtTreeSet.mem_toList

theorem mem_childrenOf {refs : References} {p c : Name} :
    c ∈ refs.childrenOf p ↔ c ∈ refs.children.targets p :=
  Std.ExtTreeSet.mem_toList

/-! ## Dropping one link -/

theorem mem_children_unlink {refs : References} {parent child p c : Name} :
    c ∈ (refs.unlink parent child).children.targets p ↔
      c ∈ refs.children.targets p ∧ ¬(p = parent ∧ c = child) :=
  Links.mem_targets_modify_erase

/-- A sound index stays sound when a link is dropped. -/
theorem Sound.unlink {refs : References} (h : refs.Sound) (parent child : Name) :
    (refs.unlink parent child).Sound where
  transposed {p c} := by
    rw [mem_children_unlink, ← h.transposed, and_comm (a := p = parent)]
    exact Links.mem_targets_detach
  tidy := h.tidy.detach child parent

/-! ## Forgetting a rule -/

/-- Forgetting a rule drops the links that it makes, and no others. -/
theorem mem_children_erase {refs : References} {n p c : Name} :
    c ∈ (refs.erase n).children.targets p ↔ p ≠ n ∧ c ∈ refs.children.targets p :=
  Links.mem_targets_erase

/-- Removing the links of children to one parent removes these and no others. -/
theorem mem_targets_foldl_detach {n p c : Name} {cs : List Name} {l : Links} :
    p ∈ (cs.foldl (fun l child => l.detach child n) l).targets c ↔
      p ∈ l.targets c ∧ ¬(p = n ∧ c ∈ cs) := by
  induction cs generalizing l with
  | nil => simp
  | cons child cs ih =>
      rw [List.foldl_cons, ih, Links.mem_targets_detach, List.mem_cons]
      constructor
      · rintro ⟨⟨hp, hchild⟩, hcs⟩
        refine ⟨hp, ?_⟩
        rintro ⟨hpn, hc | hc⟩
        · exact hchild ⟨hc, hpn⟩
        · exact hcs ⟨hpn, hc⟩
      · rintro ⟨hp, h⟩
        exact ⟨⟨hp, fun hc => h ⟨hc.2, Or.inl hc.1⟩⟩, fun hc => h ⟨hc.1, Or.inr hc.2⟩⟩

/-- A sound index stays sound when a rule is forgotten. -/
theorem Sound.erase {refs : References} (h : refs.Sound) (n : Name) : (refs.erase n).Sound where
  transposed {p c} := by
    rw [mem_children_erase, ← h.transposed]
    show p ∈ ((refs.childrenOf n).foldl (fun parents child => parents.detach child n)
      refs.parents).targets c ↔ _
    rw [mem_targets_foldl_detach, mem_childrenOf, ← h.transposed]
    constructor
    · rintro ⟨hp, hn⟩
      exact ⟨fun hpn => hn ⟨hpn, hpn ▸ hp⟩, hp⟩
    · rintro ⟨hpn, hp⟩
      exact ⟨hp, fun hn => hpn hn.1⟩
  tidy := h.tidy.foldl (fun _ child hl => hl.detach child n) (refs.childrenOf n)

/-! ## A new index -/

/-- A new index is sound. -/
theorem sound_ofGraph (g : Graph) : (ofGraph g).Sound where
  transposed := Links.mem_targets_transpose
  tidy := Links.tidy_transpose _

/-- Entering rules of different names gives each name the links of its rule. -/
theorem mem_targets_foldl_insert {rules : List Rule} {l : Links} {p c : Name}
    (h : rules.Pairwise fun r t => r.name ≠ t.name) :
    c ∈ (rules.foldl (fun (l : Links) r => l.insert r.name r.links) l).targets p ↔
      (∃ r ∈ rules, r.name = p ∧ c ∈ r.links) ∨
        (∀ r ∈ rules, r.name ≠ p) ∧ c ∈ l.targets p := by
  induction rules generalizing l with
  | nil => simp
  | cons r rules ih =>
      obtain ⟨hne, h⟩ := List.pairwise_cons.mp h
      rw [List.foldl_cons, ih h, Links.mem_targets_insert, List.exists_mem_cons_iff,
        List.forall_mem_cons]
      by_cases hr : r.name = p
      · -- no later rule has the name of this one, so its entry is not overwritten
        have hlater : ∀ t ∈ rules, t.name ≠ p := fun t ht htp => hne t ht (hr.trans htp.symm)
        have hnone : ¬∃ t ∈ rules, t.name = p ∧ c ∈ t.links := by
          rintro ⟨t, ht, htp, -⟩
          exact hlater t ht htp
        rw [if_pos hr, or_iff_right hnone, or_iff_left hnone, and_iff_right hlater,
          and_iff_right hr, or_iff_left fun hc => hc.1.1 hr]
      · rw [if_neg hr, and_iff_right hr]
        exact or_congr_left (or_iff_right fun hc => hr hc.1).symm

/-- The children of a rule in a new index are the links of the rule. -/
theorem mem_children_ofGraph {g : Graph} {p c : Name} :
    c ∈ (ofGraph g).children.targets p ↔ ∃ r, g.get? p = some r ∧ c ∈ r.links := by
  have hnames : g.rules.Pairwise fun r t => r.name ≠ t.name :=
    g.pairwise_text_ne.imp fun hne heq => hne (congrArg Name.text heq)
  refine (mem_targets_foldl_insert hnames).trans ?_
  rw [or_iff_left fun hc => Links.not_mem_targets_empty hc.2]
  constructor
  · rintro ⟨r, hr, rfl, hc⟩
    exact ⟨r, Graph.get?_name_of_mem hr, hc⟩
  · rintro ⟨r, hr, hc⟩
    exact ⟨r, Graph.mem_of_get? hr, Graph.name_of_get? hr, hc⟩

end References

end RuleGraph
