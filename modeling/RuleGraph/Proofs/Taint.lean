import RuleGraph.Folding.State
import RuleGraph.Proofs.Tracking

/-! # What a taint holds back

    A taint is computed at the beginning of a pass and used while the graph
    changes.  What it has to know is `Taint.Covers`: who overrides which rule,
    and that being blocked passes on to all rules that depend on a blocked one.
    A new taint covers its graph, and since folding only takes links and
    overrides away, it goes on covering it (`Covers.mono`).  So a rule that
    is foldable, at any moment of the pass, depends on no unfoldable rule and
    on no rule that another rule overrides (`foldable_of_isFoldable`). -/

namespace RuleGraph

namespace Taint

/-! ## The overriders of a graph -/

/-- The overriders of a name are the rules that override it at the root of their value. -/
theorem mem_targets_overridersIn {g : Graph} {p c : Name} :
    p ∈ (overridersIn g).targets c ↔ g.Overrides p c := by
  have hfold : ∀ (rules : List Rule) (l : Links),
      p ∈ (rules.foldl (fun l r => r.overridden.foldl (fun l n => l.attach n r.name) l)
        l).targets c ↔ (∃ r ∈ rules, r.name = p ∧ c ∈ r.overridden) ∨ p ∈ l.targets c := by
    intro rules
    induction rules with
    | nil => simp
    | cons r rules ih =>
        intro l
        rw [List.foldl_cons, ih, Links.mem_targets_foldl_attach, ← or_assoc]
        refine or_congr_left ?_
        rw [List.exists_mem_cons_iff, or_comm, and_comm, eq_comm]
  rw [overridersIn, hfold, or_iff_left Links.not_mem_targets_empty]
  constructor
  · rintro ⟨r, hr, rfl, hc⟩
    exact Graph.overrides_of_mem hr hc
  · rintro ⟨r, hr, hc⟩
    exact ⟨r, Graph.mem_of_get? hr, Graph.name_of_get? hr, hc⟩

theorem tidy_overridersIn (g : Graph) : (overridersIn g).Tidy :=
  Links.tidy_empty.foldl
    (fun _ r h => h.foldl (fun _ n h => h.attach n r.name) r.overridden) g.rules

/-- The names that have overriders are those that some rule overrides. -/
theorem mem_overridersIn {g : Graph} {n : Name} : n ∈ overridersIn g ↔ ∃ p, g.Overrides p n := by
  rw [(tidy_overridersIn g).mem_iff]
  exact exists_congr fun p => mem_targets_overridersIn

/-- What is tainted is unfoldable or overridden, or depends on such a rule. -/
theorem mem_tainted_ofGraph {g : Graph} {refs : References} {unfoldable : NameSet}
    {accessible : Name → Bool} {n : Name} :
    n ∈ (ofGraph g refs unfoldable accessible).tainted ↔
      ∃ c, (c ∈ unfoldable ∨ c ∈ overridersIn g) ∧ refs.parents.Leads c n := by
  show n ∈ refs.parents.closure (unfoldable.toList ++ (overridersIn g).keys) ↔ _
  rw [Links.mem_closure]
  simp only [List.mem_append, Std.ExtTreeSet.mem_toList, Std.ExtTreeMap.mem_keys]

/-- The taint bars the rules of the graph that the evaluator does not give access to. -/
theorem isAccessible_ofGraph_eq_false {g : Graph} {refs : References} {unfoldable : NameSet}
    {accessible : Name → Bool} {n : Name} :
    (ofGraph g refs unfoldable accessible).isAccessible n = false ↔
      n ∈ g.names ∧ accessible n = false := by
  simp [isAccessible, ofGraph]

/-! ## Covering a graph -/

/-- The taint knows all overriders of the graph, and blocks what is unfoldable or overridden
together with everything that the index has above it. -/
structure Covers (t : Taint) (unfoldable : NameSet) (refs : References) (g : Graph) : Prop where
  overriders : ∀ {p c : Name}, g.Overrides p c → p ∈ t.overriders.targets c
  overridden : ∀ {p c : Name}, p ∈ t.overriders.targets c → c ∈ t.tainted
  unfoldable : ∀ n ∈ unfoldable, n ∈ t.tainted
  closed : ∀ p c : Name, c ∈ refs.children.targets p → c ∈ t.tainted → p ∈ t.tainted

/-- A taint that was just computed covers its graph. -/
theorem covers_ofGraph {g : Graph} {refs : References} (h : refs.Sound) (unfoldable : NameSet)
    (accessible : Name → Bool) :
    (ofGraph g refs unfoldable accessible).Covers unfoldable refs g where
  overriders := mem_targets_overridersIn.mpr
  overridden hp := mem_tainted_ofGraph.mpr
    ⟨_, Or.inr (Links.mem_of_mem_targets hp), Relation.ReflTransGen.refl⟩
  unfoldable n hn := mem_tainted_ofGraph.mpr ⟨n, Or.inl hn, Relation.ReflTransGen.refl⟩
  closed p c hc htainted := by
    obtain ⟨source, hsource, hleads⟩ := mem_tainted_ofGraph.mp htainted
    exact mem_tainted_ofGraph.mpr
      ⟨source, hsource, Relation.ReflTransGen.tail hleads (h.transposed.mpr hc)⟩

/-- A taint goes on covering a graph that loses links and overrides. -/
theorem Covers.mono {t : Taint} {unfoldable : NameSet} {refs refs' : References} {g g' : Graph}
    (h : t.Covers unfoldable refs g)
    (hrefs : ∀ p c, c ∈ refs'.children.targets p → c ∈ refs.children.targets p)
    (hg : ∀ p c, g'.Overrides p c → g.Overrides p c) : t.Covers unfoldable refs' g' where
  overriders hpc := h.overriders (hg _ _ hpc)
  overridden := h.overridden
  unfoldable := h.unfoldable
  closed p c hc := h.closed p c (hrefs p c hc)

theorem isOverriddenExcept_eq_false {t : Taint} {n root : Name} :
    t.isOverriddenExcept n root = false ↔ ∀ p ∈ t.overriders.targets n, p = root := by
  simp [isOverriddenExcept]

end Taint

/-! ## Foldable rules -/

/-- The graph has this rule of this name, which is neither avoided nor an input, and which depends
on no unfoldable rule and on no rule that another one overrides. -/
structure Graph.Foldable (opts : Options) (unfoldable : NameSet) (g : Graph) (n : Name)
    (r : Rule) : Prop where
  rule : g.get? n = some r
  avoids : opts.avoids r = false
  isInput : r.isInput = false
  unfoldable : ∀ {c : Name}, g.Leads n c → c ∉ unfoldable
  overridden : ∀ {p c : Name}, g.Leads n c → g.Overrides p c → p = n

namespace Folding

variable {σ : Type} {opts : Options} {f : Folding σ} {n : Name}

/-- A rule is foldable if and only if it is there and accessible, neither avoided nor an input, and
nothing that the taint knows of blocks it. -/
theorem isFoldable_iff :
    f.isFoldable opts n = true ↔ ∃ r, f.graph.get? n = some r ∧ opts.avoids r = false ∧
      r.isInput = false ∧ f.taint.isAccessible n = true ∧
      (if r.isContextual then f.reachesBlocking n else f.taint.isTainted n) = false := by
  rw [isFoldable]
  cases f.graph.get? n with
  | none => simp
  | some r => simp [and_assoc]

/-- A contextual rule is blocked if and only if it leads to a rule that blocks it. -/
theorem reachesBlocking_iff :
    f.reachesBlocking n = true ↔ ∃ c, f.refs.children.Leads n c ∧ f.blocks n c = true := by
  rw [reachesBlocking, List.any_eq_true]
  simp only [Std.ExtTreeSet.mem_toList, Links.mem_closure, List.mem_singleton, exists_eq_left]

theorem blocks_eq_false {c : Name} (h : f.reachesBlocking n = false)
    (hc : f.refs.children.Leads n c) : f.blocks n c = false := by
  rw [← Bool.not_eq_true] at h ⊢
  exact fun hblocks => h (reachesBlocking_iff.mpr ⟨c, hc, hblocks⟩)

/-- What a foldable rule depends on is overridden by that rule itself at most. -/
theorem overrider_eq_of_isFoldable
    (h : f.taint.Covers f.unfoldable f.refs f.graph) (hfoldable : f.isFoldable opts n = true)
    {p c : Name} (hc : f.refs.children.Leads n c) (hp : p ∈ f.taint.overriders.targets c) :
    p = n := by
  obtain ⟨r, -, -, -, -, hblocked⟩ := isFoldable_iff.mp hfoldable
  split at hblocked
  · have hblocks := blocks_eq_false hblocked hc
    rw [blocks, Bool.or_eq_false_iff] at hblocks
    exact Taint.isOverriddenExcept_eq_false.mp hblocks.2 p hp
  · have htainted : n ∈ f.taint.tainted :=
      Links.Leads.mem_of_closed (P := (· ∈ f.taint.tainted)) h.closed hc (h.overridden hp)
    rw [Taint.isTainted, Std.ExtTreeSet.contains_iff_mem.mpr htainted] at hblocked
    cases hblocked

/-- What a foldable rule depends on is not unfoldable. -/
theorem not_mem_unfoldable_of_isFoldable
    (h : f.taint.Covers f.unfoldable f.refs f.graph) (hfoldable : f.isFoldable opts n = true)
    {c : Name} (hc : f.refs.children.Leads n c) : c ∉ f.unfoldable := by
  intro hmem
  obtain ⟨r, -, -, -, -, hblocked⟩ := isFoldable_iff.mp hfoldable
  split at hblocked
  · have hblocks := blocks_eq_false hblocked hc
    rw [blocks, Bool.or_eq_false_iff, Std.ExtTreeSet.contains_iff_mem.mpr hmem] at hblocks
    cases hblocks.1
  · have htainted : n ∈ f.taint.tainted :=
      Links.Leads.mem_of_closed (P := (· ∈ f.taint.tainted)) h.closed hc (h.unfoldable c hmem)
    rw [Taint.isTainted, Std.ExtTreeSet.contains_iff_mem.mpr htainted] at hblocked
    cases hblocked

/-- What may be folded according to the taint may be folded according to the graph, as long as the
index has all links of the graph and the taint covers it. -/
theorem foldable_of_isFoldable {stale : Option Name} (htracks : f.refs.Tracks f.graph stale)
    (hcovers : f.taint.Covers f.unfoldable f.refs f.graph) (h : f.isFoldable opts n = true) :
    ∃ r, f.graph.Foldable opts f.unfoldable n r ∧ f.taint.isAccessible n = true := by
  obtain ⟨r, hr, havoids, hinput, haccessible, -⟩ := isFoldable_iff.mp h
  have hleads : ∀ {c}, f.graph.Leads n c → f.refs.children.Leads n c := fun hc =>
    Relation.ReflTransGen.mono (fun _ _ => htracks.complete) _ _ hc
  exact ⟨r, ⟨hr, havoids, hinput,
    fun hc => not_mem_unfoldable_of_isFoldable hcovers h (hleads hc),
    fun hc hp => overrider_eq_of_isFoldable hcovers h (hleads hc) (hcovers.overriders hp)⟩,
    haccessible⟩

end Folding

end RuleGraph
