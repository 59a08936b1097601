import RuleGraph.Proofs.Protection
import RuleGraph.Proofs.Quiescence

/-! # Taints that lag behind

    The taint of a pass is computed when the pass begins, and the graph changes
    while it is in use.  This module compares it with the taint that would be
    computed at a later moment of the pass: the one in use may block more rules,
    but never fewer (`stale_taint_suffices`).

    * `Taint.Includes` says that one taint blocks all that another one blocks.
      What is foldable with the first is then foldable with the second
      (`isFoldable_refreshTaint`), whether the rule is contextual or not.
    * A taint that covers the graph has all its overriders, and is closed under
      the links that are left, so it has all that a new taint would collect
      along them (`Covers.includes`).
    * Rules that cannot be accessed now could not be accessed at the start,
      since no rule has become private (`Accounts.isAccessible_eq_false`), and
      those every taint of the run knows (`Passes.bars`). -/

namespace RuleGraph

/-! ## Comparing taints -/

namespace Taint

variable {t t' : Taint} {n : Name}

/-- The first taint blocks all that the second one blocks. -/
structure Includes (t t' : Taint) : Prop where
  overriders : ∀ {p c : Name}, p ∈ t'.overriders.targets c → p ∈ t.overriders.targets c
  tainted : ∀ {n : Name}, n ∈ t'.tainted → n ∈ t.tainted
  inaccessible : ∀ {n : Name}, t'.isAccessible n = false → t.isAccessible n = false

/-- The taint knows all rules of the graph that cannot be accessed. -/
def Bars (t : Taint) (g : Graph) : Prop :=
  ∀ n ∈ g.names, g.isAccessible n = false → t.isAccessible n = false

/-- A taint that covers a graph and knows what cannot be accessed there includes the taint that is
computed from this graph. -/
theorem Covers.includes {unfoldable : NameSet} {refs : References} {g : Graph}
    (h : t.Covers unfoldable refs g) (hrefs : refs.Sound) (hbars : t.Bars g) :
    t.Includes (ofGraph g refs unfoldable g.isAccessible) where
  overriders hp := h.overriders (mem_targets_overridersIn.mp hp)
  tainted hn := by
    obtain ⟨c, hc, hleads⟩ := mem_tainted_ofGraph.mp hn
    have hblocked : c ∈ t.tainted := by
      rcases hc with hunfoldable | hoverridden
      · exact h.unfoldable c hunfoldable
      · obtain ⟨p, hp⟩ := mem_overridersIn.mp hoverridden
        exact h.overridden (h.overriders hp)
    exact Links.Leads.mem_of_closed (P := (· ∈ t.tainted)) h.closed
      ((References.leads_parents_iff hrefs.isTransposed).mp hleads) hblocked
  inaccessible hn := by
    obtain ⟨hmem, hclosed⟩ := isAccessible_ofGraph_eq_false.mp hn
    exact hbars _ hmem hclosed

end Taint

namespace Folding

variable {σ : Type} {ev : Evaluator σ} {opts : Options} {f f' : Folding σ} {n : Name}

/-- What is foldable is foldable with a new taint, if the one in use includes it. -/
theorem isFoldable_refreshTaint (h : f.taint.Includes (f.refreshTaint ev).taint)
    (hn : f.isFoldable opts n = true) : (f.refreshTaint ev).isFoldable opts n = true := by
  obtain ⟨r, hr, havoids, hinput, haccessible, hblocked⟩ := isFoldable_iff.mp hn
  refine isFoldable_iff.mpr ⟨r, hr, havoids, hinput, ?_, ?_⟩
  · rw [← Bool.not_eq_false] at haccessible ⊢
    exact mt h.inaccessible haccessible
  · by_cases hcontextual : r.isContextual = true
    · -- the same names are looked at, and fewer rules override them
      rw [if_pos hcontextual, reachesBlocking, List.any_eq_false] at hblocked ⊢
      intro c hc
      have hblocks := hblocked c hc
      rw [Bool.not_eq_true, blocks, Bool.or_eq_false_iff] at hblocks ⊢
      refine ⟨hblocks.1, Taint.isOverriddenExcept_eq_false.mpr fun p hp => ?_⟩
      exact Taint.isOverriddenExcept_eq_false.mp hblocks.2 p (h.overriders hp)
    · rw [if_neg hcontextual, Taint.isTainted, Bool.eq_false_iff, Ne,
        Std.ExtTreeSet.contains_iff_mem] at hblocked ⊢
      exact mt h.tainted hblocked

/-- The states in which a stage asks whether rules may be folded or deleted. -/
inductive Stage.Asks : Stage → Folding σ → Folding σ → Prop where
  | visit {pass : Pass} {f : Folding σ} : Asks (.visit pass) f f
  | prune {pass : Pass} {n c : Name} {cs : List Name} {f : Folding σ} :
      Asks (.prune pass n (c :: cs)) f (f.unlink n c)
  | settle {pass : Pass} {n : Name} {f : Folding σ} : Asks (.prune pass n []) f f
  | discard {total b : Nat} {rest : List Name} {f : Folding σ} :
      Asks (.discard total b rest) f f

/-- Where it is asked what may be folded, the graph and the taint are those of the stage, and the
index and the taint are good enough. -/
theorem Consistent.asks {st : Stage} (h : Consistent st f) (hasks : st.Asks f f') :
    (f'.graph = f.graph ∧ f'.taint = f.taint) ∧ ∃ stale, f'.UpToDate stale := by
  cases hasks with
  | visit | discard => exact ⟨⟨rfl, rfl⟩, none, h⟩
  | @prune _ n c _ =>
      obtain ⟨hf, hlink, -⟩ := h
      exact ⟨⟨rfl, rfl⟩, some n, hf.unlink (hlink c)⟩
  | @settle _ n => exact ⟨⟨rfl, rfl⟩, some n, h.1⟩

end Folding

/-! ## Taints within a pass -/

namespace Graph

open RuleGraph.Folding (Stage Step Reaches foldRule)

variable {σ : Type} {ev : Evaluator σ} {opts : Options} {g g' : Graph} {s : Session σ}
  {folds : List (Name × Quantity)} {st : Stage} {f f₁ : Folding σ} {n : Name}

/-- A rule that cannot be accessed could not be accessed before. -/
theorem Accounts.isAccessible_eq_false (h : g.Accounts folds st g') (hn : n ∈ g'.names)
    (hclosed : g'.isAccessible n = false) :
    g.contains n = true ∧ g.isAccessible n = false := by
  have hnames : ∀ {m}, m ∈ g'.names → m ∈ g.names := by
    intro m hm
    obtain ⟨r', hr'⟩ := mem_names_iff.mp hm
    obtain ⟨r, hr, -⟩ := h.stems hr'
    exact mem_names_of_get? hr
  have hprivate : ∀ {m}, g'.IsPrivate m → g.IsPrivate m := by
    rintro m ⟨r', hr', hpriv⟩
    obtain ⟨r, hr, hstems⟩ := h.stems hr'
    exact ⟨r, hr, hstems.frames.isPrivate.symm.trans hpriv⟩
  have hg : g.contains n = true := Option.isSome_iff_exists.mpr (mem_names_iff.mp (hnames hn))
  have hg' : g'.contains n = true := Option.isSome_iff_exists.mpr (mem_names_iff.mp hn)
  refine ⟨hg, (isAccessible_eq_false_iff hg).mpr ?_⟩
  refine ((isAccessible_eq_false_iff hg').mp hclosed).imp hprivate ?_
  rintro ⟨m, hm, htext, hpriv⟩
  exact ⟨m, hnames hm, htext, hprivate hpriv⟩

/-- From the first pass on, the taint knows all rules that cannot be accessed. -/
theorem Passes.bars (h : g.Passes ev opts s st f)
    (haccess : ∀ g n s, ev.isAccessible g n s = g.isAccessible n) (hst : st ≠ .sweep) :
    f.taint.Bars f.graph := by
  intro n hn hclosed
  obtain ⟨folds, hrecords⟩ := h.records
  obtain ⟨hcontains, hclosed⟩ := hrecords.accounts.isAccessible_eq_false hn hclosed
  exact (hrecords.closed_of_not_isAccessible haccess hcontains hclosed).2 hst

/-- The taint was computed when a pass began, on the way to this moment of the run. -/
def BeganWith (ev : Evaluator σ) (opts : Options) (g : Graph) (s : Session σ)
    (m : Stage × Folding σ) (t : Taint) : Prop :=
  ∃ st₀ f₀ st₁, g.Passes ev opts s st₀ f₀ ∧ Step ev opts (st₀, f₀) (st₁, f₀.refreshTaint ev) ∧
    Reaches ev opts (st₁, f₀.refreshTaint ev) m ∧ t = (f₀.refreshTaint ev).taint

/-- From the first pass on, the taint is the one that was computed when a pass began. -/
theorem Passes.beganWith (h : g.Passes ev opts s st f) (hst : st ≠ .sweep) :
    g.BeganWith ev opts s (st, f) f.taint := by
  refine h.invariant_of_passes (P := fun st f =>
    st ≠ .sweep → g.BeganWith ev opts s (st, f) f.taint) ?_ ?_ hst
  · exact fun _ hst => absurd rfl hst
  · intro st₂ f₂ st₃ f₃ hpasses htaint hstep _
    rcases hstep.taint with rfl | ⟨hst₂, -, hsame⟩
    · exact ⟨st₂, f₂, st₃, hpasses, hstep, Relation.ReflTransGen.refl, rfl⟩
    · obtain ⟨st₀, f₀, st₁, hbegin, hfirst, hreaches, htaint⟩ := htaint hst₂
      exact ⟨st₀, f₀, st₁, hbegin, hfirst, hreaches.tail hstep, hsame.trans htaint⟩

/-- A stale taint does not block too little.  Whenever it is asked within a pass whether a rule may
be folded or deleted, the taint is the one of the beginning of the pass; and what may be folded with
it may be folded with a taint that is computed anew from the graph and the index as they are. -/
theorem stale_taint_suffices (haccess : ∀ g n s, ev.isAccessible g n s = g.isAccessible n)
    (h : g.Passes ev opts s st f) (hasks : st.Asks f f₁) :
    g.BeganWith ev opts s (st, f) f₁.taint ∧
      ∀ n, f₁.isFoldable opts n = true → (f₁.refreshTaint ev).isFoldable opts n = true := by
  have hst : st ≠ .sweep := by
    rintro rfl
    cases hasks
  obtain ⟨⟨hgraph, htaint⟩, stale, hf₁⟩ := h.consistent.asks hasks
  constructor
  · rw [htaint]
    exact h.beganWith hst
  · intro n hn
    have hbars : f₁.taint.Bars f₁.graph := by
      rw [hgraph, htaint]
      exact h.bars haccess hst
    have hincludes := hf₁.covers.includes hf₁.tracks.sound hbars
    rw [← funext fun n => haccess f₁.graph n f₁.state] at hincludes
    exact Folding.isFoldable_refreshTaint hincludes hn

/-- A plan for the case that it rains, the weather, a trip that takes place when it is dry, and a
constant. -/
def excursion : Graph where
  rules := [
    { name := ⟨"plan", 0⟩,
      expr := some (.contextual (.ref ⟨"trip", 2⟩)
        [(⟨"rain", 1⟩, .const { value := .bool true })]) },
    { name := ⟨"rain", 1⟩, expr := some (.const { value := .bool false }) },
    { name := ⟨"trip", 2⟩,
      expr := some (.op .eq (.ref ⟨"rain", 1⟩) (.const { value := .bool false })) },
    { name := ⟨"wind", 3⟩, expr := some (.const { value := .bool true }) }]
  increasing := by decide

/-- Once the plan of the excursion is folded, its override is gone.  The wind may be folded with the
taint in use and with a new one, the trip only with a new one. -/
theorem stale_taint_suffices_excursion :
    ∃ f, excursion.Passes .interpreter {} { state := () }
        (.visit ⟨4, 1, [⟨"rain", 1⟩, ⟨"trip", 2⟩, ⟨"wind", 3⟩]⟩) f ∧
      excursion.BeganWith .interpreter {} { state := () }
        (.visit ⟨4, 1, [⟨"rain", 1⟩, ⟨"trip", 2⟩, ⟨"wind", 3⟩]⟩, f) f.taint ∧
      f.isFoldable {} ⟨"wind", 3⟩ = true ∧
      (f.refreshTaint .interpreter).isFoldable {} ⟨"wind", 3⟩ = true ∧
      f.isFoldable {} ⟨"trip", 2⟩ = false ∧
      (f.refreshTaint .interpreter).isFoldable {} ⟨"trip", 2⟩ = true := by
  have hrun : (excursion.begun? .interpreter {} { state := () }).any (fun f =>
      !f.isDone ⟨"plan", 0⟩ && f.isFoldable {} ⟨"plan", 0⟩ &&
        match foldRule .interpreter {} ⟨"plan", 0⟩ f with
        | .error _ _ => false
        | .ok done f => done && f.isFoldable {} ⟨"wind", 3⟩ && !f.isFoldable {} ⟨"trip", 2⟩ &&
            (f.refreshTaint .interpreter).isFoldable {} ⟨"trip", 2⟩) = true := by
    decide +kernel
  obtain ⟨f, hf, hrun⟩ := (Option.any_eq_true _ _).mp hrun
  obtain ⟨hdue, hrun⟩ := Bool.and_eq_true_iff.mp hrun
  have hdue : f.Due {} ⟨"plan", 0⟩ := by simpa [Folding.Due] using hdue
  have hyields := Folding.yields_foldRule .interpreter hdue 4 0
    [⟨"rain", 1⟩, ⟨"trip", 2⟩, ⟨"wind", 3⟩]
  cases hfold : foldRule .interpreter {} ⟨"plan", 0⟩ f with
  | error e f' =>
      rw [hfold] at hrun
      cases hrun
  | ok done f' =>
      rw [hfold] at hrun hyields
      simp only [Bool.and_eq_true, Bool.not_eq_true'] at hrun
      obtain ⟨⟨⟨rfl, hwind⟩, htrip⟩, hnew⟩ := hrun
      have h := (passes_of_begun? hf).trans hyields
      obtain ⟨hbegan, hsuffices⟩ := stale_taint_suffices (fun _ _ _ => rfl) h .visit
      exact ⟨f', h, hbegan, hwind, hsuffices _ hwind, htrip, hnew⟩

end Graph

end RuleGraph
