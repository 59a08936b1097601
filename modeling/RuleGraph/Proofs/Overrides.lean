import RuleGraph.Proofs.Faithful

/-! # Rules that are overridden

    While a rule overrides another one, the rules that depend on the overridden
    one have two values: one inside of the contextual block, and one outside.
    So none of them may be folded, except for the rule with the block.

    * A step folds or deletes foldable rules only (`Step.foldable_of_touches`),
      and what these depend on is overridden by themselves at most.  This
      protects what a contextual rule overrides at the root of its value.  In a
      shallow graph there are no other blocks, and the graph stays shallow.
    * The index has a link to every overridden rule, wherever the block stands,
      so it is not deleted (`Step.contains_of_overridesWithin`).
    * But blocks further down, and blocks in defaults, do not keep the rules
      that depend on the overridden one from being folded, with the value that
      they have outside (`nested_override_unprotected`). -/

namespace RuleGraph

/-! ## Overrides at any depth -/

/-- The graph has a rule of the first name, in which some contextual block overrides the second
name. -/
def Graph.OverridesWithin (g : Graph) (p c : Name) : Prop :=
  ∃ r, g.get? p = some r ∧ ∃ e ∈ r.exprs, c ∈ e.overrides

namespace Graph

variable {g : Graph} {p c : Name}

/-- In a graph of shallow rules, overriding anywhere is overriding at the root. -/
theorem OverridesWithin.overrides (h : g.OverridesWithin p c) (hg : g.isShallow = true) :
    g.Overrides p c := by
  obtain ⟨r, hr, e, he, hc⟩ := h
  exact ⟨r, hr, Rule.mem_overridden_of_isShallow (isShallow_of_get? hg hr) he hc⟩

theorem Overrides.within (h : g.Overrides p c) : g.OverridesWithin p c := by
  obtain ⟨r, hr, hc⟩ := h
  rw [Rule.overridden] at hc
  cases hexpr : r.expr with
  | none =>
      rw [hexpr] at hc
      exact absurd hc List.not_mem_nil
  | some e =>
      rw [hexpr] at hc
      refine ⟨r, hr, e, ?_, ?_⟩
      · rw [Rule.exprs, hexpr]
        exact List.mem_cons_self ..
      · cases e with
        | contextual e os => exact Expr.mem_overrides_contextual.mpr (Or.inl hc)
        | _ => exact absurd hc List.not_mem_nil

/-- A rule is linked to what it overrides, wherever the block stands. -/
theorem OverridesWithin.hasLink (h : g.OverridesWithin p c) (hne : p ≠ c)
    (hinternal : c.isInternal = false) : g.HasLink p c := by
  obtain ⟨r, hr, e, he, hc⟩ := h
  refine ⟨r, hr, Rule.mem_links.mpr ⟨?_, ?_, hinternal⟩⟩
  · exact Rule.mem_dependencies.mpr ⟨e, he, Expr.mem_dependencies.mpr (Or.inr hc)⟩
  · rw [name_of_get? hr]
    exact hne.symm

end Graph

/-! ## What a step folds or deletes -/

namespace Folding

variable {σ : Type} {ev : Evaluator σ} {opts : Options} {f f' : Folding σ} {st st' : Stage}
  {n p : Name}

/-- The rule is folded or deleted between two moments of a run. -/
def Touches (m m' : Stage × Folding σ) (n : Name) : Prop :=
  (∃ q, (n, q) ∈ m.1.folds m'.1) ∨ m.2.graph.contains n = true ∧ m'.2.graph.contains n = false

/-- A rule that is folded is foldable. -/
theorem Change.foldable_of_folds {g' : Graph} {q : Quantity} (h : Change ev opts f st st' g')
    (hn : (n, q) ∈ st.folds st') : ∃ r, f.graph.Foldable opts f.unfoldable n r := by
  cases h with
  | same rests _ | remove rests _ _ _ _ _ =>
      rw [rests.folds] at hn
      exact absurd hn List.not_mem_nil
  | constant hf hdue _ _ =>
      obtain ⟨rfl, -⟩ := Prod.mk.inj (List.mem_singleton.mp hn)
      obtain ⟨r, hfoldable, -⟩ := foldable_of_isFoldable hf.tracks hf.covers hdue.2
      exact ⟨r, hfoldable⟩
  | leave | copy | mark => exact absurd hn List.not_mem_nil

/-- A rule that is deleted is foldable, and no rule is linked to it. -/
theorem Change.removable_of_contains {g' : Graph} (h : Change ev opts f st st' g')
    (hn : f.graph.contains n = true) (hgone : g'.contains n = false) :
    (∃ r, f.graph.Foldable opts f.unfoldable n r) ∧ ∀ p, ¬f.graph.HasLink p n := by
  cases h with
  | same | leave =>
      rw [hn] at hgone
      cases hgone
  | constant | copy | mark =>
      rw [Graph.modify, Graph.contains_map, hn] at hgone
      cases hgone
  | @remove _ _ m r _ _ hfoldable _ _ hunlinked =>
      obtain rfl : n = m := by
        by_contra hne
        rw [Graph.contains_erase_of_ne hne, hn] at hgone
        cases hgone
      exact ⟨⟨r, hfoldable⟩, hunlinked⟩

/-- Only rules that are foldable according to the graph are folded or deleted. -/
theorem Step.foldable_of_touches (hstep : Step ev opts (st, f) (st', f')) (h : Consistent st f)
    (hn : Touches (st, f) (st', f') n) : ∃ r, f.graph.Foldable opts f.unfoldable n r := by
  rcases hn with ⟨q, hq⟩ | ⟨hcontains, hgone⟩
  · exact (hstep.change h).foldable_of_folds hq
  · exact ((hstep.change h).removable_of_contains hcontains hgone).1

/-- What is overridden anywhere in another rule is not deleted. -/
theorem Step.contains_of_overridesWithin (hstep : Step ev opts (st, f) (st', f'))
    (h : Consistent st f) (hover : f.graph.OverridesWithin p n) (hne : p ≠ n)
    (hinternal : n.isInternal = false) (hn : f.graph.contains n = true) :
    f'.graph.contains n = true := by
  by_contra hgone
  rw [Bool.not_eq_true] at hgone
  obtain ⟨-, hunlinked⟩ := (hstep.change h).removable_of_contains hn hgone
  exact hunlinked p (hover.hasLink hne hinternal)

/-- Is the rule folded if a pass comes to it now? -/
def foldsNow (ev : Evaluator σ) (opts : Options) (f : Folding σ) (n : Name) : Bool :=
  !f.isDone n && f.isFoldable opts n && !f.isIdle n &&
    ((ask ev n).run' f).any Evaluation.isConstant

/-- If a rule is folded when a pass comes to it, there is a step that touches it. -/
theorem exists_step_of_foldsNow {b k : Nat} {rest : List Name}
    (h : f.foldsNow ev opts n = true) :
    ∃ st' f', Step ev opts (.visit ⟨b, k, n :: rest⟩, f) (st', f') ∧
      Touches (.visit ⟨b, k, n :: rest⟩, f) (st', f') n := by
  simp only [foldsNow, Bool.and_eq_true, Bool.not_eq_true'] at h
  obtain ⟨⟨⟨hdone, hfoldable⟩, hidle⟩, hconst⟩ := h
  delta EStateM.run' EStateM.run at hconst
  cases hask : ask ev n f with
  | error e f' =>
      rw [hask] at hconst
      cases hconst
  | ok y f' =>
      rw [hask] at hconst
      exact ⟨_, _, .fold ⟨hdone, hfoldable⟩ hidle hask hconst,
        Or.inl ⟨y.toQuantity, List.mem_singleton_self _⟩⟩

end Folding

/-! ## What is protected, and what is not -/

namespace Graph

open RuleGraph.Folding (Stage Step Touches)

variable {opts : Options} {g : Graph} {s : Session Unit} {st st' : Stage} {f f' : Folding Unit}
  {p n c : Name}

/-- At every moment of a run, the graph descends from the one at the start. -/
theorem Passes.descends (h : g.Passes .interpreter opts s st f) : g.Descends f.graph :=
  h.graph_invariant (foldsTo_restoreStatus g opts.marker).descends fun hchange hg =>
    hg.trans hchange.descends

/-- While a rule overrides another one at the root of its value, no rule but itself that leads to
the overridden one is folded or deleted.  In a graph where contextual blocks stand nowhere else,
this is so for all blocks; and wherever a block stands, what it overrides is not deleted.

Rules lead to each other along links, and links leave out internal names.  So an internal name that
is overridden is led to by no rule but itself, and the rules that depend on it are not protected. -/
theorem override_targets_protected (h : g.Passes .interpreter opts s st f)
    (hstep : Step .interpreter opts (st, f) (st', f')) (hne : p ≠ n) :
    (Touches (st, f) (st', f') n → f.graph.Overrides p c → ¬f.graph.Leads n c) ∧
    (Touches (st, f) (st', f') n → g.isShallow = true → f.graph.OverridesWithin p c →
      ¬f.graph.Leads n c) ∧
    (f.graph.OverridesWithin p n → n.isInternal = false → f.graph.contains n = true →
      f'.graph.contains n = true) := by
  have hroot : Touches (st, f) (st', f') n → f.graph.Overrides p c → ¬f.graph.Leads n c := by
    intro hn hover hleads
    obtain ⟨r, hfoldable⟩ := hstep.foldable_of_touches h.consistent hn
    exact hne (hfoldable.overridden hleads hover)
  refine ⟨hroot, ?_, ?_⟩
  · intro hn hshallow hover
    exact hroot hn (hover.overrides (h.descends.isShallow hshallow))
  · intro hover
    exact hstep.contains_of_overridesWithin h.consistent hover hne

/-- The quote overrides the base of the tariff while the rate is folded.  The rate does not depend
on the base, and the base stays. -/
theorem override_targets_protected_tariff :
    ∃ st f st' f', tariff.Passes .interpreter {} { state := () } st f ∧
      Step .interpreter {} (st, f) (st', f') ∧ Touches (st, f) (st', f') ⟨"rate", 4⟩ ∧
      f.graph.Overrides ⟨"quote", 3⟩ ⟨"base", 0⟩ ∧ ¬f.graph.Leads ⟨"rate", 4⟩ ⟨"base", 0⟩ ∧
      f'.graph.contains ⟨"base", 0⟩ = true := by
  have hrun : (tariff.begun? .interpreter {} { state := () }).any (fun f =>
      !f.isFoldable {} ⟨"base", 0⟩ && !f.isFoldable {} ⟨"discount", 1⟩ &&
      !f.isFoldable {} ⟨"price", 2⟩ && !f.isFoldable {} ⟨"quote", 3⟩ &&
      f.foldsNow .interpreter {} ⟨"rate", 4⟩ && f.graph.contains ⟨"base", 0⟩ &&
      (f.graph.get? ⟨"quote", 3⟩).any fun r => r.overridden.contains ⟨"base", 0⟩) = true := by
    decide +kernel
  obtain ⟨f, hf, hrun⟩ := (Option.any_eq_true _ _).mp hrun
  simp only [Bool.and_eq_true, Bool.not_eq_true'] at hrun
  obtain ⟨⟨⟨⟨⟨⟨hbase, hdiscount⟩, hprice⟩, hquote⟩, hrate⟩, hcontains⟩, hover⟩ := hrun
  obtain ⟨r, hr, hover⟩ := (Option.any_eq_true _ _).mp hover
  have hover : f.graph.Overrides ⟨"quote", 3⟩ ⟨"base", 0⟩ := ⟨r, hr, List.contains_iff_mem.mp hover⟩
  -- the pass comes to the rate after four rules that are not foldable
  have hskip : ∀ {m b k rest}, f.isFoldable {} m = false →
      Step .interpreter {} (.visit ⟨b, k, m :: rest⟩, f) (.visit ⟨b, k, rest⟩, f) := by
    intro m b k rest hm
    refine .skip ?_
    rintro ⟨-, hfoldable⟩
    rw [hm] at hfoldable
    cases hfoldable
  have h : tariff.Passes .interpreter {} { state := () } (.visit ⟨5, 0, [⟨"rate", 4⟩]⟩) f :=
    (passes_of_begun? hf).trans <| .head (hskip hbase) <| .head (hskip hdiscount) <|
      .head (hskip hprice) <| .single (hskip hquote)
  obtain ⟨st', f', hstep, hn⟩ := Folding.exists_step_of_foldsNow hrate
  refine ⟨_, f, st', f', h, hstep, hn, hover, ?_, ?_⟩
  · exact (override_targets_protected h hstep (by decide)).1 hn hover
  · exact (override_targets_protected (c := ⟨"base", 0⟩) h hstep (by decide)).2.2 hover.within
      (by decide +kernel) hcontains

/-- A plan to fetch something, which is given as a value or as a default, the cover that it takes
when it rains, the weather, and an input. -/
def errand (value default : Option Expr) : Graph where
  rules := [
    { name := ⟨"cover", 0⟩, expr := some (.ref ⟨"rain", 2⟩) },
    { name := ⟨"plan", 1⟩, expr := value, default },
    { name := ⟨"rain", 2⟩, expr := some (.const { value := .bool false }) },
    { name := ⟨"wish", 3⟩, question := some "Is it wished for?" }]
  increasing := List.pairwise_map.mp (show List.Pairwise (· < ·)
    ["cover", "plan", "rain", "wish"] from by decide)

/-- The cover in the case that it rains. -/
def errand.inRain : Expr :=
  .contextual (.ref ⟨"cover", 0⟩) [(⟨"rain", 2⟩, .const { value := .bool true })]

/-- Plans in which this case stands in a conjunction, in a comparison, in a condition, in another
block and in the default. -/
def errand.plans : List (Option Expr × Option Expr) := [
  (some (.all [inRain, .ref ⟨"wish", 3⟩]), none),
  (some (.op .eq inRain (.ref ⟨"wish", 3⟩)), none),
  (some (.cond (.ref ⟨"wish", 3⟩) inRain (.const { value := .bool false })), none),
  (some (.contextual inRain [(⟨"wish", 3⟩, .const { value := .bool true })]), none),
  (none, some inRain)]

/-- Folding that keeps the plan. -/
def errand.options : Options where
  keep := some fun r => r.name.text == "plan"

/-- The situation in which it is wished for. -/
def errand.wished : Situation :=
  (∅ : Situation).insert ⟨"wish", 3⟩ (.const { value := .bool true })

/-- A block that does not stand at the root of a value protects nothing but the rule that it
overrides.  The cover of an errand is folded while the plan overrides the weather that it depends
on, and this changes the value of the plan. -/
theorem nested_override_unprotected :
    errand.plans.Forall fun plan =>
      (∃ st f st' f',
        (errand plan.1 plan.2).Passes .interpreter errand.options { state := () } st f ∧
        Step .interpreter errand.options (st, f) (st', f') ∧
        f.graph.OverridesWithin ⟨"plan", 1⟩ ⟨"rain", 2⟩ ∧
        f.graph.Leads ⟨"cover", 0⟩ ⟨"rain", 2⟩ ∧ Touches (st, f) (st', f') ⟨"cover", 0⟩) ∧
      ∃ g', (errand plan.1 plan.2).fold errand.options = .ok g' ∧
        ((errand plan.1 plan.2).evaluate ⟨"plan", 1⟩ errand.wished).toOption.any
          (·.value = .bool true) = true ∧
        (g'.evaluate ⟨"plan", 1⟩ errand.wished).toOption.any (·.value = .bool false) = true := by
  have hrun : ∀ e ∈ errand.plans,
      ((errand e.1 e.2).begun? .interpreter errand.options { state := () }).any (fun f =>
        f.foldsNow .interpreter errand.options ⟨"cover", 0⟩ &&
        (f.graph.get? ⟨"plan", 1⟩).any (fun r =>
          r.exprs.any fun e => e.overrides.contains ⟨"rain", 2⟩) &&
        (f.graph.get? ⟨"cover", 0⟩).any fun r => r.links.contains ⟨"rain", 2⟩) = true := by
    decide +kernel
  have hvalue : ∀ e ∈ errand.plans,
      ((errand e.1 e.2).fold errand.options).toOption.any (fun g' =>
        ((errand e.1 e.2).evaluate ⟨"plan", 1⟩ errand.wished).toOption.any
          (·.value = .bool true) &&
        (g'.evaluate ⟨"plan", 1⟩ errand.wished).toOption.any (·.value = .bool false)) = true := by
    decide +kernel
  rw [List.forall_iff_forall_mem]
  intro e he
  constructor
  · obtain ⟨f, hf, hrun⟩ := (Option.any_eq_true _ _).mp (hrun e he)
    simp only [Bool.and_eq_true] at hrun
    obtain ⟨⟨hfolds, hover⟩, hlink⟩ := hrun
    obtain ⟨r, hr, hover⟩ := (Option.any_eq_true _ _).mp hover
    obtain ⟨e', he', hc⟩ := List.any_eq_true.mp hover
    obtain ⟨r', hr', hlink⟩ := (Option.any_eq_true _ _).mp hlink
    obtain ⟨st', f', hstep, hn⟩ := Folding.exists_step_of_foldsNow hfolds
    exact ⟨_, f, st', f', passes_of_begun? hf, hstep,
      ⟨r, hr, e', he', List.contains_iff_mem.mp hc⟩,
      Relation.ReflTransGen.single ⟨r', hr', Std.ExtTreeSet.contains_iff_mem.mp hlink⟩, hn⟩
  · obtain ⟨g', hfold, hg'⟩ := exists_fold_of_any (hvalue e he)
    exact ⟨g', hfold, Bool.and_eq_true_iff.mp hg'⟩

end Graph

end RuleGraph
