import RuleGraph.Proofs.Faithful
import RuleGraph.Proofs.History

/-! # Protected rules

    A rule that may never be folded is spared by a run: it is not folded, it is
    not deleted, and all that can happen to it is that constants are filled in
    (`Accounts.get?_of_spared`).  This module says which rules are spared.

    * Unfoldable rules, and the rules that depend on one.  The links through
      which a rule depends on an unfoldable one lead through spared rules only,
      and such links stay: what is filled in are constants of folded rules
      (`Accounts.leads_of_spared`).
    * Inputs, and rules that cannot be accessed.  Whether a rule can be accessed
      is decided by private rules, which are spared themselves.

    Avoided rules do not change at all, and rules to keep are not deleted. -/

namespace RuleGraph

namespace Graph

open RuleGraph.Folding (Stage Step Change)

variable {σ : Type} {ev : Evaluator σ} {opts : Options} {g g' : Graph} {s s' : Session σ}
  {folds : List (Name × Quantity)} {st st' : Stage} {f : Folding σ} {n : Name}

/-! ## Spared rules -/

/-- The rule was not folded, and it is still there if it was a rule of `g`. -/
structure Spared (g : Graph) (folds : List (Name × Quantity)) (g' : Graph) (n : Name) : Prop where
  unfolded : Constants.ofList folds n = none
  contains : g.contains n = true → g'.contains n = true

theorem spared_start (g : Graph) (n : Name) : g.Spared [] g n := ⟨rfl, id⟩

/-- A change spares a rule that cannot be folded. -/
theorem Spared.change (h : g.Spared folds f.graph n) (hchange : Change ev opts f st st' g')
    (hn : ∀ r, f.graph.Foldable opts f.unfoldable n r → f.taint.isAccessible n = false) :
    g.Spared (st.folds st' ++ folds) g' n := by
  have hmodify : ∀ {m change}, g.contains n = true →
      (f.graph.modify m change).contains n = true := by
    intro m change hg
    rw [Graph.modify, contains_map]
    exact h.contains hg
  have hne : ∀ {m r}, f.graph.Foldable opts f.unfoldable m r → f.taint.isAccessible m = true →
      n ≠ m := by
    rintro m r hfoldable haccessible rfl
    rw [hn r hfoldable] at haccessible
    cases haccessible
  cases hchange with
  | same rests _ =>
      rw [rests.folds]
      exact h
  | constant hf hdue _ _ =>
      obtain ⟨r, hfoldable, haccessible⟩ :=
        Folding.foldable_of_isFoldable hf.tracks hf.covers hdue.2
      refine ⟨?_, hmodify⟩
      exact (Constants.ofList_cons_of_ne (hne hfoldable haccessible)).trans h.unfolded
  | leave _ => exact h
  | copy _ _ _ _ _ => exact ⟨h.unfolded, hmodify⟩
  | remove rests _ hfoldable haccessible _ _ =>
      rw [rests.folds]
      refine ⟨h.unfolded, ?_⟩
      rw [contains_erase_of_ne (hne hfoldable haccessible)]
      exact h.contains
  | mark => exact ⟨h.unfolded, hmodify⟩

/-- All that happens to a rule that is spared is that constants of folded rules are filled in. -/
theorem Accounts.get?_of_spared {r : Rule} (h : g.Accounts folds st g')
    (hn : g.Spared folds g' n) (hr : g.get? n = some r) :
    ∃ k : Constants, k.Within (Constants.ofList folds).external ∧ g'.get? n = some (r.fill k) := by
  have hg : g.contains n = true := by
    rw [Graph.contains, hr]
    rfl
  obtain ⟨r', hr'⟩ := Option.isSome_iff_exists.mp (hn.contains hg)
  obtain ⟨r₀, hr₀, hstems⟩ := h.stems hr'
  obtain rfl : r = r₀ := Option.some.inj (hr.symm.trans hr₀)
  cases hstems with
  | @filled k within _ => exact ⟨k, within, hr'⟩
  | constant folded =>
      rw [name_of_get? hr, hn.unfolded] at folded
      cases folded

/-! ## The veto of unfoldable rules -/

/-- The rule is unfoldable, or depends on a rule that is. -/
def Vetoed (unfoldable : NameSet) (g : Graph) (n : Name) : Prop := ∃ c ∈ unfoldable, g.Leads n c

/-- As long as all rules that depend on an unfoldable one are spared, they go on depending on it. -/
theorem Accounts.leads_of_spared {unfoldable : NameSet} {c : Name} (h : g.Accounts folds st g')
    (hspared : ∀ m, g.Vetoed unfoldable m → g.Spared folds g' m) (hc : c ∈ unfoldable)
    (hleads : g.Leads n c) : g'.Leads n c := by
  induction hleads using Relation.ReflTransGen.head_induction_on with
  | refl => exact Relation.ReflTransGen.refl
  | @head n d hlink hrest ih =>
      have hn := hspared n ⟨c, hc, Relation.ReflTransGen.head hlink hrest⟩
      have hd := hspared d ⟨c, hc, hrest⟩
      obtain ⟨r, hr, hmem⟩ := hlink
      obtain ⟨k, within, hr'⟩ := h.get?_of_spared hn hr
      have hkd : k d = none := within.eq_none (Constants.external_eq_none hd.unfolded)
      exact Relation.ReflTransGen.head ⟨_, hr', Rule.mem_links_fill hkd hmem⟩ ih

/-- A run spares the rules that are unfoldable or depend on such a rule. -/
theorem Records.spared_of_vetoed (h : g.Records ev opts s folds st f)
    (hn : (g.restoreStatus opts.marker).Vetoed f.unfoldable n) :
    (g.restoreStatus opts.marker).Spared folds f.graph n := by
  refine h.invariant (P := fun folds _ f =>
    ∀ m, (g.restoreStatus opts.marker).Vetoed f.unfoldable m →
      (g.restoreStatus opts.marker).Spared folds f.graph m) ?_ ?_ n hn
  · exact fun _ m _ => spared_start _ m
  · intro folds st₁ f₁ st₂ f₂ hrecords hstep hspared m hm
    rw [hstep.unfoldable] at hm
    refine (hspared m hm).change (hstep.change hrecords.passes.consistent) ?_
    intro r hfoldable
    obtain ⟨c, hc, hleads⟩ := hm
    exact absurd hc (hfoldable.unfoldable (hrecords.accounts.leads_of_spared hspared hc hleads))

theorem Leads.restoreStatus {c : Name} (h : g.Leads n c) (marker : String) :
    (g.restoreStatus marker).Leads n c :=
  Relation.ReflTransGen.mono (fun _ _ hlink => hlink.restoreStatus marker) _ _ h

/-- The veto of unfoldable rules is permanent, and passes on to all rules that depend on one.  Such
a rule is never folded and stays, all that happens to its value is that references to other rules
are replaced by constants, and it is marked as fully folded only if it was so before. -/
theorem vetoed_rule_endures (h : g.foldWith ev opts s = .ok g' s') :
    ∃ u s₁, (g.restoreStatus opts.marker).unfoldable ev s = .ok u s₁ ∧
      ∀ n r, (g.restoreStatus opts.marker).get? n = some r → g.Vetoed u n →
        (∀ st f, g.Passes ev opts s st f → st.target ≠ some n) ∧
        ∃ r' k, g'.get? n = some r' ∧ (∀ m, g.Vetoed u m → k m = none) ∧
          r'.expr = r.expr.map (Expr.fill k) ∧ (r'.status = .fully → r.status = .fully) := by
  obtain ⟨f, hpasses, rfl⟩ := passes_of_foldWith h
  obtain ⟨s₁, hu⟩ := hpasses.unfoldable
  have hveto : ∀ {m}, g.Vetoed f.unfoldable m →
      (g.restoreStatus opts.marker).Vetoed f.unfoldable m := by
    rintro m ⟨c, hc, hleads⟩
    exact ⟨c, hc, hleads.restoreStatus _⟩
  refine ⟨f.unfoldable, s₁, hu, ?_⟩
  intro n r hr hn
  constructor
  · intro st₂ f₂ hpasses₂ htarget
    obtain ⟨folds, hrecords⟩ := hpasses₂.records
    obtain ⟨s₂, hu₂⟩ := hpasses₂.unfoldable
    obtain ⟨hu₂, -⟩ := EStateM.Result.ok.inj (hu.symm.trans hu₂)
    rw [hu₂] at hveto hn
    have hsome := hrecords.accounts.target htarget
    rw [(hrecords.spared_of_vetoed (hveto hn)).unfolded] at hsome
    cases hsome
  · obtain ⟨folds, hrecords⟩ := hpasses.records
    obtain ⟨k, within, hr'⟩ :=
      hrecords.accounts.get?_of_spared (hrecords.spared_of_vetoed (hveto hn)) hr
    refine ⟨r.fill k, k, hr', ?_, rfl, Rule.status_fill_eq_fully.mp⟩
    intro m hm
    exact within.eq_none
      (Constants.external_eq_none (hrecords.spared_of_vetoed (hveto hm)).unfolded)

/-- A choice of colours with one member, and a mixture of that colour with a base. -/
def palette : Graph where
  rules := [
    { name := ⟨"base", 0⟩, expr := some (.const { value := .bool true }) },
    { name := ⟨"mixture", 1⟩, expr := some (.all [.ref ⟨"base", 0⟩, .ref ⟨"paint . red", 3⟩]) },
    { name := ⟨"paint", 2⟩, question := some "Which colour?",
      enumeration := some [⟨"paint . red", 3⟩] },
    { name := ⟨"paint . red", 3⟩, expr := some (.const { value := .bool false }) }]
  increasing := by decide

/-- The mixture of the palette depends on a member of an enumeration.  It is not folded, while the
constant of the base is copied into it. -/
theorem vetoed_mixture_endures :
    ∃ g' s' u s₁ r r', palette.foldWith .interpreter {} { state := () } = .ok g' s' ∧
      (palette.restoreStatus "optimized").unfoldable .interpreter { state := () } = .ok u s₁ ∧
      (palette.restoreStatus "optimized").get? ⟨"mixture", 1⟩ = some r ∧
      palette.Vetoed u ⟨"mixture", 1⟩ ∧ g'.get? ⟨"mixture", 1⟩ = some r' ∧
      (∃ k, r'.expr = r.expr.map (Expr.fill k)) ∧ r'.status = .partially := by
  have hlink : (palette.get? ⟨"mixture", 1⟩).any
      (fun r => r.links.contains ⟨"paint . red", 3⟩) = true := by decide +kernel
  have hpinned : (((palette.restoreStatus "optimized").unfoldable .interpreter).run'
      { state := () }).any (fun u => u.contains ⟨"paint . red", 3⟩) = true := by decide +kernel
  have hpartially : (palette.fold {}).toOption.any (fun g' =>
      (g'.get? ⟨"mixture", 1⟩).any fun r => r.status = .partially) = true := by decide +kernel
  obtain ⟨g', hfold, hpartially⟩ := exists_fold_of_any hpartially
  obtain ⟨s', hwith⟩ := foldWith_of_fold hfold
  obtain ⟨u, s₁, hu, hendures⟩ := vetoed_rule_endures hwith
  obtain ⟨r₀, hr₀, hmem⟩ := (Option.any_eq_true _ _).mp hlink
  have hr := get?_restoreStatus palette "optimized" ⟨"mixture", 1⟩
  rw [hr₀, Option.map_some] at hr
  have hvetoed : palette.Vetoed u ⟨"mixture", 1⟩ := by
    refine ⟨⟨"paint . red", 3⟩, ?_, Relation.ReflTransGen.single ⟨r₀, hr₀, ?_⟩⟩
    · delta EStateM.run' EStateM.run at hpinned
      rw [show _ = _ from hu] at hpinned
      exact Std.ExtTreeSet.contains_iff_mem.mp hpinned
    · exact Std.ExtTreeSet.contains_iff_mem.mp hmem
  obtain ⟨-, r', k, hr', -, hexpr, -⟩ := hendures _ _ hr hvetoed
  rw [hr'] at hpartially
  exact ⟨g', s', u, s₁, _, r', hwith, hu, hr, hvetoed, hr', ⟨k, hexpr⟩,
    of_decide_eq_true hpartially⟩

/-! ## Inputs -/

/-- Inputs are spared throughout a run. -/
theorem Records.spared_of_isInput {r : Rule} (h : g.Records ev opts s folds st f)
    (hr : (g.restoreStatus opts.marker).get? n = some r) (hinput : r.isInput = true) :
    (g.restoreStatus opts.marker).Spared folds f.graph n := by
  refine h.invariant (P := fun folds _ f =>
    (g.restoreStatus opts.marker).Spared folds f.graph n) ?_ ?_
  · exact fun _ => spared_start _ n
  · intro folds st₁ f₁ st₂ f₂ hrecords hstep hspared
    refine hspared.change (hstep.change hrecords.passes.consistent) ?_
    intro r' hfoldable
    obtain ⟨r₀, hr₀, hstems⟩ := hrecords.accounts.stems hfoldable.rule
    obtain rfl : r = r₀ := Option.some.inj (hr.symm.trans hr₀)
    have hfalse := hstems.isInput.symm.trans hfoldable.isInput
    rw [hinput] at hfalse
    cases hfalse

/-! ## Rules that cannot be accessed -/

/-- The graph has a private rule of this name. -/
def IsPrivate (g : Graph) (n : Name) : Prop := ∃ r, g.get? n = some r ∧ r.isPrivate = true

/-- A rule cannot be accessed if it is private, or stands in the namespace of a private rule. -/
theorem isAccessible_eq_false_iff (hn : g.contains n = true) :
    g.isAccessible n = false ↔
      g.IsPrivate n ∨ ∃ m ∈ g.names, m.text ∈ n.namespaces ∧ g.IsPrivate m := by
  have hprivate : ∀ m, (g.get? m).any Rule.isPrivate = true ↔ g.IsPrivate m := fun m =>
    Option.any_eq_true _ _
  rw [isAccessible, hn, Bool.true_and, Bool.and_eq_false_iff, Bool.not_eq_false',
    Bool.not_eq_false', hprivate, List.any_eq_true]
  refine or_congr_right ?_
  constructor
  · rintro ⟨m, hm, hpriv⟩
    obtain ⟨text, htext, hfind⟩ := List.mem_filterMap.mp hm
    obtain ⟨hm, rfl⟩ := find?_eq_some_iff.mp hfind
    exact ⟨m, hm, htext, (hprivate m).mp hpriv⟩
  · rintro ⟨m, hm, htext, hpriv⟩
    exact ⟨m, List.mem_filterMap.mpr ⟨m.text, htext, find?_eq_some_iff.mpr ⟨hm, rfl⟩⟩,
      (hprivate m).mpr hpriv⟩

theorem IsPrivate.contains (h : g.IsPrivate n) : g.contains n = true := by
  obtain ⟨r, hr, -⟩ := h
  rw [Graph.contains, hr]
  rfl

/-- As long as all rules that cannot be accessed are spared, they cannot be accessed. -/
theorem Accounts.isAccessible_of_spared (h : g.Accounts folds st g')
    (hspared : ∀ m, g.contains m = true → g.isAccessible m = false → g.Spared folds g' m)
    (hn : g.contains n = true) (haccess : g.isAccessible n = false) :
    g'.isAccessible n = false := by
  have hprivate : ∀ {m}, g.IsPrivate m → g'.IsPrivate m := by
    intro m hm
    have hspared := hspared m hm.contains ((isAccessible_eq_false_iff hm.contains).mpr (Or.inl hm))
    obtain ⟨r, hr, hpriv⟩ := hm
    obtain ⟨k, -, hr'⟩ := h.get?_of_spared hspared hr
    exact ⟨r.fill k, hr', hpriv⟩
  have hn' := (hspared n hn haccess).contains hn
  rw [isAccessible_eq_false_iff hn']
  refine ((isAccessible_eq_false_iff hn).mp haccess).imp hprivate ?_
  rintro ⟨m, -, htext, hm⟩
  obtain ⟨r', hr', -⟩ := hprivate hm
  exact ⟨m, mem_names_of_get? hr', htext, hprivate hm⟩

/-- A run spares the rules that cannot be accessed, and from its first pass on the taint knows all
of them. -/
theorem Records.closed_of_not_isAccessible (h : g.Records ev opts s folds st f)
    (haccess : ∀ g n s, ev.isAccessible g n s = g.isAccessible n)
    (hn : (g.restoreStatus opts.marker).contains n = true)
    (hclosed : (g.restoreStatus opts.marker).isAccessible n = false) :
    (g.restoreStatus opts.marker).Spared folds f.graph n ∧
      (st ≠ .sweep → f.taint.isAccessible n = false) := by
  refine h.invariant (P := fun folds st f =>
    ∀ m, (g.restoreStatus opts.marker).contains m = true →
      (g.restoreStatus opts.marker).isAccessible m = false →
      (g.restoreStatus opts.marker).Spared folds f.graph m ∧
        (st ≠ .sweep → f.taint.isAccessible m = false)) ?_ ?_ n hn hclosed
  · exact fun _ m _ _ => ⟨spared_start _ m, fun h => absurd rfl h⟩
  · intro folds st₁ f₁ st₂ f₂ hrecords hstep hall m hm hclosed
    obtain ⟨hspared, htaint⟩ := hall m hm hclosed
    constructor
    · by_cases hst : st₁ = .sweep
      · -- the first step of a pass changes nothing but the taint
        subst hst
        cases hstep
        exact hspared
      · exact hspared.change (hstep.change hrecords.passes.consistent) fun _ _ => htaint hst
    · intro _
      rcases hstep.taint with rfl | ⟨hst, -, hsame⟩
      · have hclosed' := hrecords.accounts.isAccessible_of_spared
          (fun m hm hclosed => (hall m hm hclosed).1) hm hclosed
        refine Taint.isAccessible_ofGraph_eq_false.mpr ⟨?_, (haccess ..).trans hclosed'⟩
        obtain ⟨r, hr⟩ := Option.isSome_iff_exists.mp (hspared.contains hm)
        exact mem_names_of_get? hr
      · rw [hsame]
        exact htaint hst

/-- Rules that cannot be accessed are spared throughout a run, if the evaluator decides about the
access as the graph does. -/
theorem Records.spared_of_not_isAccessible (h : g.Records ev opts s folds st f)
    (haccess : ∀ g n s, ev.isAccessible g n s = g.isAccessible n)
    (hn : (g.restoreStatus opts.marker).contains n = true)
    (hclosed : (g.restoreStatus opts.marker).isAccessible n = false) :
    (g.restoreStatus opts.marker).Spared folds f.graph n :=
  (h.closed_of_not_isAccessible haccess hn hclosed).1

/-! ## Avoided rules and rules to keep -/

/-- A run leaves avoided rules as they are. -/
theorem Records.get?_of_avoids {r : Rule} (h : g.Records ev opts s folds st f)
    (hr : (g.restoreStatus opts.marker).get? n = some r) (havoids : opts.avoids r = true) :
    f.graph.get? n = some r := by
  refine (h.invariant (P := fun folds _ f =>
    Constants.ofList folds n = none ∧ f.graph.get? n = some r) ?_ ?_).2
  · exact fun _ => ⟨rfl, hr⟩
  · rintro folds st₁ f₁ st₂ f₂ hrecords hstep ⟨hnone, hrule⟩
    have hne : ∀ {m r'}, f₁.graph.get? m = some r' → opts.avoids r' = false → n ≠ m := by
      rintro m r' hr' hfalse rfl
      obtain rfl : r = r' := Option.some.inj (hrule.symm.trans hr')
      rw [havoids] at hfalse
      cases hfalse
    have haccounts := hrecords.accounts
    have hchange := hstep.change hrecords.passes.consistent
    generalize f₂.graph = g₂ at hchange ⊢
    cases hchange with
    | same rests _ =>
        rw [rests.folds]
        exact ⟨hnone, hrule⟩
    | constant _ hdue _ _ =>
        obtain ⟨r', hr', hfalse, -⟩ := Folding.isFoldable_iff.mp hdue.2
        refine ⟨(Constants.ofList_cons_of_ne (hne hr' hfalse)).trans hnone, ?_⟩
        rw [get?_modify_of_ne (hne hr' hfalse)]
        exact hrule
    | leave _ => exact ⟨hnone, hrule⟩
    | copy _ _ _ hr' hfalse =>
        refine ⟨hnone, ?_⟩
        rw [get?_modify_of_ne (hne hr' hfalse)]
        exact hrule
    | remove rests _ hfoldable _ _ _ =>
        rw [rests.folds, get?_erase_of_ne (hne hfoldable.rule hfoldable.avoids)]
        exact ⟨hnone, hrule⟩
    | @mark _ m =>
        -- the rule that is marked was folded, and this one was not
        have hnm : n ≠ m := by
          rintro rfl
          have hsome := haccounts.target rfl
          rw [hnone] at hsome
          cases hsome
        refine ⟨hnone, ?_⟩
        rw [get?_modify_of_ne hnm]
        exact hrule

/-- A run does not delete rules to keep, if which rules to keep depends on their names only. -/
theorem Passes.contains_of_keeps {r : Rule} (h : g.Passes ev opts s st f)
    (hkeep : ∀ r r' : Rule, r.name = r'.name → opts.keeps r = opts.keeps r')
    (hr : (g.restoreStatus opts.marker).get? n = some r) (hkeeps : opts.keeps r = true) :
    f.graph.contains n = true := by
  refine h.graph_invariant (P := fun g' => g'.contains n = true) ?_ ?_
  · rw [Graph.contains, hr]
    rfl
  · intro f₁ st₁ st₂ g₂ hchange hn
    have hmodify : ∀ {m change}, (f₁.graph.modify m change).contains n = true := by
      intro m change
      rw [Graph.modify, contains_map]
      exact hn
    cases hchange with
    | same | leave => exact hn
    | constant | copy | mark => exact hmodify
    | @remove _ _ m r' _ _ hfoldable _ hfalse _ =>
        have hnm : n ≠ m := by
          rintro rfl
          have hname := (name_of_get? hr).trans (name_of_get? hfoldable.rule).symm
          rw [← hkeep r r' hname, hkeeps] at hfalse
          cases hfalse
        rw [contains_erase_of_ne hnm]
        exact hn

/-! ## What is protected -/

/-- Restoring statuses does not change who may be accessed. -/
theorem isAccessible_restoreStatus (g : Graph) (marker : String) (n : Name) :
    (g.restoreStatus marker).isAccessible n = g.isAccessible n := by
  have hfind : (g.restoreStatus marker).find? = g.find? := by
    funext text
    rw [find?, find?, restoreStatus, map, List.find?_map, Option.map_map]
    rfl
  have hprivate : ∀ m, ((g.restoreStatus marker).get? m).any Rule.isPrivate =
      (g.get? m).any Rule.isPrivate := by
    intro m
    rw [get?_restoreStatus, Option.any_map]
  rw [isAccessible, isAccessible, restoreStatus, contains_map, ← restoreStatus, hfind]
  simp only [hprivate]

/-- Protected rules survive.  Folding leaves a subset of the rules, and of these everything but
their expressions and statuses.  Inputs, rules that cannot be accessed, avoided rules and rules to
keep are among them; inputs and rules that cannot be accessed are never marked as fully folded; and
avoided rules do not change at all. -/
theorem protected_rules_survive
    (haccess : ∀ g n s, ev.isAccessible g n s = g.isAccessible n)
    (havoid : ∀ r r' : Rule, r.name = r'.name → opts.avoids r = opts.avoids r')
    (hkeep : ∀ r r' : Rule, r.name = r'.name → opts.keeps r = opts.keeps r')
    (h : g.foldWith ev opts s = .ok g' s') :
    (∀ r' ∈ g'.rules, ∃ r ∈ g.rules, r.Frames r') ∧
    (∀ r ∈ g.rules, r.isInput = true ∨ g.isAccessible r.name = false ∨ opts.avoids r = true ∨
      opts.keeps r = true → g'.contains r.name = true) ∧
    (∀ n r, (g.restoreStatus opts.marker).get? n = some r →
      r.isInput = true ∨ g.isAccessible n = false →
      ∀ st f r', g.Passes ev opts s st f → f.graph.get? n = some r' → r'.status = .fully →
        r.status = .fully) ∧
    (∀ n r, (g.restoreStatus opts.marker).get? n = some r → opts.avoids r = true →
      g'.get? n = some r) := by
  obtain ⟨f, hpasses, rfl⟩ := passes_of_foldWith h
  obtain ⟨folds, hrecords⟩ := hpasses.records
  have hspared : ∀ {n r folds st f}, g.Records ev opts s folds st f →
      (g.restoreStatus opts.marker).get? n = some r →
      r.isInput = true ∨ g.isAccessible n = false →
      (g.restoreStatus opts.marker).Spared folds f.graph n := by
    intro n r folds st f hrecords hr hprotected
    rcases hprotected with hinput | hclosed
    · exact hrecords.spared_of_isInput hr hinput
    · rw [← isAccessible_restoreStatus g opts.marker] at hclosed
      exact hrecords.spared_of_not_isAccessible haccess (Option.isSome_of_eq_some hr) hclosed
  refine ⟨?_, ?_, ?_, fun n r => hrecords.get?_of_avoids⟩
  · intro r' hr'
    obtain ⟨r, hr, hframes⟩ := hrecords.accounts.frames (get?_name_of_mem hr')
    exact ⟨r, mem_of_get? hr, hframes⟩
  · intro r hr hprotected
    obtain ⟨r₀, hr₀, hname, hinput₀⟩ : ∃ r₀, (g.restoreStatus opts.marker).get? r.name =
        some r₀ ∧ r₀.name = r.name ∧ r₀.isInput = r.isInput := by
      rw [get?_restoreStatus, get?_name_of_mem hr, Option.map_some]
      exact ⟨_, rfl, rfl, rfl⟩
    have hcontains : (g.restoreStatus opts.marker).contains r.name = true :=
      Option.isSome_of_eq_some hr₀
    rcases hprotected with hinput | hclosed | havoids | hkeeps
    · exact (hspared hrecords hr₀ (Or.inl (hinput₀.trans hinput))).contains hcontains
    · exact (hspared hrecords hr₀ (Or.inr hclosed)).contains hcontains
    · have havoids₀ := (havoid r₀ r hname).trans havoids
      exact Option.isSome_of_eq_some (hrecords.get?_of_avoids hr₀ havoids₀)
    · exact hpasses.contains_of_keeps hkeep hr₀ ((hkeep r₀ r hname).trans hkeeps)
  · intro n r hr hprotected st₂ f₂ r' hpasses₂ hr' hfully
    obtain ⟨folds₂, hrecords₂⟩ := hpasses₂.records
    obtain ⟨k, -, hfill⟩ :=
      hrecords₂.accounts.get?_of_spared (hspared hrecords₂ hr hprotected) hr
    obtain rfl : r' = r.fill k := Option.some.inj (hr'.symm.trans hfill)
    exact Rule.status_fill_eq_fully.mp hfully

/-- An input, a private rule with a rule in its namespace, a constant, and four rules that depend on
the constant. -/
def household : Graph where
  rules := [
    { name := ⟨"budget", 0⟩, expr := some (.all [.ref ⟨"rent", 5⟩, .ref ⟨"heating", 3⟩]) },
    { name := ⟨"draft", 1⟩, expr := some (.ref ⟨"rent", 5⟩) },
    { name := ⟨"files", 2⟩, isPrivate := true, expr := some (.ref ⟨"rent", 5⟩) },
    { name := ⟨"files . note", 4⟩, expr := some (.ref ⟨"rent", 5⟩) },
    { name := ⟨"heating", 3⟩, question := some "How is it heated?" },
    { name := ⟨"rent", 5⟩, expr := some (.const { value := .bool true }) }]
  increasing := by decide

/-- Folding that avoids drafts and keeps the budget. -/
def household.options : Options where
  avoid := some fun r => r.name.text == "draft"
  keep := some fun r => r.name.text == "budget"

/-- Whether a rule of the household is avoided depends on its name alone. -/
theorem household.avoids_of_name (r r' : Rule) (h : r.name = r'.name) :
    household.options.avoids r = household.options.avoids r' := by
  show (r.name.text == "draft") = (r'.name.text == "draft")
  rw [h]

/-- All rules of the household but the rent are protected and survive, and its draft stays as it
is. -/
theorem protected_household_survives :
    ∃ g' s', household.foldWith .interpreter household.options { state := () } = .ok g' s' ∧
      (∀ r ∈ household.rules, r.name.text ≠ "rent" →
        (r.isInput = true ∨ household.isAccessible r.name = false ∨
          household.options.avoids r = true ∨ household.options.keeps r = true) ∧
        g'.contains r.name = true) ∧
      g'.get? ⟨"draft", 1⟩ = (household.restoreStatus "optimized").get? ⟨"draft", 1⟩ := by
  have hok : (household.fold household.options).toOption.any (fun _ => true) = true := by
    decide +kernel
  have hprotected : ∀ r ∈ household.rules, r.name.text ≠ "rent" →
      (r.isInput = true ∨ household.isAccessible r.name = false ∨
        household.options.avoids r = true ∨ household.options.keeps r = true) := by
    decide +kernel
  have hdraft : ((household.restoreStatus "optimized").get? ⟨"draft", 1⟩).any
      household.options.avoids = true := by decide +kernel
  obtain ⟨g', hfold, -⟩ := exists_fold_of_any hok
  obtain ⟨s', hwith⟩ := foldWith_of_fold hfold
  have hkeep : ∀ r r' : Rule, r.name = r'.name →
      household.options.keeps r = household.options.keeps r' := by
    intro r r' hname
    show (r.name.text == "budget") = (r'.name.text == "budget")
    rw [hname]
  obtain ⟨-, hsurvive, -, havoided⟩ :=
    protected_rules_survive (fun _ _ _ => rfl) household.avoids_of_name hkeep hwith
  obtain ⟨r, hr, havoids⟩ := (Option.any_eq_true _ _).mp hdraft
  refine ⟨g', s', hwith, ?_, (havoided _ r hr havoids).trans hr.symm⟩
  intro r hr hne
  exact ⟨hprotected r hr hne, hsurvive r hr (hprotected r hr hne)⟩

end Graph

end RuleGraph
