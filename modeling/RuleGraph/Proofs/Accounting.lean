import RuleGraph.Proofs.Protection

/-! # Every constant is accounted for

    A folded graph tells by the statuses of its rules what was done to them.  A
    rule that is marked as fully folded is the constant that the evaluator gave
    for it; a rule that is marked as partially folded has constants in place of
    references; and a rule without a mark is as it was.

    `Graph.Accounts` has half of this: whatever stands in place of a reference
    is the constant of a folded rule.  The other half is that no reference to a
    folded rule is forgotten (`Graph.Copied`).  While a constant is copied, the
    rules that still refer to it are among the parents that are left. -/

namespace RuleGraph

/-- How the status of the rule `r'` of a folded graph accounts for what became of the rule `r`, if
rules were folded to the constants `k`. -/
inductive Rule.AccountsFor (opts : Options) (k : Constants) (r r' : Rule) : Prop where
  | fully {q : Quantity} (status : r'.status = .fully) (question : r'.question = none)
      (default : r'.default = none) (folded : k r.name = some q)
      (expr : r'.expr = some (.const q)) (references : r'.references = [])
  | partially (status : r'.status = .partially) (unfolded : k r.name = none)
      (expr : r'.expr = r.expr.map (Expr.fill k.external))
      (default : r'.default = r.default.map (Expr.fill k.external))
      (replaced : ∃ t ∈ r.references, (k.external t).isSome = true)
  | unset (status : r'.status = .unset) (unfolded : k r.name = none) (expr : r'.expr = r.expr)
      (default : r'.default = r.default)
      (clean : opts.avoids r' = false → ∀ t ∈ r'.references, k.external t = none)

/-- A rule whose expressions have no reference nodes refers to nothing. -/
theorem Rule.any_hasReferences_eq_false {r : Rule} :
    r.exprs.any Expr.hasReferences = false ↔ r.references = [] := by
  rw [references, List.flatMap_eq_nil_iff, List.any_eq_false]
  simp only [Bool.not_eq_true]
  exact forall₂_congr fun e _ => Expr.hasReferences_eq_false

namespace Graph

open RuleGraph.Folding (Stage Step Change)

variable {σ : Type} {ev : Evaluator σ} {opts : Options} {g g' : Graph} {s s' : Session σ}
  {folds : List (Name × Quantity)} {st st' : Stage} {f : Folding σ} {n : Name}

/-! ## No reference is forgotten -/

/-- A rule that is not avoided refers to a folded rule only as long as the constant of that rule is
yet to be copied into it. -/
def Copied (opts : Options) (folds : List (Name × Quantity)) (st : Stage) (g' : Graph) : Prop :=
  ∀ p r, g'.get? p = some r → opts.avoids r = false → ∀ t ∈ r.references,
    ((Constants.ofList folds).external t).isSome = true → st.target = some t ∧ p ∈ st.parents

/-- A rule is folded: the rules that refer to it are the parents that its constant is to be copied
into. -/
theorem Copied.constant {pass pass' : Folding.Pass} {q : Quantity}
    (h : Copied opts folds (.visit pass) f.graph) (hf : f.UpToDate none)
    (hfoldable : f.isFoldable opts n = true) :
    Copied opts ((n, q) :: folds) (.substitute pass' n q (f.refs.parentsOf n))
      (f.graph.modify n fun r => { r with expr := some (.const q) }) := by
  intro p r' hr' havoids t ht hsome
  rcases of_get?_modify hr' (fun _ h => h) with ⟨rfl, r, hr, rfl⟩ | ⟨hp, hold⟩
  · -- a folded rule has no references
    obtain ⟨r₁, hr₁, -, hinput, -⟩ := Folding.isFoldable_iff.mp hfoldable
    obtain rfl : r = r₁ := Option.some.inj (hr.symm.trans hr₁)
    rw [show _ = [] from Rule.references_const hinput] at ht
    cases ht
  · by_cases htn : t = n
    · subst htn
      refine ⟨rfl, References.mem_parentsOf.mpr (hf.tracks.sound.transposed.mpr ?_)⟩
      obtain ⟨q, hq⟩ := Option.isSome_iff_exists.mp hsome
      have hinternal := (Constants.external_eq_some.mp hq).1
      refine hf.tracks.complete ⟨r', hold, Rule.mem_links.mpr ⟨?_, ?_, hinternal⟩⟩
      · exact Rule.mem_dependencies_of_references ht
      · rw [name_of_get? hold]
        exact hp.symm
    · have hsome' : ((Constants.ofList folds).external t).isSome = true := by
        rw [← Constants.external_ofList_cons_of_ne htn]
        exact hsome
      cases (h p r' hold havoids t ht hsome').1

/-- The constant is copied into the first parent, which then refers to the folded rule no more. -/
theorem Copied.copy {pass : Folding.Pass} {p : Name} {q : Quantity} {ps : List Name} {r : Rule}
    (h : Copied opts folds (.substitute pass n q (p :: ps)) g') (hr : g'.get? p = some r)
    (havoids : opts.avoids r = false) :
    Copied opts folds (.substitute pass n q ps) (g'.modify p fun _ =>
      (r.subst n (.const q)).markReplaced (r.references.count n)) := by
  intro m r' hr' havoids' t ht hsome
  have hname : ((r.subst n (.const q)).markReplaced (r.references.count n)).name = p :=
    (Rule.name_markReplaced_subst ..).trans (name_of_get? hr)
  rcases of_get?_modify hr' (fun _ _ => hname) with ⟨rfl, _, -, rfl⟩ | ⟨hne, hr'⟩
  · rw [Rule.markReplaced_subst] at ht
    obtain ⟨ht, hnone⟩ := Rule.mem_references_fill.mp ht
    have htarget := (h m r hr havoids t ht hsome).1
    rw [if_pos (Option.some.inj htarget).symm] at hnone
    cases hnone
  · obtain ⟨htarget, hm⟩ := h m r' hr' havoids' t ht hsome
    exact ⟨htarget, (List.mem_cons.mp hm).resolve_left hne⟩

/-- Every change forgets no reference, if it depends on the name alone which rules are avoided. -/
theorem Copied.change (h : Copied opts folds st f.graph) (hchange : Change ev opts f st st' g')
    (havoid : ∀ r r' : Rule, r.name = r'.name → opts.avoids r = opts.avoids r') :
    Copied opts (st.folds st' ++ folds) st' g' := by
  cases hchange with
  | same rests _ =>
      rw [rests.folds]
      intro p r' hr' havoids t ht hsome
      have hp := (h p r' hr' havoids t ht hsome).2
      rw [rests.parents] at hp
      cases hp
  | constant hf hdue _ _ => exact h.constant hf hdue.2
  | leave havoided =>
      intro p r' hr' havoids t ht hsome
      obtain ⟨htarget, hp⟩ := h p r' hr' havoids t ht hsome
      refine ⟨htarget, (List.mem_cons.mp hp).resolve_left ?_⟩
      rintro rfl
      rw [havoided r' hr'] at havoids
      cases havoids
  | copy _ _ _ hr havoids => exact h.copy hr havoids
  | remove rests _ _ _ _ _ =>
      rw [rests.folds]
      intro p r' hr' havoids t ht hsome
      have hp := (h p r' (get?_erase_eq_some.mp hr').2 havoids t ht hsome).2
      rw [rests.parents] at hp
      cases hp
  | mark =>
      intro p r' hr' havoids t ht hsome
      rcases of_get?_modify hr' (fun _ h => h) with ⟨rfl, r, hr, rfl⟩ | ⟨_, hr'⟩
      · have hfalse := (havoid r { r with status := .fully } rfl).trans havoids
        cases (h p r hr hfalse t ht hsome).2
      · cases (h p r' hr' havoids t ht hsome).2

/-- At every moment of a run, constants are copied as far as the stage says, if avoiding a rule
depends on its name alone. -/
theorem Records.copied (h : g.Records ev opts s folds st f)
    (havoid : ∀ r r' : Rule, r.name = r'.name → opts.avoids r = opts.avoids r') :
    Copied opts folds st f.graph := by
  refine h.invariant (P := fun folds st f => Copied opts folds st f.graph) ?_ ?_
  · intro u s₁ _ p r _ _ t _ hsome
    rw [Constants.external_eq_none (k := Constants.ofList []) rfl] at hsome
    cases hsome
  · intro folds st₁ f₁ st₂ f₂ hrecords hstep hcopied
    exact hcopied.change (hstep.change hrecords.passes.consistent) havoid

/-- When no rule is being folded, a rule that was not folded and is not avoided has all constants of
folded rules filled in. -/
theorem Accounts.eq_fill_external {r r' : Rule} (h : g.Accounts folds st g')
    (hcopied : Copied opts folds st g') (htarget : st.target = none) (hr : g.get? n = some r)
    (hr' : g'.get? n = some r') (hn : Constants.ofList folds n = none)
    (havoids : opts.avoids r' = false) : r' = r.fill (Constants.ofList folds).external := by
  obtain ⟨r₀, hr₀, hstems⟩ := h.stems hr'
  obtain rfl : r = r₀ := Option.some.inj (hr.symm.trans hr₀)
  cases hstems with
  | constant folded =>
      rw [name_of_get? hr, hn] at folded
      cases folded
  | @filled k within _ =>
      refine Rule.fill_congr ?_
      intro t ht
      cases hk : k t with
      | some q => exact (within hk).symm
      | none =>
          refine (Option.not_isSome_iff_eq_none.mp fun hsome => ?_).symm
          have ht' : t ∈ (r.fill k).references := Rule.mem_references_fill.mpr ⟨ht, hk⟩
          have hfalse := (hcopied n _ hr' havoids t ht' hsome).1
          rw [htarget] at hfalse
          cases hfalse

/-! ## Where constants come from -/

/-- At some moment of folding the graph, the evaluator gives this constant for the rule. -/
def Answers (ev : Evaluator σ) (opts : Options) (g : Graph) (s : Session σ) (n : Name)
    (q : Quantity) : Prop :=
  ∃ st f y s', g.Passes ev opts s st f ∧ ev.ask f.graph n f.toSession = .ok y s' ∧
    y.isConstant = true ∧ y.toQuantity = q

/-- Every constant that a rule was folded to was an answer of the evaluator. -/
theorem Records.answers (h : g.Records ev opts s folds st f) :
    ∀ t q, (t, q) ∈ folds → g.Answers ev opts s t q := by
  refine h.invariant (P := fun folds _ _ => ∀ t q, (t, q) ∈ folds → g.Answers ev opts s t q) ?_ ?_
  · intro u s₁ _ t q ht
    cases ht
  · intro folds st₁ f₁ st₂ f₂ hrecords hstep hanswers t q ht
    have hpasses := hrecords.passes
    have hchange := hstep.change hpasses.consistent
    generalize f₂.graph = g₂ at hchange
    cases hchange with
    | same rests _ | remove rests _ _ _ _ _ =>
        rw [rests.folds] at ht
        exact hanswers t q ht
    | constant _ _ hanswer hconstant =>
        rcases List.mem_cons.mp ht with heq | ht
        · cases heq
          exact ⟨_, f₁, _, _, hpasses, hanswer, hconstant, rfl⟩
        · exact hanswers t q ht
    | leave _ | copy _ _ _ _ _ | mark => exact hanswers t q ht

/-! ## Statuses -/

/-- When all links of a folded rule are dropped, nothing in it refers to another rule. -/
theorem Passes.not_hasReferences {pass : Folding.Pass} {r : Rule}
    (h : g.Passes ev opts s (.prune pass n []) f) (hr : f.graph.get? n = some r) :
    r.exprs.any Expr.hasReferences = false := by
  obtain ⟨folds, hrecords⟩ := h.records
  obtain ⟨r₀, hr₀, hstems⟩ := hrecords.accounts.stems hr
  have hsome := hrecords.accounts.target (n := n) rfl
  cases hstems with
  | filled _ unfolded =>
      rw [name_of_get? hr₀] at unfolded
      rw [unfolded] at hsome
      cases hsome
  | constant _ hinput => exact Rule.any_hasReferences_eq_false.mpr (Rule.references_const hinput)

/-- What the status of a rule says when a run is over, if no rule had a status at its beginning. -/
theorem Accounts.accountsFor {r r' : Rule} (h : g.Accounts folds .done g')
    (hcopied : Copied opts folds .done g') (hr : g.get? n = some r) (hunset : r.status = .unset)
    (hr' : g'.get? n = some r') (havoided : opts.avoids r' = true → r' = r) :
    r.AccountsFor opts (.ofList folds) r' := by
  cases hn : Constants.ofList folds n with
  | some q =>
      have hfully := (h.fully hr' (Option.isSome_of_eq_some hn)).resolve_left nofun
      obtain ⟨r₀, hr₀, hstems⟩ := h.stems hr'
      obtain rfl : r = r₀ := Option.some.inj (hr.symm.trans hr₀)
      cases hstems with
      | filled _ unfolded =>
          rw [name_of_get? hr, hn] at unfolded
          cases unfolded
      | constant folded hinput =>
          exact .fully hfully (Rule.question_eq_none hinput) (Rule.default_eq_none hinput) folded
            rfl (Rule.references_const hinput)
  | none =>
      have hunfolded : Constants.ofList folds r.name = none := by
        rw [name_of_get? hr]
        exact hn
      cases havoids : opts.avoids r' with
      | true =>
          obtain rfl := havoided havoids
          refine .unset hunset hunfolded rfl rfl fun hfalse => ?_
          rw [havoids] at hfalse
          cases hfalse
      | false =>
          obtain rfl := h.eq_fill_external hcopied rfl hr hr' hn havoids
          by_cases hreplaced : ∃ t ∈ r.references,
              ((Constants.ofList folds).external t).isSome = true
          · exact .partially (if_pos ⟨hunset, hreplaced⟩) hunfolded rfl rfl hreplaced
          · have hnone : ∀ t ∈ r.references, (Constants.ofList folds).external t = none := by
              intro t ht
              exact Option.not_isSome_iff_eq_none.mp fun hsome => hreplaced ⟨t, ht, hsome⟩
            rw [Rule.fill_of_none hnone]
            exact .unset hunset hunfolded rfl rfl fun _ => hnone

/-- Every constant in a folded graph is accounted for by statuses.  No rule is folded twice, each to
a constant that the evaluator gave for it, and the status of every rule that is left tells what
became of it.  Nothing in a rule refers to another one by the time that it is marked as fully
folded. -/
theorem statuses_account_for_constants
    (hunset : ∀ r ∈ g.rules, r.status = .unset ∧ r.recordedStatus opts.marker = none)
    (havoid : ∀ r r' : Rule, r.name = r'.name → opts.avoids r = opts.avoids r')
    (h : g.foldWith ev opts s = .ok g' s') :
    (∃ folds f, g.Records ev opts s folds .done f ∧ f.graph = g' ∧
      (folds.map Prod.fst).Nodup ∧ (∀ t q, (t, q) ∈ folds → g.Answers ev opts s t q) ∧
      ∀ r' ∈ g'.rules, ∃ r ∈ g.rules, r.name = r'.name ∧ r.AccountsFor opts (.ofList folds) r') ∧
    ∀ pass n f r, g.Passes ev opts s (.prune pass n []) f → f.graph.get? n = some r →
      r.exprs.any Expr.hasReferences = false := by
  refine ⟨?_, fun pass n f r => Passes.not_hasReferences⟩
  obtain ⟨f, hpasses, rfl⟩ := passes_of_foldWith h
  obtain ⟨folds, hrecords⟩ := hpasses.records
  have haccounts := hrecords.accounts
  have hrestore : g.restoreStatus opts.marker = g :=
    restoreStatus_eq_self fun r hr => (hunset r hr).2
  rw [hrestore] at haccounts
  refine ⟨folds, f, hrecords, rfl, haccounts.nodup, hrecords.answers, ?_⟩
  intro r' hr'
  obtain ⟨r, hr, hstems⟩ := haccounts.stems (get?_name_of_mem hr')
  refine ⟨r, mem_of_get? hr, name_of_get? hr, ?_⟩
  refine haccounts.accountsFor (hrecords.copied havoid) hr (hunset r (mem_of_get? hr)).1
    (get?_name_of_mem hr') ?_
  intro havoids
  rw [← havoid r r' (name_of_get? hr)] at havoids
  have hsame := hrecords.get?_of_avoids (hrestore.symm ▸ hr) havoids
  exact Option.some.inj ((get?_name_of_mem hr').symm.trans hsame)

/-- The statuses of the folded household account for its constants: the rent was folded, and its
constant was copied into the budget, but not into the draft. -/
theorem statuses_account_for_household :
    ∃ g' s' folds f, household.foldWith .interpreter household.options { state := () } =
        .ok g' s' ∧ f.graph = g' ∧
      household.Records .interpreter household.options { state := () } folds .done f ∧
      g'.rules.map (fun r => (r.name.text, r.status)) =
        [("budget", .partially), ("draft", .unset), ("files", .partially),
          ("files . note", .partially), ("heating", .unset), ("rent", .fully)] ∧
      (∀ t q, (t, q) ∈ folds →
        household.Answers .interpreter household.options { state := () } t q) ∧
      ∀ r' ∈ g'.rules, ∃ r ∈ household.rules, r.name = r'.name ∧
        r.AccountsFor household.options (.ofList folds) r' := by
  have hstatuses : (household.fold household.options).toOption.any (fun g' =>
      g'.rules.map (fun r => (r.name.text, r.status)) =
        [("budget", .partially), ("draft", .unset), ("files", .partially),
          ("files . note", .partially), ("heating", .unset), ("rent", .fully)]) = true := by
    decide +kernel
  have hunset : ∀ r ∈ household.rules,
      r.status = .unset ∧ r.recordedStatus household.options.marker = none := by decide +kernel
  obtain ⟨g', hfold, hstatuses⟩ := exists_fold_of_any hstatuses
  obtain ⟨s', hwith⟩ := foldWith_of_fold hfold
  obtain ⟨⟨folds, f, hrecords, hf, -, hanswers, haccounts⟩, -⟩ :=
    statuses_account_for_constants hunset household.avoids_of_name hwith
  exact ⟨g', s', folds, f, hwith, hf, hrecords, of_decide_eq_true hstatuses, hanswers, haccounts⟩

end Graph

end RuleGraph
