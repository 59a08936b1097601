import RuleGraph.Proofs.Protection
import RuleGraph.Proofs.Termination
import RuleGraph.Proofs.VisitingOrder

/-! # Rules with internal names

    The index of references leaves out internal names, so a rule with such a
    name never counts as referred to.  Its constant is copied nowhere, and
    references do not keep it from being deleted: it goes as soon as a run tries
    to delete it, unless it cannot be folded or is to be kept
    (`Folding.Disposes`).  What refers to it goes on doing so
    (`Graph.Accounts.mem_dependencies_of_isInternal`). -/

namespace RuleGraph

namespace Folding

variable {σ : Type} {ev : Evaluator σ} {opts : Options} {f f' : Folding σ} {st st' : Stage}
  {n : Name}

/-! ## Attempts to delete a rule -/

/-- A run at this stage tries to delete the rule: it comes to the rule and finds it idle, it has
just folded the rule, or it goes over the rules that are left. -/
inductive Tries (opts : Options) (f : Folding σ) (n : Name) : Stage → Prop where
  | idle {b k : Nat} {rest : List Name} (due : f.Due opts n) (isIdle : f.isIdle n = true) :
      Tries opts f n (.visit ⟨b, k, n :: rest⟩)
  | folded {pass : Pass} : Tries opts f n (.prune pass n [])
  | left {total b : Nat} {rest : List Name} : Tries opts f n (.discard total b (n :: rest))

/-- A run at this stage tries to delete the rule, which may be folded and is not to be kept. -/
structure Disposes (opts : Options) (f : Folding σ) (st : Stage) (n : Name) : Prop where
  tries : f.Tries opts n st
  foldable : f.isFoldable opts n = true
  unkept : ∀ r, f.graph.get? n = some r → opts.keeps r = false

/-- The children that are yet to be pruned. -/
def Stage.children : Stage → List Name
  | prune _ _ children => children
  | _ => []

/-- When a rule is tried, the index is not behind. -/
theorem Tries.tracks (ht : f.Tries opts n st) (h : Consistent st f) :
    f.refs.Tracks f.graph none := by
  cases ht with
  | idle | left => exact h.tracks
  | folded =>
      obtain ⟨hf, -, hleft⟩ := h
      exact tracks_of_pruned hf.tracks fun c hc => absurd (hleft c hc) List.not_mem_nil

/-- No rule with an internal name has parents. -/
theorem hasParents_eq_false_of_isInternal (h : f.refs.Tracks f.graph none)
    (hn : n.isInternal = true) : f.refs.hasParents n = false := by
  rw [Bool.eq_false_iff]
  intro hparents
  obtain ⟨p, hp⟩ := h.sound.hasParents_iff.mp hparents
  have hlink : f.graph.HasLink p n := h.exact hp (by simp)
  obtain ⟨r, -, hmem⟩ := hlink
  rw [(Rule.mem_links.mp hmem).2.2] at hn
  cases hn

/-- Where a run disposes of a rule with an internal name, that rule is gone after the next step. -/
theorem Disposes.step (h : f.Disposes opts st n) (ev : Evaluator σ)
    (hconsistent : Consistent st f) (hn : n.isInternal = true) :
    ∃ st' f', Step ev opts (st, f) (st', f') ∧ f'.graph.contains n = false := by
  obtain ⟨htries, hfoldable, hunkept⟩ := h
  have hparents := hasParents_eq_false_of_isInternal (htries.tracks hconsistent) hn
  have hdelete : f.delete? opts n = some (f.drop n) := by
    refine if_pos ?_
    obtain ⟨r, hr, -⟩ := isFoldable_iff.mp hfoldable
    rw [isDeletable, hr, Option.any_some, hunkept r hr, hparents, hfoldable]
    rfl
  cases htries with
  | idle hdue hidle => exact ⟨_, _, .deleteIdle hdue hidle hdelete, Graph.contains_erase_self f.graph n⟩
  | folded =>
      refine ⟨_, _, .settle, ?_⟩
      rw [settle, hdelete]
      exact Graph.contains_erase_self f.graph n
  | left =>
      refine ⟨_, _, .discard, ?_⟩
      rw [Folding.discard, hdelete]
      exact Graph.contains_erase_self f.graph n

/-- If a rule is gone after an attempt to delete one, it is this rule, and the run disposes of
it. -/
theorem disposes_of_delete? {m : Name} (htries : f.Tries opts m st)
    (hdelete : f.delete? opts m = some f') (hn : f.graph.contains n = true)
    (hgone : f'.graph.contains n = false) : f.Disposes opts st n := by
  obtain ⟨rfl, -, hfoldable⟩ := of_delete? hdelete
  have hnm : n = m := by
    by_contra hne
    have hstays : (f.drop m).graph.contains n = f.graph.contains n := Graph.contains_erase_of_ne hne
    rw [hstays, hn] at hgone
    cases hgone
  subst hnm
  exact ⟨htries, hfoldable, fun r hr => keeps_eq_false_of_delete? hdelete hr⟩

/-- A step that takes a rule away disposes of it, unless the rule is a child that is pruned. -/
theorem Step.disposes (hstep : Step ev opts (st, f) (st', f')) (hn : f.graph.contains n = true)
    (hgone : f'.graph.contains n = false) : f.Disposes opts st n ∨ n ∈ st.children := by
  have hsame : f'.graph.contains n = f.graph.contains n →
      f.Disposes opts st n ∨ n ∈ st.children := by
    intro heq
    rw [heq, hn] at hgone
    cases hgone
  cases hstep with
  | beginPass | siftPass | skip _ | keepIdle _ _ _ | copied => exact hsame rfl
  | passAgain _ | endSweep _ _ | beginSift _ _ => exact hsame rfl
  | siftAgain _ | endSift _ _ | foldAgain _ _ => exact hsame rfl
  | deleteIdle hdue hidle hdelete =>
      exact Or.inl (disposes_of_delete? (.idle hdue hidle) hdelete hn hgone)
  | vary _ _ hask _ =>
      obtain ⟨s, rfl, -⟩ := ask_eq_ok hask
      exact hsame rfl
  | fold _ _ hask _ =>
      obtain ⟨s, rfl, -⟩ := ask_eq_ok hask
      exact hsame (Graph.contains_map ..)
  | copy hsub =>
      rcases substituteIn_eq_ok hsub with ⟨-, rfl⟩ | ⟨r, -, -, rfl⟩
      · exact hsame rfl
      · rw [graph_adopt] at hsame
        exact hsame (Graph.contains_map ..)
  | @pruneOne _ _ m c _ =>
      rcases pruneChild_eq opts f m c with heq | heq
      · rw [heq] at hsame
        exact hsame rfl
      · by_cases hnc : n = c
        · exact Or.inr (hnc ▸ List.mem_cons_self)
        · rw [heq] at hsame
          exact hsame (Graph.contains_erase_of_ne hnc)
  | @settle _ _ m =>
      rw [Folding.settle] at hgone hsame
      cases hdelete : f.delete? opts m with
      | none =>
          rw [hdelete] at hsame
          exact hsame (Graph.contains_map ..)
      | some f' =>
          rw [hdelete] at hgone
          exact Or.inl (disposes_of_delete? .folded hdelete hn hgone)
  | @discard _ _ _ m _ =>
      rw [Folding.discard] at hgone hsame
      cases hdelete : f.delete? opts m with
      | none =>
          rw [hdelete] at hsame
          exact hsame rfl
      | some f' =>
          rw [hdelete] at hgone
          exact Or.inl (disposes_of_delete? .left hdelete hn hgone)

/-- A rule that is gone does not come back. -/
theorem Reaches.contains_eq_false (h : Reaches ev opts (st, f) (st', f'))
    (hn : f.graph.contains n = false) : f'.graph.contains n = false := by
  refine h.invariant (P := fun _ f => f.graph.contains n = false) hn ?_
  intro st₁ f₁ st₂ f₂ hnone hstep
  rw [Bool.eq_false_iff]
  intro hcontains
  rw [hstep.contains_of_contains hcontains] at hnone
  cases hnone

end Folding

namespace Graph

open RuleGraph.Folding (Stage Step)

variable {σ : Type} {ev : Evaluator σ} {opts : Options} {g g' : Graph} {s : Session σ}
  {folds : List (Name × Quantity)} {st : Stage} {f : Folding σ} {n : Name}

/-! ## Rules that are lost -/

/-- Children that are yet to be pruned have no internal names, as the index has none. -/
theorem Passes.not_isInternal_of_mem_children (h : g.Passes ev opts s st f)
    (hn : n ∈ st.children) : n.isInternal = false := by
  refine h.invariant_of_passes (P := fun st _ => n ∈ st.children → n.isInternal = false) ?_ ?_ hn
  · exact fun _ hn => absurd hn List.not_mem_nil
  · intro st₁ f₁ st₂ f₂ hpasses hchildren hstep hn
    cases hstep with
    | copied =>
        obtain ⟨⟨r, -, hlink⟩, -⟩ := hpasses.cleared rfl n (References.mem_childrenOf.mp hn)
        exact (Rule.mem_links.mp hlink).2.2
    | pruneOne => exact hchildren (List.mem_cons_of_mem _ hn)
    | beginPass | siftPass | skip _ | keepIdle _ _ _ | deleteIdle _ _ _ | vary _ _ _ _ =>
        exact absurd hn List.not_mem_nil
    | fold _ _ _ _ | copy _ | settle | discard => exact absurd hn List.not_mem_nil
    | passAgain _ | endSweep _ _ | beginSift _ _ => exact absurd hn List.not_mem_nil
    | siftAgain _ | endSift _ _ | foldAgain _ _ => exact absurd hn List.not_mem_nil

/-- A run disposes of the rule at some moment. -/
def IsDisposed (ev : Evaluator σ) (opts : Options) (g : Graph) (s : Session σ) (n : Name) : Prop :=
  ∃ st f, g.Passes ev opts s st f ∧ f.Disposes opts st n

/-- A rule with an internal name stays as long as a run has not disposed of it. -/
theorem Passes.contains_or_isDisposed (h : g.Passes ev opts s st f) (hn : n.isInternal = true)
    (hg : g.contains n = true) : f.graph.contains n = true ∨ g.IsDisposed ev opts s n := by
  refine h.invariant_of_passes (P := fun _ f =>
    f.graph.contains n = true ∨ g.IsDisposed ev opts s n) ?_ ?_
  · exact fun _ => Or.inl ((contains_map ..).trans hg)
  · intro st₁ f₁ st₂ f₂ hpasses hcontains hstep
    rcases hcontains with hcontains | hdisposed
    · cases hgone : f₂.graph.contains n with
      | true => exact Or.inl rfl
      | false =>
          rcases hstep.disposes hcontains hgone with hdisposes | hchild
          · exact Or.inr ⟨st₁, f₁, hpasses, hdisposes⟩
          · rw [hpasses.not_isInternal_of_mem_children hchild] at hn
            cases hn
    · exact Or.inr hdisposed

/-- A rule with an internal name that a run disposed of is not there at its end. -/
theorem Passes.contains_eq_false (h : g.Passes ev opts s .done f) (hn : n.isInternal = true)
    (hdisposed : g.IsDisposed ev opts s n) : f.graph.contains n = false := by
  obtain ⟨st₁, f₁, hpasses, hdisposes⟩ := hdisposed
  obtain ⟨st₂, f₂, hstep, hgone⟩ := hdisposes.step ev hpasses.consistent hn
  obtain ⟨u₁, s₁, hu₁, hreaches⟩ := hpasses.trans (Relation.ReflTransGen.single hstep)
  obtain ⟨u, s', hu, hdone⟩ := h
  obtain ⟨rfl, rfl⟩ := EStateM.Result.ok.inj (hu₁.symm.trans hu)
  exact (hdone.reaches_done hreaches).contains_eq_false hgone

/-- A rule that is left refers to the same internal names as before, unless it was folded. -/
theorem Accounts.mem_dependencies_of_isInternal {p : Name} {r r' : Rule}
    (h : g.Accounts folds st g') (hn : n.isInternal = true) (hr : g.get? p = some r)
    (hmem : n ∈ r.dependencies) (hr' : g'.get? p = some r') :
    n ∈ r'.dependencies ∨ ∃ q, r'.expr = some (.const q) ∧ r'.isInput = false := by
  obtain ⟨r₀, hr₀, hstems⟩ := h.stems hr'
  obtain rfl : r = r₀ := Option.some.inj (hr.symm.trans hr₀)
  cases hstems with
  | @filled k within _ =>
      have hnone : k n = none := by
        refine within.eq_none ?_
        rw [Constants.external, if_pos hn]
      exact Or.inl (Rule.mem_dependencies_fill hnone hmem)
  | @constant q _ _ hinput => exact Or.inr ⟨q, rfl, hinput⟩

/-- A rule with an internal name is lost if and only if folding comes to a moment at which it tries
to delete the rule, the rule may be folded and it is not to be kept.  What refers to the rule does
not matter, and does so still if it was not folded itself.  In particular, rules with internal names
are not lost if they are inputs, cannot be accessed, are avoided, or are to be kept. -/
theorem internal_rule_lost_iff {r : Rule} (h : g.fold opts = .ok g') (hn : n.isInternal = true)
    (hr : (g.restoreStatus opts.marker).get? n = some r) :
    (g'.contains n = false ↔ g.IsDisposed .interpreter opts { state := () } n) ∧
    (∀ p t t', g.get? p = some t → n ∈ t.dependencies → g'.get? p = some t' →
      n ∈ t'.dependencies ∨ ∃ q, t'.expr = some (.const q) ∧ t'.isInput = false) ∧
    (r.isInput = true ∨ g.isAccessible n = false ∨ opts.avoids r = true ∨
      (∀ t : Rule, t.name = n → opts.keeps t = true) → g'.contains n = true) := by
  obtain ⟨s', hwith⟩ := foldWith_of_fold h
  obtain ⟨f, hpasses, rfl⟩ := passes_of_foldWith hwith
  obtain ⟨folds, hrecords⟩ := hpasses.records
  have hcontains : (g.restoreStatus opts.marker).contains n = true := Option.isSome_of_eq_some hr
  have hg : g.contains n = true := (contains_map ..).symm.trans hcontains
  refine ⟨⟨?_, hpasses.contains_eq_false hn⟩, ?_, ?_⟩
  · intro hgone
    refine (hpasses.contains_or_isDisposed hn hg).resolve_left ?_
    rw [hgone]
    exact Bool.false_ne_true
  · intro p t t' ht hmem ht'
    have ht₀ := get?_restoreStatus g opts.marker p
    rw [ht, Option.map_some] at ht₀
    exact hrecords.accounts.mem_dependencies_of_isInternal hn ht₀ hmem ht'
  · rintro (hinput | hclosed | havoids | hkeeps)
    · exact (hrecords.spared_of_isInput hr hinput).contains hcontains
    · rw [← isAccessible_restoreStatus g opts.marker] at hclosed
      exact (hrecords.spared_of_not_isAccessible (fun _ _ _ => rfl) hcontains hclosed).contains
        hcontains
    · exact Option.isSome_of_eq_some (hrecords.get?_of_avoids hr havoids)
    · refine (hpasses.contains_or_isDisposed hn hg).resolve_right ?_
      rintro ⟨st₁, f₁, -, hdisposes⟩
      obtain ⟨t, ht, -⟩ := Folding.isFoldable_iff.mp hdisposes.foldable
      have hfalse := hdisposes.unkept t ht
      rw [hkeeps t (name_of_get? ht)] at hfalse
      cases hfalse

/-- A lease that has a base by default, which depends on a wish, and a note that the user is asked
for. -/
def lease : Graph where
  rules := [
    { name := ⟨"lease", 0⟩, question := some "What is the lease?",
      default := some (.all [.ref ⟨"lease . $base", 1⟩, .ref ⟨"lease . $note", 2⟩]) },
    { name := ⟨"lease . $base", 1⟩, expr := some (.any [.ref ⟨"wish", 3⟩]) },
    { name := ⟨"lease . $note", 2⟩, question := some "Is there a note?" },
    { name := ⟨"wish", 3⟩, question := some "What is the wish?" }]
  increasing := by decide

/-- Folding that keeps the lease. -/
def lease.options : Options where
  keep := some fun r => r.name.text == "lease"

/-- Folding disposes of the base of the lease, which still refers to it by default.  It does not
dispose of the note. -/
theorem internal_rule_lost_iff_lease :
    ∃ g' t', lease.fold lease.options = .ok g' ∧
      g'.contains ⟨"lease . $base", 1⟩ = false ∧
      lease.IsDisposed .interpreter lease.options { state := () } ⟨"lease . $base", 1⟩ ∧
      g'.get? ⟨"lease", 0⟩ = some t' ∧ ⟨"lease . $base", 1⟩ ∈ t'.dependencies ∧
      g'.contains ⟨"lease . $note", 2⟩ = true ∧
      ¬lease.IsDisposed .interpreter lease.options { state := () } ⟨"lease . $note", 2⟩ := by
  have hrun : (lease.fold lease.options).toOption.any (fun g' =>
      !g'.contains ⟨"lease . $base", 1⟩ && (g'.get? ⟨"lease", 0⟩).any Rule.isInput) = true := by
    decide +kernel
  obtain ⟨g', hfold, hg'⟩ := exists_fold_of_any hrun
  obtain ⟨hgone, hlease⟩ := Bool.and_eq_true_iff.mp hg'
  obtain ⟨t', ht', hinput⟩ := (Option.any_eq_true _ _).mp hlease
  rw [Bool.not_eq_true'] at hgone
  obtain ⟨hbase, hrefers, -⟩ := internal_rule_lost_iff (n := ⟨"lease . $base", 1⟩) hfold
    (by decide) rfl
  obtain ⟨hnote, -, hprotected⟩ := internal_rule_lost_iff (n := ⟨"lease . $note", 2⟩) hfold
    (by decide) rfl
  have hstays := hprotected (Or.inl rfl)
  refine ⟨g', t', hfold, hgone, hbase.mp hgone, ht', ?_, hstays, ?_⟩
  · refine (hrefers _ _ t' rfl (by decide) ht').resolve_right ?_
    rintro ⟨q, -, hfalse⟩
    rw [hinput] at hfalse
    cases hfalse
  · intro hdisposed
    rw [hnote.mpr hdisposed] at hstays
    cases hstays

/-- A lease with a base that is constant. -/
def sublease : Graph where
  rules := [
    { name := ⟨"lease", 0⟩, expr := some (.ref ⟨"lease . $base", 1⟩) },
    { name := ⟨"lease . $base", 1⟩, expr := some (.const { value := .bool true }) }]
  increasing := by decide

/-- Folding deletes the base of a lease though the lease is kept and refers to it by default, and
though the lease is avoided and refers to it by its value.  Then the lease has no value any more. -/
theorem internal_rule_lost :
    (∃ g', lease.fold lease.options = .ok g' ∧
      (lease.evaluate ⟨"lease", 0⟩).toOption.isSome = true ∧
      g'.names = [⟨"lease", 0⟩, ⟨"lease . $note", 2⟩, ⟨"wish", 3⟩] ∧
      g'.evaluate ⟨"lease", 0⟩ = .error (.unknownRule ⟨"lease . $base", 1⟩)) ∧
    ∃ g', sublease.fold { avoid := some fun r => r.name.text == "lease" } = .ok g' ∧
      (sublease.evaluate ⟨"lease", 0⟩).toOption.isSome = true ∧ g'.names = [⟨"lease", 0⟩] ∧
      g'.evaluate ⟨"lease", 0⟩ = .error (.unknownRule ⟨"lease . $base", 1⟩) := by
  constructor
  · have hrun : (lease.fold lease.options).toOption.any (fun g' =>
        g'.names = [⟨"lease", 0⟩, ⟨"lease . $note", 2⟩, ⟨"wish", 3⟩] ∧
        g'.evaluate ⟨"lease", 0⟩ = .error (.unknownRule ⟨"lease . $base", 1⟩)) = true := by
      decide +kernel
    obtain ⟨g', hfold, hg'⟩ := exists_fold_of_any hrun
    exact ⟨g', hfold, by decide +kernel, of_decide_eq_true hg'⟩
  · have hrun : (sublease.fold { avoid := some fun r => r.name.text == "lease" }).toOption.any
        (fun g' => g'.names = [⟨"lease", 0⟩] ∧
          g'.evaluate ⟨"lease", 0⟩ = .error (.unknownRule ⟨"lease . $base", 1⟩)) = true := by
      decide +kernel
    obtain ⟨g', hfold, hg'⟩ := exists_fold_of_any hrun
    exact ⟨g', hfold, by decide +kernel, of_decide_eq_true hg'⟩

end Graph

end RuleGraph
