import RuleGraph.Proofs.Consistency

/-! # How folding changes the graph

    Seen from the graph, a step of folding does one of four things, or nothing:
    it makes a foldable rule a constant, copies the constant of a rule into one
    of its parents, removes a foldable rule that no other rule is linked to, or
    marks a rule that was folded.  `Folding.Change` lists them with all that is
    known at that moment, and `Passes.graph_invariant` derives from it what
    holds of the graph throughout a run.

    The first uses are that links and overrides only go away, and that no rule
    is left with a dangling reference. -/

namespace RuleGraph

namespace Folding

/-! ## What stages are about -/

namespace Stage

/-- The rule that is being folded, if there is one. -/
def target : Stage → Option Name
  | substitute _ n _ _ => some n
  | prune _ n _ => some n
  | _ => none

/-- The parents that a constant is yet to be copied into. -/
def parents : Stage → List Name
  | substitute _ _ _ ps => ps
  | _ => []

/-- The rule that begins to be folded between two stages, with its constant. -/
def folds : Stage → Stage → List (Name × Quantity)
  | visit _, substitute _ n q _ => [(n, q)]
  | _, _ => []

/-- No rule begins to be folded between two stages, and at neither of them a constant is left to be
copied. -/
structure Rests (st st' : Stage) : Prop where
  folds : st.folds st' = []
  parents : st.parents = []
  parents' : st'.parents = []

end Stage

/-! ## Changes -/

variable {σ : Type} {ev : Evaluator σ} {opts : Options} {f f' : Folding σ} {n : Name}

/-- What a step makes of the graph, from one stage to the next. -/
inductive Change (ev : Evaluator σ) (opts : Options) (f : Folding σ) :
    Stage → Stage → Graph → Prop where
  | same {st st' : Stage} (rests : st.Rests st') (target : st'.target = st.target) :
      Change ev opts f st st' f.graph
  | constant {n : Name} {y : Evaluation} {s : Session σ} {b k : Nat} {rest : List Name}
      (upToDate : f.UpToDate none) (due : f.Due opts n)
      (answer : ev.ask f.graph n f.toSession = .ok y s) (isConstant : y.isConstant = true) :
      Change ev opts f (.visit ⟨b, k, n :: rest⟩)
        (.substitute ⟨b, k, rest⟩ n y.toQuantity (f.refs.parentsOf n))
        (f.graph.modify n fun r => { r with expr := some (.const y.toQuantity) })
  | leave {pass : Pass} {n p : Name} {q : Quantity} {ps : List Name}
      (avoided : ∀ r, f.graph.get? p = some r → opts.avoids r = true) :
      Change ev opts f (.substitute pass n q (p :: ps)) (.substitute pass n q ps) f.graph
  | copy {pass : Pass} {n p : Name} {q : Quantity} {ps : List Name} {r : Rule}
      (constant : f.graph.IsConstant n q) (unoverridden : ∀ m, ¬f.graph.Overrides m n)
      (ne : p ≠ n) (rule : f.graph.get? p = some r) (avoids : opts.avoids r = false) :
      Change ev opts f (.substitute pass n q (p :: ps)) (.substitute pass n q ps)
        (f.graph.modify p fun _ =>
          (r.subst n (.const q)).markReplaced (r.references.count n))
  | remove {st st' : Stage} {n : Name} {r : Rule} (rests : st.Rests st')
      (target : st'.target = st.target ∨ st.target = some n ∧ st'.target = none)
      (foldable : f.graph.Foldable opts f.unfoldable n r)
      (accessible : f.taint.isAccessible n = true) (keeps : opts.keeps r = false)
      (unlinked : ∀ p, ¬f.graph.HasLink p n) :
      Change ev opts f st st' (f.graph.erase n)
  | mark {pass : Pass} {n : Name} :
      Change ev opts f (.prune pass n []) (.visit pass.succ)
        (f.graph.modify n fun r => { r with status := .fully })

/-- No rule is linked to a rule that is deleted. -/
theorem not_hasLink_of_delete? {stale : Option Name} (h : f.refs.Tracks f.graph stale)
    (hd : f.delete? opts n = some f') (p : Name) : ¬f.graph.HasLink p n := by
  intro hp
  obtain ⟨-, hparents, -⟩ := of_delete? hd
  have htrue := h.sound.hasParents_iff.mpr ⟨p, h.complete hp⟩
  rw [hparents] at htrue
  cases htrue

/-- A rule that is deleted may be folded, and is neither kept nor linked to. -/
theorem removable_of_delete? {stale : Option Name} (h : f.UpToDate stale)
    (hd : f.delete? opts n = some f') :
    ∃ r, f.graph.Foldable opts f.unfoldable n r ∧ f.taint.isAccessible n = true ∧
      opts.keeps r = false ∧ (∀ p, ¬f.graph.HasLink p n) ∧ f' = f.drop n := by
  obtain ⟨hf', -, hfoldable⟩ := of_delete? hd
  obtain ⟨r, hfoldable, haccessible⟩ := foldable_of_isFoldable h.tracks h.covers hfoldable
  exact ⟨r, hfoldable, haccessible, keeps_eq_false_of_delete? hd hfoldable.rule,
    not_hasLink_of_delete? h.tracks hd, hf'⟩

/-- Deleting a rule is a change that removes it, at any stage without constants left to be
copied. -/
theorem change_delete? {stale : Option Name} {st st' : Stage} (h : f.UpToDate stale)
    (hd : f.delete? opts n = some f') (rests : st.Rests st')
    (target : st'.target = st.target ∨ st.target = some n ∧ st'.target = none) :
    Change ev opts f st st' f'.graph := by
  obtain ⟨r, hfoldable, haccessible, hkeeps, hlink, rfl⟩ := removable_of_delete? h hd
  exact .remove rests target hfoldable haccessible hkeeps hlink

/-- Every step of a consistent run makes one of the changes. -/
theorem Step.change {st st' : Stage} (hstep : Step ev opts (st, f) (st', f'))
    (h : Consistent st f) : Change ev opts f st st' f'.graph := by
  cases hstep with
  | beginPass | siftPass => exact .same ⟨rfl, rfl, rfl⟩ rfl
  | skip _ | keepIdle _ _ _ | copied => exact .same ⟨rfl, rfl, rfl⟩ rfl
  | deleteIdle _ _ hd => exact change_delete? h hd ⟨rfl, rfl, rfl⟩ (Or.inl rfl)
  | vary _ _ hask _ =>
      obtain ⟨s, rfl, -⟩ := ask_eq_ok hask
      exact .same ⟨rfl, rfl, rfl⟩ rfl
  | fold hdue _ hask hy =>
      obtain ⟨s, rfl, hanswer⟩ := ask_eq_ok hask
      exact .constant h hdue hanswer hy
  | copy hsub =>
      obtain ⟨hf, hconst, hparents, hover⟩ := h
      rcases substituteIn_eq_ok hsub with ⟨havoided, rfl⟩ | ⟨r, hr, havoids, rfl⟩
      · exact .leave havoided
      · rw [graph_adopt]
        refine .copy hconst ?_ (fun hp => hparents (hp ▸ List.mem_cons_self ..)) hr havoids
        -- only the target itself could override the target, and it is a constant by now
        intro m hm
        rw [hover m (hf.covers.overriders hm)] at hm
        exact hconst.not_overrides _ hm
  | @pruneOne _ _ n c _ =>
      obtain ⟨hf, hlink, -⟩ := h
      rw [pruneChild]
      cases hd : (f.unlink n c).delete? opts c with
      | none => exact .same ⟨rfl, rfl, rfl⟩ rfl
      | some f' =>
          obtain ⟨r, hfoldable, haccessible, hkeeps, hunlinked, rfl⟩ :=
            removable_of_delete? (hf.unlink (hlink c)) hd
          exact .remove ⟨rfl, rfl, rfl⟩ (Or.inl rfl) hfoldable haccessible hkeeps hunlinked
  | @settle _ _ n =>
      obtain ⟨hf, -⟩ := h
      rw [Folding.settle]
      cases hd : f.delete? opts n with
      | none => exact .mark
      | some f' => exact change_delete? hf hd ⟨rfl, rfl, rfl⟩ (Or.inr ⟨rfl, rfl⟩)
  | @discard _ _ _ n _ =>
      rw [Folding.discard]
      cases hd : f.delete? opts n with
      | none => exact .same ⟨rfl, rfl, rfl⟩ rfl
      | some f' => exact change_delete? h hd ⟨rfl, rfl, rfl⟩ (Or.inl rfl)
  | passAgain _ | endSweep _ _ | beginSift _ _ => exact .same ⟨rfl, rfl, rfl⟩ rfl
  | siftAgain _ | endSift _ _ | foldAgain _ _ => exact .same ⟨rfl, rfl, rfl⟩ rfl

/-! ## The taint and the unfoldable rules -/

/-- The state has the same unfoldable rules and the same taint. -/
def SameTaint (f f' : Folding σ) : Prop := f'.unfoldable = f.unfoldable ∧ f'.taint = f.taint

/-- Deleting a rule does not compute the taint anew. -/
theorem sameTaint_delete? (hd : f.delete? opts n = some f') : f.SameTaint f' := by
  obtain ⟨rfl, -⟩ := of_delete? hd
  exact ⟨rfl, rfl⟩

theorem sameTaint_substituteIn {q : Quantity} {p : Name}
    (h : substituteIn opts n q p f = .ok () f') : f.SameTaint f' := by
  rcases substituteIn_eq_ok h with ⟨-, rfl⟩ | ⟨r, -, -, rfl⟩
  · exact ⟨rfl, rfl⟩
  · rw [adopt]
    split
    · exact ⟨rfl, rfl⟩
    · exact ⟨rfl, rfl⟩

theorem sameTaint_pruneChild (opts : Options) (f : Folding σ) (n c : Name) :
    f.SameTaint (f.pruneChild opts n c) := by
  rcases pruneChild_eq opts f n c with heq | heq
  · rw [heq]
    exact ⟨rfl, rfl⟩
  · rw [heq]
    exact ⟨rfl, rfl⟩

/-- A step computes the taint anew, as the first one does, or leaves it as it is. -/
theorem Step.taint {st st' : Stage} (hstep : Step ev opts (st, f) (st', f')) :
    f' = f.refreshTaint ev ∨ st ≠ .sweep ∧ f.SameTaint f' := by
  cases hstep with
  | beginPass | siftPass => exact Or.inl rfl
  | skip _ | keepIdle _ _ _ | copied => exact Or.inr ⟨by simp, rfl, rfl⟩
  | deleteIdle _ _ hd => exact Or.inr ⟨by simp, sameTaint_delete? hd⟩
  | vary _ _ hask _ | fold _ _ hask _ =>
      obtain ⟨s, rfl, -⟩ := ask_eq_ok hask
      exact Or.inr ⟨by simp, rfl, rfl⟩
  | copy hsub => exact Or.inr ⟨by simp, sameTaint_substituteIn hsub⟩
  | pruneOne => exact Or.inr ⟨by simp, sameTaint_pruneChild ..⟩
  | @settle _ _ n =>
      refine Or.inr ⟨by simp, ?_⟩
      rw [Folding.settle]
      cases hd : f.delete? opts n with
      | none => exact ⟨rfl, rfl⟩
      | some f' => exact sameTaint_delete? hd
  | @discard _ _ _ n _ =>
      refine Or.inr ⟨by simp, ?_⟩
      rw [Folding.discard]
      cases hd : f.delete? opts n with
      | none => exact ⟨rfl, rfl⟩
      | some f' => exact sameTaint_delete? hd
  | passAgain _ | endSweep _ _ | beginSift _ _ => exact Or.inr ⟨by simp, rfl, rfl⟩
  | siftAgain _ | endSift _ _ | foldAgain _ _ => exact Or.inr ⟨by simp, rfl, rfl⟩

/-- No step changes which rules are unfoldable. -/
theorem Step.unfoldable {st st' : Stage} (hstep : Step ev opts (st, f) (st', f')) :
    f'.unfoldable = f.unfoldable := by
  rcases hstep.taint with rfl | ⟨-, hsame, -⟩
  · rfl
  · exact hsame

end Folding

namespace Graph

variable {σ : Type} {ev : Evaluator σ} {opts : Options} {g : Graph} {s : Session σ}

/-- The unfoldable rules stay those that were found at the start. -/
theorem Passes.unfoldable {st : Folding.Stage} {f : Folding σ} (h : g.Passes ev opts s st f) :
    ∃ s', (g.restoreStatus opts.marker).unfoldable ev s = .ok f.unfoldable s' := by
  refine h.invariant (P := fun _ f => ∃ s',
    (g.restoreStatus opts.marker).unfoldable ev s = .ok f.unfoldable s') ?_ ?_
  · exact fun hu => ⟨_, hu⟩
  · intro st₁ f₁ st₂ f₂ hu hstep
    rw [hstep.unfoldable]
    exact hu

/-- What holds of the graph at the start and is kept by every change holds of it throughout. -/
theorem Passes.graph_invariant {P : Graph → Prop} {st : Folding.Stage} {f : Folding σ}
    (h : g.Passes ev opts s st f) (init : P (g.restoreStatus opts.marker))
    (change : ∀ {f : Folding σ} {st st' g'}, Folding.Change ev opts f st st' g' →
      P f.graph → P g') :
    P f.graph := by
  refine h.invariant_of_consistent (P := fun _ f => P f.graph) (fun _ => init) ?_
  intro st₁ f₁ st₂ f₂ hconsistent hP hstep
  exact change (hstep.change hconsistent) hP

/-! ## Links and overrides only go away -/

section

variable {g' : Graph} {f : Folding σ} {st st' : Folding.Stage} {p c : Name}

theorem HasLink.of_restoreStatus {marker : String} (h : (g.restoreStatus marker).HasLink p c) :
    g.HasLink p c := by
  obtain ⟨r', hr', hc⟩ := h
  rw [get?_restoreStatus, Option.map_eq_some_iff] at hr'
  obtain ⟨r, hr, rfl⟩ := hr'
  exact ⟨r, hr, hc⟩

theorem HasLink.restoreStatus (h : g.HasLink p c) (marker : String) :
    (g.restoreStatus marker).HasLink p c := by
  obtain ⟨r, hr, hc⟩ := h
  refine ⟨{ r with status := (r.recordedStatus marker).getD r.status }, ?_, hc⟩
  rw [get?_restoreStatus, hr, Option.map_some]

/-- No change adds a link. -/
theorem HasLink.of_change (hchange : Folding.Change ev opts f st st' g') (h : g'.HasLink p c) :
    f.graph.HasLink p c := by
  cases hchange with
  | same | leave => exact h
  | constant => exact h.of_modify fun _ _ _ => Rule.mem_dependencies_of_setConstant
  | @copy _ n _ q _ r _ _ _ hr =>
      obtain ⟨status, hstatus⟩ := Rule.markReplaced_eq (r.subst n (.const q)) _
      rw [hstatus] at h
      refine h.of_modify ?_
      intro t ht d hd
      obtain rfl : r = t := Option.some.inj (hr.symm.trans ht)
      exact Rule.mem_dependencies_of_subst hd
  | remove => exact (hasLink_erase.mp h).2
  | mark =>
      refine h.of_modify ?_
      exact fun _ _ _ hd => hd

/-- No link of the graph that a run has come to is new. -/
theorem Passes.hasLink (h : g.Passes ev opts s st f) (hpc : f.graph.HasLink p c) :
    g.HasLink p c :=
  h.graph_invariant (P := fun g' => g'.HasLink p c → g.HasLink p c) HasLink.of_restoreStatus
    (fun hchange hg hlink => hg (hlink.of_change hchange)) hpc

theorem Overrides.of_restoreStatus {marker : String}
    (h : (g.restoreStatus marker).Overrides p c) : g.Overrides p c := by
  obtain ⟨r', hr', hc⟩ := h
  rw [get?_restoreStatus, Option.map_eq_some_iff] at hr'
  obtain ⟨r, hr, rfl⟩ := hr'
  exact ⟨r, hr, hc⟩

/-- No change adds an override. -/
theorem Overrides.of_change (hchange : Folding.Change ev opts f st st' g')
    (h : g'.Overrides p c) : f.graph.Overrides p c := by
  cases hchange with
  | same | leave => exact h
  | constant =>
      refine h.of_modify ?_
      exact fun _ _ _ hd => absurd hd List.not_mem_nil
  | @copy _ n _ q _ r _ _ _ hr =>
      obtain ⟨status, hstatus⟩ := Rule.markReplaced_eq (r.subst n (.const q)) _
      rw [hstatus] at h
      refine h.of_modify ?_
      intro t ht d hd
      obtain rfl : r = t := Option.some.inj (hr.symm.trans ht)
      change d ∈ (r.subst n (.const q)).overridden at hd
      rwa [Rule.overridden_subst_const] at hd
  | remove => exact h.of_erase
  | mark =>
      refine h.of_modify ?_
      exact fun _ _ _ hd => hd

/-- No override of the graph that a run has come to is new. -/
theorem Passes.overrides (h : g.Passes ev opts s st f) (hpc : f.graph.Overrides p c) :
    g.Overrides p c :=
  h.graph_invariant (P := fun g' => g'.Overrides p c → g.Overrides p c)
    Overrides.of_restoreStatus (fun hchange hg hover => hg (hover.of_change hchange)) hpc

end

/-! ## No dangling references -/

theorem contains_map (g : Graph) (f : Rule → Rule) (n : Name) :
    (g.map f).contains n = g.contains n := by
  rw [contains, get?_map, Option.isSome_map, contains]

theorem contains_erase_self (g : Graph) (n : Name) : (g.erase n).contains n = false := by
  rw [Bool.eq_false_iff]
  intro hcontains
  obtain ⟨r, hr⟩ := Option.isSome_iff_exists.mp hcontains
  exact (get?_erase_eq_some.mp hr).1 rfl

theorem contains_erase_of_ne {n c : Name} (h : c ≠ n) : (g.erase n).contains c = g.contains c := by
  rw [contains, get?_erase_of_ne h, contains]

/-- No rule is linked to a rule of `g` that is gone. -/
def KeepsLinked (g g' : Graph) : Prop :=
  ∀ p c, g'.HasLink p c → g.contains c = true → g'.contains c = true

theorem keepsLinked_restoreStatus (g : Graph) (marker : String) :
    g.KeepsLinked (g.restoreStatus marker) := by
  intro p c _ hc
  rw [restoreStatus, contains_map]
  exact hc

/-- A change removes only rules that nothing is linked to. -/
theorem KeepsLinked.change {f : Folding σ} {st st' : Folding.Stage} {g' : Graph}
    (hchange : Folding.Change ev opts f st st' g') (h : g.KeepsLinked f.graph) :
    g.KeepsLinked g' := by
  intro p c hlink hc
  have hpc : f.graph.HasLink p c := hlink.of_change hchange
  have hcontains := h p c hpc hc
  cases hchange with
  | same | leave => exact hcontains
  | constant | copy | mark =>
      rw [Graph.modify, contains_map]
      exact hcontains
  | @remove _ _ n _ _ _ _ _ _ hunlinked =>
      have hcn : c ≠ n := by
        rintro rfl
        exact hunlinked p hpc
      rw [contains_erase_of_ne hcn]
      exact hcontains

/-- Folding leaves no dangling references: where a rule of the folded graph depends on a name that
is not internal and was a rule, that rule is still there. -/
theorem contains_of_mem_dependencies_of_foldWith {g' : Graph} {s' : Session σ}
    (h : g.foldWith ev opts s = .ok g' s') {r : Rule} (hr : r ∈ g'.rules) {d : Name}
    (hd : d ∈ r.dependencies) (hinternal : d.isInternal = false) (hg : g.contains d = true) :
    g'.contains d = true := by
  obtain ⟨f, hpasses, rfl⟩ := passes_of_foldWith h
  have hkeeps : g.KeepsLinked f.graph :=
    hpasses.graph_invariant (keepsLinked_restoreStatus g opts.marker) KeepsLinked.change
  -- what a rule says of itself is no link, but then the rule is there anyway
  by_cases hself : d = r.name
  · rw [hself, contains, get?_name_of_mem hr]
    rfl
  · refine hkeeps r.name d ⟨r, get?_name_of_mem hr, ?_⟩ hg
    exact Rule.mem_links.mpr ⟨hd, hself, hinternal⟩

/-- The last rule of the folded comparison still depends on the input, which is still there. -/
theorem contains_rate_of_foldWith_comparison :
    ∃ g' s' r, comparison.foldWith .interpreter {} { state := () } = .ok g' s' ∧ r ∈ g'.rules ∧
      ⟨"rate", 2⟩ ∈ r.dependencies ∧ g'.contains ⟨"rate", 2⟩ = true := by
  have hrule : (comparison.fold {}).toOption.any
      (fun g' => g'.rules.any fun r => r.dependsOn ⟨"rate", 2⟩) = true := by decide +kernel
  cases hfold : comparison.fold {} with
  | error e =>
      rw [hfold] at hrule
      cases hrule
  | ok g' =>
      rw [hfold] at hrule
      obtain ⟨r, hr, hd⟩ := List.any_eq_true.mp hrule
      have hd : ⟨"rate", 2⟩ ∈ r.dependencies := of_decide_eq_true hd
      obtain ⟨s', hwith⟩ := foldWith_of_fold hfold
      exact ⟨g', s', r, hwith, hr, hd, contains_of_mem_dependencies_of_foldWith hwith hr hd
        (by decide +kernel) (by decide +kernel)⟩

end Graph

end RuleGraph
