import RuleGraph.Proofs.Course
import RuleGraph.Proofs.Taint

/-! # Consistency of the state of folding

    At every stage of a run the index tracks the graph, and within a pass the
    taint covers it.  While a rule is being folded, the index is behind: the
    rule has become a constant, and its own links are dropped only after the
    constant was copied into all its parents.  `Folding.Consistent` says for
    each stage what holds there; `Consistent.step` goes through the steps, and
    `Passes.consistent` through a run.

    It follows that whenever a rule is about to be folded or deleted, and when
    that is over, the index mirrors the graph exactly. -/

namespace RuleGraph

namespace Rule

variable (r : Rule)

/-- Filling in a constant does not change what a rule overrides. -/
theorem overridden_subst_const (target : Name) (q : Quantity) :
    (r.subst target (.const q)).overridden = r.overridden := by
  show ((r.expr.map (Expr.subst target (.const q))).map Expr.rootOverrides).getD [] = _
  rw [Option.map_map]
  congr 2
  funext e
  exact Expr.rootOverrides_subst_const q e

/-- A rule whose value becomes a constant depends on nothing new. -/
theorem mem_dependencies_of_setConstant {r : Rule} {q : Quantity} {d : Name}
    (h : d ∈ Rule.dependencies { r with expr := some (.const q) }) : d ∈ r.dependencies := by
  obtain ⟨e, he, hde⟩ := mem_dependencies.mp h
  rcases List.mem_cons.mp he with rfl | he
  · cases hde
  · exact mem_dependencies.mpr ⟨e, List.mem_append_right _ he, hde⟩

end Rule

namespace Folding

variable {σ : Type} {ev : Evaluator σ} {opts : Options} {f f' : Folding σ} {n p : Name}

/-! ## What the steps do -/

/-- The evaluator's answer changes the session only. -/
theorem ask_eq_ok {y : Evaluation} (h : ask ev n f = .ok y f') :
    ∃ s, f' = { f with toSession := s } ∧ ev.ask f.graph n f.toSession = .ok y s := by
  rw [ask] at h
  split at h
  · rename_i hask
    cases h
    exact ⟨_, rfl, hask⟩
  · cases h

/-- Asking fails only if the evaluator has no answer. -/
theorem ask_eq_error {e : FoldError} (h : ask ev n f = .error e f') :
    ∃ e' s, ev.ask f.graph n f.toSession = .error e' s := by
  rw [ask] at h
  split at h
  · cases h
  · rename_i hask
    exact ⟨_, _, hask⟩

/-- A rule that is deleted is taken out of the graph; it was foldable, and nothing referred to
it. -/
theorem of_delete? (h : f.delete? opts n = some f') :
    f' = f.drop n ∧ f.refs.hasParents n = false ∧ f.isFoldable opts n = true := by
  rw [delete?] at h
  split at h
  · rename_i hdeletable
    rw [isDeletable, Bool.and_eq_true_iff, Bool.and_eq_true_iff] at hdeletable
    exact ⟨(Option.some.inj h).symm, by simpa using hdeletable.1.2, hdeletable.2⟩
  · cases h

/-- Pruning a child drops the link, and deletes the child or leaves it. -/
theorem pruneChild_eq (opts : Options) (f : Folding σ) (n c : Name) :
    f.pruneChild opts n c = f.unlink n c ∨
      f.pruneChild opts n c = ((f.unlink n c).drop c).emit (.pruned c n) := by
  rw [pruneChild]
  cases hd : (f.unlink n c).delete? opts c with
  | none => exact Or.inl rfl
  | some f' =>
      obtain ⟨rfl, -⟩ := of_delete? hd
      exact Or.inr rfl

/-- A rule that is to be kept is not deleted. -/
theorem keeps_eq_false_of_delete? {r : Rule} (h : f.delete? opts n = some f')
    (hr : f.graph.get? n = some r) : opts.keeps r = false := by
  rw [delete?, isDeletable, hr] at h
  split at h
  · rename_i hdeletable
    rw [Bool.and_eq_true_iff, Bool.and_eq_true_iff] at hdeletable
    simpa using hdeletable.1.1
  · cases h

/-- Copying a constant into a parent leaves the state alone, if the parent is gone or avoided, or
substitutes in the parent. -/
theorem substituteIn_eq_ok {q : Quantity} (h : substituteIn opts n q p f = .ok () f') :
    ((∀ r, f.graph.get? p = some r → opts.avoids r = true) ∧ f' = f.emit (.kept n p)) ∨
      ∃ r, f.graph.get? p = some r ∧ opts.avoids r = false ∧
        f' = f.adopt n p ((r.subst n (.const q)).markReplaced (r.references.count n))
          (r.references.count n) := by
  rw [substituteIn] at h
  cases hr : f.graph.get? p with
  | none =>
      rw [hr] at h
      cases h
      refine Or.inl ⟨?_, rfl⟩
      intro r hr
      cases hr
  | some r =>
      rw [hr] at h
      dsimp only at h
      split at h
      · rename_i havoid
        cases h
        refine Or.inl ⟨?_, rfl⟩
        rintro _ ⟨⟩
        exact havoid
      · rename_i havoid
        cases hrep : r.replace n (.const q) with
        | error clash =>
            rw [hrep] at h
            cases h
        | ok res =>
            obtain ⟨r', count⟩ := res
            rw [hrep] at h
            cases h
            obtain ⟨rfl, rfl⟩ := Rule.replace_eq_ok hrep
            exact Or.inr ⟨r, rfl, by simpa using havoid, rfl⟩

/-- Copying a constant into a parent fails only where it cannot be substituted in the parent. -/
theorem substituteIn_eq_error {q : Quantity} {e : FoldError}
    (h : substituteIn opts n q p f = .error e f') :
    ∃ r clash, f.graph.get? p = some r ∧ r.replace n (.const q) = .error clash := by
  rw [substituteIn] at h
  cases hr : f.graph.get? p with
  | none =>
      rw [hr] at h
      cases h
  | some r =>
      rw [hr] at h
      dsimp only at h
      split at h
      · cases h
      · cases hrep : r.replace n (.const q) with
        | error clash => exact ⟨r, clash, rfl, hrep⟩
        | ok res =>
            rw [hrep] at h
            cases h

/-! ## The index and the taint within a pass -/

/-- The index tracks the graph and the taint covers it. -/
structure UpToDate (f : Folding σ) (stale : Option Name) : Prop where
  tracks : f.refs.Tracks f.graph stale
  covers : f.taint.Covers f.unfoldable f.refs f.graph

namespace UpToDate

variable {stale : Option Name} {q : Quantity}

/-- With an index that tracks the graph, everything is up to date once the taint is computed
anew. -/
theorem refreshTaint (h : f.refs.Tracks f.graph none) (ev : Evaluator σ) :
    (f.refreshTaint ev).UpToDate none where
  tracks := h
  covers := Taint.covers_ofGraph h.sound ..

/-- Taking out a rule leaves the index and the taint as up to date as they were. -/
theorem drop (h : f.UpToDate stale) (n : Name) : (f.drop n).UpToDate stale where
  tracks := h.tracks.erase n
  covers := h.covers.mono (fun _ _ hc => (References.mem_children_erase.mp hc).2)
    fun _ _ => Graph.Overrides.of_erase

theorem delete? (h : f.UpToDate stale) (hd : f.delete? opts n = some f') : f'.UpToDate stale := by
  rw [(of_delete? hd).1]
  exact h.drop n

theorem discard (h : f.UpToDate stale) (n : Name) : (f.discard opts n).UpToDate stale := by
  rw [Folding.discard]
  cases hd : f.delete? opts n with
  | some f' => exact h.delete? hd
  | none => exact h

/-- A link that the graph no longer has can be dropped from the index. -/
theorem unlink (h : f.UpToDate stale) (hlink : ¬f.graph.HasLink n p) :
    (f.unlink n p).UpToDate stale where
  tracks := h.tracks.unlink hlink
  covers := h.covers.mono (fun _ _ hc => (References.mem_children_unlink.mp hc).1) fun _ _ => id

/-- When a rule is made a constant, the index is behind for this rule only. -/
theorem setConstant (h : f.UpToDate none) (n : Name) (q : Quantity) :
    (f.setConstant n q).UpToDate (some n) where
  tracks := h.tracks.modify fun _ _ _ => Rule.mem_dependencies_of_setConstant
  covers := h.covers.mono (fun _ _ => id) fun _ _ =>
    Graph.Overrides.of_modify fun _ _ _ hd => nomatch hd

/-- Marking a rule leaves the index and the taint as up to date as they were. -/
theorem markFully (h : f.UpToDate stale) (n : Name) : (f.markFully n).UpToDate stale where
  tracks := h.tracks.modify_of_iff fun _ _ _ => Iff.rfl
  covers := h.covers.mono (fun _ _ => id) fun _ _ => Graph.Overrides.of_modify fun _ _ _ => id

theorem settle (h : f.UpToDate stale) (n : Name) : (f.settle opts n).UpToDate stale := by
  rw [Folding.settle]
  cases hd : f.delete? opts n with
  | some f' => exact h.delete? hd
  | none => exact h.markFully n

/-- Substituting in a parent drops the link to the target, unless an override of it remains. -/
theorem adopt (h : f.UpToDate stale) {r : Rule} (hr : f.graph.get? p = some r) (status : Status)
    (count : Nat) : (f.adopt n p { r.subst n (.const q) with status } count).UpToDate stale := by
  have hdeps : ∀ s, f.graph.get? p = some s →
      ∀ d ∈ (r.subst n (.const q)).dependencies, d ∈ s.dependencies := by
    intro s hs d hd
    obtain rfl : r = s := Option.some.inj (hr.symm.trans hs)
    exact Rule.mem_dependencies_of_subst hd
  have hoverrides : ∀ x c, (f.graph.modify p fun _ =>
      { r.subst n (.const q) with status }).Overrides x c → f.graph.Overrides x c := by
    intro x c
    refine Graph.Overrides.of_modify ?_
    intro s hs d hd
    obtain rfl : r = s := Option.some.inj (hr.symm.trans hs)
    have hd : d ∈ (r.subst n (.const q)).overridden := hd
    rwa [Rule.overridden_subst_const] at hd
  rw [Folding.adopt]
  split
  · -- the parent overrides the target, so it keeps its link
    rename_i hdepends
    refine ⟨h.tracks.modify_of_iff ?_, h.covers.mono (fun _ _ => id) hoverrides⟩
    intro s hs d
    refine ⟨hdeps s hs d, ?_⟩
    obtain rfl : r = s := Option.some.inj (hr.symm.trans hs)
    intro hd
    by_cases hdn : d = n
    · rw [hdn]
      exact of_decide_eq_true hdepends
    · exact Rule.mem_dependencies_subst hdn hd
  · -- the parent has lost all its references to the target
    rename_i hdepends
    refine ⟨h.tracks.modify_unlink ?_,
      h.covers.mono (fun _ _ hc => (References.mem_children_unlink.mp hc).1) hoverrides⟩
    intro s hs d
    constructor
    · intro hd
      refine ⟨hdeps s hs d hd, ?_⟩
      rintro rfl
      exact hdepends (decide_eq_true hd)
    · rintro ⟨hd, hdn⟩
      obtain rfl : r = s := Option.some.inj (hr.symm.trans hs)
      exact Rule.mem_dependencies_subst hdn hd

end UpToDate

/-! ## Consistency at every stage -/

/-- What holds at a stage.  While constants are copied, the target is a constant that no other rule
overrides; while its links are dropped, those left in the index are still to be dropped. -/
def Consistent : Stage → Folding σ → Prop
  | .sweep, f => f.refs.Tracks f.graph none
  | .visit _, f => f.UpToDate none
  | .substitute _ n q parents, f =>
      f.UpToDate (some n) ∧ f.graph.IsConstant n q ∧ n ∉ parents ∧
        ∀ p ∈ f.taint.overriders.targets n, p = n
  | .prune _ n children, f =>
      f.UpToDate (some n) ∧ (∀ c, ¬f.graph.HasLink n c) ∧
        ∀ c ∈ f.refs.children.targets n, c ∈ children
  | .sift _, f => f.refs.Tracks f.graph none
  | .discard _ _ _, f => f.UpToDate none
  | .done, f => f.refs.Tracks f.graph none

theorem isConstant_setConstant {q : Quantity} (h : f.isFoldable opts n = true) :
    (f.setConstant n q).graph.IsConstant n q := by
  obtain ⟨r, hr, -, hinput, -⟩ := isFoldable_iff.mp h
  exact ⟨_, Graph.get?_modify_eq_some.mpr ⟨r, hr, if_pos rfl⟩, hinput, rfl⟩

/-- No rule is its own parent. -/
theorem not_mem_parentsOf (h : f.refs.Tracks f.graph none) : n ∉ f.refs.parentsOf n := by
  intro hn
  rw [References.mem_parentsOf, h.sound.transposed] at hn
  obtain ⟨r, hr, hn⟩ := h.exact hn nofun
  exact (Rule.mem_links.mp hn).2.1 (Graph.name_of_get? hr).symm

theorem isConstant_adopt {q : Quantity} {m : Name} {r : Rule} {count : Nat} (hp : m ≠ p)
    (h : f.graph.IsConstant m q) : (f.adopt n p r count).graph.IsConstant m q := by
  obtain ⟨s, hs, hconst⟩ := h
  refine ⟨s, ?_, hconst⟩
  rw [graph_adopt, Graph.get?_modify_of_ne hp, hs]

theorem taint_adopt {r : Rule} {count : Nat} : (f.adopt n p r count).taint = f.taint := by
  rw [adopt]
  split
  · rfl
  · rfl

/-- The first link of a folded rule is dropped. -/
theorem consistent_pruneChild {pass : Pass} {c : Name} {cs : List Name}
    (h : Consistent (.prune pass n (c :: cs)) f) :
    Consistent (.prune pass n cs) (f.pruneChild opts n c) := by
  obtain ⟨hf, hlink, hleft⟩ := h
  have hf' : (f.unlink n c).UpToDate (some n) := hf.unlink (hlink c)
  have hleft' : ∀ d ∈ (f.unlink n c).refs.children.targets n, d ∈ cs := by
    intro d hd
    obtain ⟨hd, hne⟩ := References.mem_children_unlink.mp hd
    exact (List.mem_cons.mp (hleft d hd)).resolve_left fun hdc => hne ⟨rfl, hdc⟩
  rcases pruneChild_eq opts f n c with heq | heq
  · rw [heq]
    exact ⟨hf', hlink, hleft'⟩
  · rw [heq]
    have hdrop := hf'.drop c
    refine ⟨⟨hdrop.tracks, hdrop.covers⟩, ?_, ?_⟩
    · intro d hd
      exact hlink d (Graph.hasLink_erase.mp hd).2
    · intro d hd
      exact hleft' d (References.mem_children_erase.mp hd).2

/-- Once all links of a folded rule are dropped, the index is on track again. -/
theorem tracks_of_pruned {g : Graph} {refs : References} (h : refs.Tracks g (some n))
    (hleft : ∀ c, c ∉ refs.children.targets n) : refs.Tracks g none where
  sound := h.sound
  complete := h.complete
  exact {p c} hc _ := by
    refine h.exact hc ?_
    rintro ⟨⟩
    exact hleft c hc

/-- Every step keeps the state consistent. -/
theorem Consistent.step {st st' : Stage} (h : Consistent st f)
    (hstep : Step ev opts (st, f) (st', f')) : Consistent st' f' := by
  cases hstep with
  | beginPass => exact UpToDate.refreshTaint h ev
  | skip _ | keepIdle _ _ _ => exact h
  | deleteIdle _ _ hd => exact UpToDate.delete? h hd
  | vary _ _ hask _ =>
      obtain ⟨s, rfl, -⟩ := ask_eq_ok hask
      exact ⟨h.tracks, h.covers⟩
  | @fold _ _ n y _ _ _ hdue _ hask _ =>
      obtain ⟨s, rfl, -⟩ := ask_eq_ok hask
      have hset := UpToDate.setConstant h n y.toQuantity
      refine ⟨⟨hset.tracks, hset.covers⟩, isConstant_setConstant hdue.2,
        not_mem_parentsOf h.tracks, ?_⟩
      -- the taint is the same as when the rule was found to be foldable
      intro p hp
      exact overrider_eq_of_isFoldable h.covers hdue.2 Relation.ReflTransGen.refl hp
  | copy hsub =>
      obtain ⟨hf, hconst, hparents, hover⟩ := h
      obtain ⟨hp, hparents⟩ := not_or.mp (mt List.mem_cons.mpr hparents)
      rcases substituteIn_eq_ok hsub with ⟨-, rfl⟩ | ⟨r, hr, -, rfl⟩
      · exact ⟨⟨hf.tracks, hf.covers⟩, hconst, hparents, hover⟩
      · obtain ⟨status, hstatus⟩ := Rule.markReplaced_eq (r.subst _ (.const _)) _
        rw [hstatus]
        refine ⟨hf.adopt hr status _, isConstant_adopt hp hconst, hparents, ?_⟩
        rw [taint_adopt]
        exact hover
  | copied =>
      obtain ⟨hf, hconst, -, -⟩ := h
      exact ⟨hf, hconst.not_hasLink, fun c hc => References.mem_childrenOf.mpr hc⟩
  | pruneOne => exact consistent_pruneChild h
  | settle =>
      obtain ⟨hf, -, hleft⟩ := h
      have hpruned := tracks_of_pruned hf.tracks fun c hc => nomatch hleft c hc
      exact UpToDate.settle ⟨hpruned, hf.covers⟩ _
  | passAgain _ | endSweep _ _ | beginSift _ _ => exact h.tracks
  | siftPass => exact UpToDate.refreshTaint h ev
  | discard => exact UpToDate.discard h _
  | siftAgain _ | endSift _ _ | foldAgain _ _ => exact h.tracks

end Folding

/-- At every moment of folding a graph the state is consistent. -/
theorem Graph.Passes.consistent {σ : Type} {ev : Evaluator σ} {opts : Options} {g : Graph}
    {s : Session σ} {st : Folding.Stage} {f : Folding σ} (h : g.Passes ev opts s st f) :
    Folding.Consistent st f :=
  h.invariant (fun _ => References.Tracks.ofGraph _) Folding.Consistent.step

/-- What holds at the start and is kept by every step from a consistent state holds at all moments
of folding a graph. -/
theorem Graph.Passes.invariant_of_consistent {σ : Type} {ev : Evaluator σ} {opts : Options}
    {g : Graph} {s : Session σ} {P : Folding.Stage → Folding σ → Prop} {st : Folding.Stage}
    {f : Folding σ} (h : g.Passes ev opts s st f)
    (init : ∀ {u s'}, (g.restoreStatus opts.marker).unfoldable ev s = .ok u s' →
      P .sweep (Folding.start s' (g.restoreStatus opts.marker) u))
    (step : ∀ {st₁ f₁ st₂ f₂}, Folding.Consistent st₁ f₁ → P st₁ f₁ →
      Folding.Step ev opts (st₁, f₁) (st₂, f₂) → P st₂ f₂) :
    P st f :=
  h.invariant_of_passes init fun hpasses => step hpasses.consistent

/-! ## The index mirrors the graph -/

namespace References

/-- The index has, for each rule of the graph, exactly the names its expressions depend on as its
children, without the rule itself and internal names, and nothing for other names.  The parents are
the same links read backwards, and having parents means being the child of a rule. -/
structure Mirrors (refs : References) (g : Graph) : Prop where
  children : ∀ r ∈ g.rules, ∀ d, d ∈ refs.childrenOf r.name ↔
    d ∈ r.dependencies ∧ d ≠ r.name ∧ d.isInternal = false
  outside : ∀ n ∉ g.names, refs.childrenOf n = []
  transposed : ∀ p c, p ∈ refs.parentsOf c ↔ c ∈ refs.childrenOf p
  hasParents : ∀ n, refs.hasParents n = true ↔ ∃ r ∈ g.rules, n ∈ refs.childrenOf r.name

/-- The children that an index has, if it is not behind, are the links of the graph. -/
theorem Tracks.mem_childrenOf {refs : References} {g : Graph} (h : refs.Tracks g none)
    {p c : Name} : c ∈ refs.childrenOf p ↔ g.HasLink p c := by
  rw [References.mem_childrenOf]
  exact ⟨fun hc => h.exact hc nofun, h.complete⟩

/-- An index that tracks the graph, and is not behind, mirrors it. -/
theorem Tracks.mirrors {refs : References} {g : Graph} (h : refs.Tracks g none) :
    refs.Mirrors g where
  children r hr d := by
    rw [h.mem_childrenOf, ← Rule.mem_links]
    constructor
    · rintro ⟨s, hs, hd⟩
      rw [Graph.get?_name_of_mem hr] at hs
      cases hs
      exact hd
    · exact fun hd => ⟨r, Graph.get?_name_of_mem hr, hd⟩
  outside n hn := by
    rw [List.eq_nil_iff_forall_not_mem]
    intro d hd
    obtain ⟨r, hr, -⟩ := h.mem_childrenOf.mp hd
    exact hn (Graph.mem_names_of_get? hr)
  transposed p c := by
    rw [mem_parentsOf, References.mem_childrenOf]
    exact h.sound.transposed
  hasParents n := by
    rw [h.sound.hasParents_iff]
    constructor
    · rintro ⟨p, hn⟩
      obtain ⟨r, hr, -⟩ := h.exact hn nofun
      rw [← Graph.name_of_get? hr] at hn
      exact ⟨r, Graph.mem_of_get? hr, References.mem_childrenOf.mpr hn⟩
    · rintro ⟨r, -, hn⟩
      exact ⟨r.name, References.mem_childrenOf.mp hn⟩

end References

/-- A deletion removes the rule from the index without complaint. -/
theorem Folding.remove_of_delete? {σ : Type} {opts : Options} {f f' : Folding σ} {n : Name}
    (h : f.delete? opts n = some f') : f.refs.remove n = .ok f'.refs := by
  obtain ⟨rfl, hparents, -⟩ := of_delete? h
  rw [References.remove, hparents]
  rfl

namespace Graph

open RuleGraph.Folding (foldRule)

/-- Whenever folding a rule begins, and when it ends, and before and after each deletion of a rule
that is not kept, the index mirrors the graph.  After each pass both directions of the index agree,
and no deletion finds a rule that is still referred to. -/
theorem index_mirrors_graph {σ : Type} {ev : Evaluator σ} {opts : Options} {g : Graph}
    {s : Session σ} {st : Folding.Stage} {f : Folding σ} (h : g.Passes ev opts s st f) :
    (∀ b k n rest, st = .visit ⟨b, k, n :: rest⟩ → f.Due opts n →
      f.refs.Mirrors f.graph ∧
        ∀ done f', foldRule ev opts n f = .ok done f' → f'.refs.Mirrors f'.graph) ∧
    (∀ total b n rest, st = .discard total b (n :: rest) →
      f.refs.Mirrors f.graph ∧ (f.discard opts n).refs.Mirrors (f.discard opts n).graph) ∧
    (∀ b k, st = .visit ⟨b, k, []⟩ → f.refs.isTransposed = true) ∧
    (∀ (f₁ f₂ : Folding σ) (n : Name), f₁.delete? opts n = some f₂ →
      f₁.refs.remove n = .ok f₂.refs) := by
  refine ⟨?_, ?_, ?_, fun _ _ _ => Folding.remove_of_delete?⟩
  · rintro b k n rest rfl hdue
    refine ⟨(show f.UpToDate none from h.consistent).tracks.mirrors, ?_⟩
    intro done f' hfold
    have hyields := Folding.yields_foldRule ev hdue b k rest
    rw [hfold] at hyields
    exact (show f'.UpToDate none from (h.trans hyields).consistent).tracks.mirrors
  · rintro total b n rest rfl
    have hf : f.UpToDate none := h.consistent
    exact ⟨hf.tracks.mirrors, (hf.discard n).tracks.mirrors⟩
  · rintro b k rfl
    exact (show f.UpToDate none from h.consistent).tracks.sound.isTransposed

/-- A constant, a comparison with it, an input with this as its default, and a comparison of
both. -/
def comparison : Graph where
  rules := [
    { name := ⟨"base", 0⟩, expr := some (.const { value := .bool true }) },
    { name := ⟨"due", 1⟩,
      expr := some (.op .eq (.ref ⟨"base", 0⟩) (.const { value := .bool false })) },
    { name := ⟨"rate", 2⟩, question := some "At which rate?", default := some (.ref ⟨"due", 1⟩) },
    { name := ⟨"total", 3⟩, expr := some (.op .eq (.ref ⟨"rate", 2⟩) (.ref ⟨"due", 1⟩)) }]
  increasing := by decide

/-- The index of the comparison mirrors it when its first rule is folded, and afterwards. -/
theorem index_mirrors_comparison :
    ∃ f f', comparison.Passes .interpreter {} { state := () }
        (.visit ⟨4, 0, [⟨"base", 0⟩, ⟨"due", 1⟩, ⟨"rate", 2⟩, ⟨"total", 3⟩]⟩) f ∧
      f.Due {} ⟨"base", 0⟩ ∧ f.refs.Mirrors f.graph ∧
      foldRule .interpreter {} ⟨"base", 0⟩ f = .ok true f' ∧ f'.refs.Mirrors f'.graph := by
  have h : comparison.Passes .interpreter {} { state := () }
      (.visit ⟨4, 0, [⟨"base", 0⟩, ⟨"due", 1⟩, ⟨"rate", 2⟩, ⟨"total", 3⟩]⟩)
      ((Folding.start { state := () } (comparison.restoreStatus "optimized") ∅).refreshTaint
        .interpreter) :=
    ⟨∅, _, rfl, Relation.ReflTransGen.single (Folding.Step.beginPass _)⟩
  generalize hf : (Folding.start { state := () } (comparison.restoreStatus "optimized")
    ∅).refreshTaint .interpreter = f at h
  have hdue : f.Due {} ⟨"base", 0⟩ := by
    rw [← hf]
    exact ⟨by decide +kernel, by decide +kernel⟩
  obtain ⟨hbefore, hafter⟩ := (index_mirrors_graph h).1 4 0 _ _ rfl hdue
  have hdone : (match foldRule .interpreter {} ⟨"base", 0⟩ f with
      | .ok done _ => done
      | .error _ _ => false) = true := by
    rw [← hf]
    decide +kernel
  cases hfold : foldRule .interpreter {} ⟨"base", 0⟩ f with
  | error e f' =>
      rw [hfold] at hdone
      cases hdone
  | ok done f' =>
      rw [hfold] at hdone
      obtain rfl : done = true := hdone
      exact ⟨f, f', h, hdue, hbefore, hfold, hafter true f' hfold⟩

end Graph

end RuleGraph
