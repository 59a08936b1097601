import RuleGraph.Proofs.Quiescence
import RuleGraph.Proofs.VisitingOrder

/-! # Rules that are left behind

    When a rule is folded, the children that nothing else refers to are deleted
    with it.  This goes one level down: what such a child referred to is not
    looked at, and later passes only delete what is constant or empty.  Nor is a
    child looked at again if the taint of the pass blocked it.  So a rule may be
    left behind that nothing refers to any more and that could be deleted.

    `Folding.Abandons` describes the two moments at which this begins, when the
    last link to a rule goes while the rule stays.  Without rules to keep there
    is no other way to lose the last link (`Graph.Traced`), except that the rule
    itself was folded.  Rules with internal names have no links to lose and are
    never deleted as children. -/

namespace RuleGraph

namespace Graph

/-- Does another rule depend on the name? -/
def isReferred (g : Graph) (c : Name) : Bool :=
  g.rules.any fun r => r.name ≠ c && r.dependsOn c

/-- Names that are not internal are referred to where they are linked to. -/
theorem isReferred_iff {g : Graph} {c : Name} (hc : c.isInternal = false) :
    g.isReferred c = true ↔ ∃ p, g.HasLink p c := by
  rw [isReferred, List.any_eq_true]
  constructor
  · rintro ⟨r, hr, hdepends⟩
    obtain ⟨hne, hmem⟩ := Bool.and_eq_true_iff.mp hdepends
    refine ⟨r.name, r, get?_name_of_mem hr, Rule.mem_links.mpr ⟨?_, ?_, hc⟩⟩
    · exact of_decide_eq_true hmem
    · exact Ne.symm (of_decide_eq_true hne)
  · rintro ⟨p, r, hr, hlink⟩
    obtain ⟨hmem, hne, -⟩ := Rule.mem_links.mp hlink
    refine ⟨r, mem_of_get? hr, Bool.and_eq_true_iff.mpr ⟨?_, ?_⟩⟩
    · exact decide_eq_true (Ne.symm hne)
    · exact decide_eq_true hmem

end Graph

namespace Folding

variable {σ : Type} {ev : Evaluator σ} {opts : Options} {f f' : Folding σ} {st st' : Stage}
  {c p : Name}

/-! ## Losing the last link -/

/-- The index has one rule that refers to `c`, and this is `d`. -/
def LastParent (f : Folding σ) (d c : Name) : Prop :=
  ∀ p, c ∈ f.refs.children.targets p ↔ p = d

/-- The run is about to drop the last link to the rule and to leave the rule: the link goes with a
child that is deleted, or it is the link of the folded rule itself, and the rule may not be folded
according to the taint of the pass. -/
inductive Abandons (opts : Options) (f : Folding σ) (c : Name) : Stage → Prop where
  | orphaned {pass : Pass} {n d : Name} {cs : List Name} (last : f.LastParent d c)
      (deletable : (f.unlink n d).isDeletable opts d = true) :
      Abandons opts f c (.prune pass n (d :: cs))
  | blocked {pass : Pass} {n : Name} {cs : List Name} (last : f.LastParent n c)
      (blocked : (f.unlink n c).isFoldable opts c = false) :
      Abandons opts f c (.prune pass n (c :: cs))

/-- Does the stage belong to a pass that only deletes? -/
def Stage.sifts : Stage → Bool
  | sift _ | discard .. => true
  | _ => false

/-- A child that may be deleted without the link is deleted along with it. -/
theorem pruneChild_of_isDeletable {n d : Name} (h : (f.unlink n d).isDeletable opts d = true) :
    f.pruneChild opts n d = ((f.unlink n d).drop d).emit (.pruned d n) := by
  rw [pruneChild, delete?, if_pos h]

/-- A child that may not be deleted only loses the link. -/
theorem pruneChild_of_not_isDeletable {n d : Name}
    (h : (f.unlink n d).isDeletable opts d = false) : f.pruneChild opts n d = f.unlink n d := by
  rw [pruneChild, delete?, h, if_neg Bool.false_ne_true]

/-- Where a run abandons a rule, the rule has no parents after the next step. -/
theorem Abandons.step (h : f.Abandons opts c st) (ev : Evaluator σ) :
    ∃ st' f', Step ev opts (st, f) (st', f') ∧ ∀ p, c ∉ f'.refs.children.targets p := by
  cases h with
  | orphaned hlast hdeletable =>
      refine ⟨_, _, .pruneOne, ?_⟩
      intro p hp
      rw [pruneChild_of_isDeletable hdeletable] at hp
      obtain ⟨hne, hp⟩ := References.mem_children_erase.mp hp
      exact hne ((hlast p).mp (References.mem_children_unlink.mp hp).1)
  | @blocked _ n _ hlast hblocked =>
      refine ⟨_, _, .pruneOne, ?_⟩
      intro p hp
      have hkept : (f.unlink n c).isDeletable opts c = false := by
        rw [isDeletable, hblocked, Bool.and_false]
      rw [pruneChild_of_not_isDeletable hkept] at hp
      obtain ⟨hp, hother⟩ := References.mem_children_unlink.mp hp
      exact hother ⟨(hlast p).mp hp, rfl⟩

/-- If pruning drops the last link to a rule that stays, it abandons the rule, unless there are
rules to keep. -/
theorem abandons_of_pruneChild {pass : Pass} {n d : Name} {cs : List Name}
    (hkeep : opts.keep = none) (hsound : f.refs.Sound) (hlink : c ∈ f.refs.children.targets p)
    (hgone : ∀ p, c ∉ (f.pruneChild opts n d).refs.children.targets p)
    (hc : (f.pruneChild opts n d).graph.contains c = true) :
    f.Abandons opts c (.prune pass n (d :: cs)) := by
  cases hdeletable : (f.unlink n d).isDeletable opts d with
  | true =>
      rw [pruneChild_of_isDeletable hdeletable] at hgone hc
      have hcd : c ≠ d := by
        rintro rfl
        cases hc.symm.trans (Graph.contains_erase_self f.graph c)
      have honly : ∀ p, c ∈ f.refs.children.targets p → p = d := by
        intro p hp
        by_contra hpd
        exact hgone p (References.mem_children_erase.mpr
          ⟨hpd, References.mem_children_unlink.mpr ⟨hp, fun h => hcd h.2⟩⟩)
      obtain rfl := honly p hlink
      exact .orphaned (fun p' => ⟨honly p', fun h => h ▸ hlink⟩) hdeletable
  | false =>
      rw [pruneChild_of_not_isDeletable hdeletable] at hgone hc
      have honly : ∀ p, c ∈ f.refs.children.targets p → p = n ∧ c = d := by
        intro p hp
        by_contra hother
        exact hgone p (References.mem_children_unlink.mpr ⟨hp, hother⟩)
      obtain ⟨rfl, rfl⟩ := honly p hlink
      refine .blocked (fun p' => ⟨fun hp' => (honly p' hp').1, fun h => h ▸ hlink⟩) ?_
      -- nothing refers to the child and nothing is kept, so it was not foldable
      have hsound' : (f.unlink p c).refs.Sound := hsound.unlink p c
      have hparents : (f.unlink p c).refs.hasParents c = false := by
        rw [Bool.eq_false_iff, Ne, hsound'.hasParents_iff]
        rintro ⟨p', hp'⟩
        exact hgone p' hp'
      obtain ⟨r, hr⟩ := Option.isSome_iff_exists.mp hc
      rw [isDeletable, hr, Option.any_some, Options.keeps, hkeep, hparents] at hdeletable
      simpa using hdeletable

/-! ## Steps and links -/

/-- Links of the index only go away. -/
theorem Step.mem_children (hstep : Step ev opts (st, f) (st', f'))
    (hc : c ∈ f'.refs.children.targets p) : c ∈ f.refs.children.targets p := by
  have hdelete : ∀ {f₁ : Folding σ} {n : Name}, f.delete? opts n = some f₁ →
      c ∈ f₁.refs.children.targets p → c ∈ f.refs.children.targets p := by
    intro f₁ n hd hc
    obtain ⟨rfl, -⟩ := of_delete? hd
    exact (References.mem_children_erase.mp hc).2
  cases hstep with
  | beginPass | siftPass | skip _ | keepIdle _ _ _ | copied => exact hc
  | passAgain _ | endSweep _ _ | beginSift _ _ => exact hc
  | siftAgain _ | endSift _ _ | foldAgain _ _ => exact hc
  | deleteIdle _ _ hd => exact hdelete hd hc
  | vary _ _ hask _ | fold _ _ hask _ =>
      obtain ⟨s, rfl, -⟩ := ask_eq_ok hask
      exact hc
  | copy hsub => exact Graph.mem_children_of_substituteIn hsub hc
  | pruneOne => exact Graph.mem_children_of_pruneChild hc
  | @settle _ _ n =>
      rw [Folding.settle] at hc
      cases hd : f.delete? opts n with
      | none =>
          rw [hd] at hc
          exact hc
      | some f' =>
          rw [hd] at hc
          exact hdelete hd hc
  | @discard _ _ _ n _ =>
      rw [Folding.discard] at hc
      cases hd : f.delete? opts n with
      | none =>
          rw [hd] at hc
          exact hc
      | some f' =>
          rw [hd] at hc
          exact hdelete hd hc

/-- A rule without content is linked to nothing. -/
theorem not_hasLink_of_isIdle {n : Name} (h : f.isIdle n = true) : ¬f.graph.HasLink n c := by
  rintro ⟨r, hr, hlink⟩
  obtain ⟨hempty, -⟩ := Bool.and_eq_true_iff.mp h
  rw [hr, Option.any_some] at hempty
  simp only [Rule.isEmpty, Bool.and_eq_true, Bool.not_eq_true', Option.isNone_iff_eq_none]
    at hempty
  obtain ⟨⟨⟨hexpr, hinput⟩, -⟩, -⟩ := hempty
  obtain ⟨e, he, -⟩ := Rule.mem_dependencies.mp (Rule.mem_links.mp hlink).1
  rw [Rule.exprs, hexpr, Rule.default_eq_none hinput] at he
  cases he

/-- A link stays, unless the rule that it leads to is being folded, or links are pruned, or the pass
only deletes. -/
theorem Step.keeps_link (hstep : Step ev opts (st, f) (st', f')) (h : Consistent st f)
    (hsifts : st.sifts = false) (hlink : c ∈ f.refs.children.targets p) :
    c ∈ f'.refs.children.targets p ∨ st'.target = some c ∨
      ∃ pass n d cs, st = .prune pass n (d :: cs) ∧ f' = f.pruneChild opts n d := by
  cases hstep with
  | beginPass | skip _ | keepIdle _ _ _ | copied => exact Or.inl hlink
  | passAgain _ | endSweep _ _ | beginSift _ _ => exact Or.inl hlink
  | siftPass | discard | siftAgain _ | endSift _ _ | foldAgain _ _ => cases hsifts
  | deleteIdle _ hidle hd =>
      obtain ⟨rfl, -⟩ := of_delete? hd
      refine Or.inl (References.mem_children_erase.mpr ⟨?_, hlink⟩)
      rintro rfl
      exact not_hasLink_of_isIdle hidle (h.tracks.exact hlink (by simp))
  | vary _ _ hask _ | fold _ _ hask _ =>
      obtain ⟨s, rfl, -⟩ := ask_eq_ok hask
      exact Or.inl hlink
  | @copy _ _ _ n _ m _ hsub =>
      rcases substituteIn_eq_ok hsub with ⟨-, rfl⟩ | ⟨r, -, -, rfl⟩
      · exact Or.inl hlink
      · rw [adopt]
        split
        · exact Or.inl hlink
        · by_cases hdropped : p = m ∧ c = n
          · exact Or.inr (Or.inl (congrArg some hdropped.2.symm))
          · exact Or.inl (References.mem_children_unlink.mpr ⟨hlink, hdropped⟩)
  | pruneOne => exact Or.inr (Or.inr ⟨_, _, _, _, rfl, rfl⟩)
  | @settle _ _ n =>
      obtain ⟨-, -, hleft⟩ := h
      rw [Folding.settle]
      cases hd : f.delete? opts n with
      | none => exact Or.inl hlink
      | some f' =>
          obtain ⟨rfl, -⟩ := of_delete? hd
          refine Or.inl (References.mem_children_erase.mpr ⟨?_, hlink⟩)
          rintro rfl
          exact absurd (hleft c hlink) List.not_mem_nil

/-- A rule that is being folded is so after the next step as well, or fully folded, or gone. -/
theorem Step.target_or_fully (hstep : Step ev opts (st, f) (st', f')) (ht : st.target = some c)
    (hc : f'.graph.contains c = true) :
    st'.target = some c ∨ ∃ r, f'.graph.get? c = some r ∧ r.status = .fully := by
  cases hstep with
  | copy _ | copied | pruneOne => exact Or.inl ht
  | settle =>
      cases ht
      obtain ⟨r, hr⟩ := Option.isSome_iff_exists.mp hc
      exact Or.inr ⟨r, hr, fully_of_settle hr⟩
  | beginPass | skip _ | deleteIdle _ _ _ | keepIdle _ _ _ | vary _ _ _ _ | fold _ _ _ _
  | passAgain _ | endSweep _ _ | beginSift _ _ | siftPass | discard | siftAgain _
  | endSift _ _ | foldAgain _ _ => cases ht

end Folding

namespace Graph

open RuleGraph.Folding (Stage Step)

variable {σ : Type} {ev : Evaluator σ} {oracle : Oracle} {opts : Options} {g g' : Graph}
  {s s' : Session σ} {st st' : Stage} {f f' : Folding σ} {c p : Name}

/-! ## Runs -/

/-- A run abandons the rule at some moment. -/
def IsAbandoned (ev : Evaluator σ) (opts : Options) (g : Graph) (s : Session σ) (c : Name) : Prop :=
  ∃ st f, g.Passes ev opts s st f ∧ f.Abandons opts c st

/-- What has become of a rule that was linked to: it is so still, or is being folded, or is fully
folded, or it was abandoned. -/
inductive Traced (ev : Evaluator σ) (opts : Options) (g : Graph) (s : Session σ) (c : Name)
    (st : Stage) (f : Folding σ) : Prop where
  | linked {p : Name} (link : c ∈ f.refs.children.targets p)
  | folding (target : st.target = some c)
  | folded {r : Rule} (rule : f.graph.get? c = some r) (fully : r.status = .fully)
  | abandoned (abandoned : g.IsAbandoned ev opts s c)

/-- What has become of a rule is still known after one more step. -/
theorem Traced.step (h : g.Traced ev opts s c st f) (hkeep : opts.keep = none)
    (hsifts : st.sifts = false) (hpasses : g.Passes ev opts s st f)
    (hstep : Step ev opts (st, f) (st', f')) (hc : f'.graph.contains c = true) :
    g.Traced ev opts s c st' f' := by
  cases h with
  | abandoned habandoned => exact .abandoned habandoned
  | folded hr hfully =>
      obtain ⟨r', hr'⟩ := Option.isSome_iff_exists.mp hc
      obtain ⟨r, hr₁, hstays⟩ := hstep.advances c r' hr'
      obtain rfl := Option.some.inj (hr.symm.trans hr₁)
      exact .folded hr' (hstays hfully)
  | folding htarget =>
      rcases hstep.target_or_fully htarget hc with htarget | ⟨r, hr, hfully⟩
      · exact .folding htarget
      · exact .folded hr hfully
  | @linked p hlink =>
      by_cases hlinked : ∃ p, c ∈ f'.refs.children.targets p
      · obtain ⟨p', hp'⟩ := hlinked
        exact .linked hp'
      rcases hstep.keeps_link hpasses.consistent hsifts hlink with hlink' | htarget | hprune
      · exact absurd ⟨p, hlink'⟩ hlinked
      · exact .folding htarget
      · obtain ⟨pass, n, d, cs, rfl, rfl⟩ := hprune
        have hsound : f.refs.Sound := hpasses.consistent.1.tracks.sound
        have habandons : f.Abandons opts c (.prune pass n (d :: cs)) :=
          Folding.abandons_of_pruneChild hkeep hsound hlink (fun p' hp' => hlinked ⟨p', hp'⟩) hc
        exact .abandoned ⟨_, f, hpasses, habandons⟩

/-- Without rules to keep there are no passes that only delete. -/
theorem Passes.sifts_eq_false (h : g.Passes ev opts s st f) (hkeep : opts.keep = none) :
    st.sifts = false := by
  refine h.invariant (P := fun st _ => st.sifts = false) (fun _ => rfl) ?_
  intro st₁ f₁ st₂ f₂ hsifts hstep
  cases hstep with
  | beginSift _ hsome =>
      rw [hkeep] at hsome
      cases hsome
  | siftPass | discard | siftAgain _ => exact hsifts
  | beginPass | skip _ | deleteIdle _ _ _ | keepIdle _ _ _ | vary _ _ _ _ | fold _ _ _ _
  | copy _ | copied | pruneOne | settle | passAgain _ | endSweep _ _ | endSift _ _
  | foldAgain _ _ => rfl

/-- What has become of a rule that was linked to is known at every moment, while it is there. -/
theorem Passes.traced (h : g.Passes ev opts s st f) (hkeep : opts.keep = none)
    (hlink : g.HasLink p c) (hc : f.graph.contains c = true) : g.Traced ev opts s c st f := by
  refine h.invariant_of_passes (P := fun st f =>
    f.graph.contains c = true → g.Traced ev opts s c st f) ?_ ?_ hc
  · intro u s' _ _
    exact .linked ((References.Tracks.ofGraph _).complete (hlink.restoreStatus opts.marker))
  · intro st₁ f₁ st₂ f₂ hpasses htraced hstep hc
    exact (htraced (hstep.contains_of_contains hc)).step hkeep (hpasses.sifts_eq_false hkeep)
      hpasses hstep hc

/-- The index has links of the original graph only. -/
theorem Passes.hasLink_of_mem_children (h : g.Passes ev opts s st f)
    (hc : c ∈ f.refs.children.targets p) : g.HasLink p c := by
  refine h.invariant (P := fun _ f => c ∈ f.refs.children.targets p → g.HasLink p c) ?_ ?_ hc
  · intro u s' _ hc
    exact ((References.Tracks.ofGraph _).exact hc (by simp)).of_restoreStatus
  · intro st₁ f₁ st₂ f₂ hlink hstep hc
    exact hlink (hstep.mem_children hc)

/-- No rule with an internal name is abandoned. -/
theorem IsAbandoned.isInternal_eq_false (h : g.IsAbandoned ev opts s c) : c.isInternal = false := by
  obtain ⟨st, f, hpasses, habandons⟩ := h
  have hlink : ∃ p, c ∈ f.refs.children.targets p := by
    cases habandons with
    | orphaned hlast _ | blocked hlast _ => exact ⟨_, (hlast _).mpr rfl⟩
  obtain ⟨p, hp⟩ := hlink
  obtain ⟨r, -, hmem⟩ := hpasses.hasLink_of_mem_children hp
  exact (Rule.mem_links.mp hmem).2.2

/-- Nothing is linked to an abandoned rule at the end. -/
theorem IsAbandoned.not_hasLink (h : g.IsAbandoned ev opts s c)
    (hdone : g.Passes ev opts s .done f) : ¬f.graph.HasLink p c := by
  obtain ⟨st₁, f₁, hpasses, habandons⟩ := h
  obtain ⟨st₂, f₂, hstep, hgone⟩ := habandons.step ev
  obtain ⟨u₁, s₁, hu₁, hreaches⟩ := hpasses.trans (Relation.ReflTransGen.single hstep)
  have htracks : f.refs.Tracks f.graph none := hdone.consistent
  obtain ⟨u, s₂, hu, hend⟩ := hdone
  obtain ⟨rfl, rfl⟩ := EStateM.Result.ok.inj (hu₁.symm.trans hu)
  have hnone : ∀ p, c ∉ f.refs.children.targets p := by
    refine (hend.reaches_done hreaches).invariant
      (P := fun _ f => ∀ p, c ∉ f.refs.children.targets p) hgone ?_
    exact fun hnone hstep p hp => hnone p (hstep.mem_children hp)
  exact fun hlink => hnone p (htracks.complete hlink)

/-- Nothing depends on an abandoned rule in the end. -/
theorem IsAbandoned.isReferred_eq_false (h : g.IsAbandoned ev opts s c)
    (hdone : g.Passes ev opts s .done f) : f.graph.isReferred c = false := by
  rw [Bool.eq_false_iff, Ne, isReferred_iff h.isInternal_eq_false]
  rintro ⟨p, hlink⟩
  exact h.not_hasLink hdone hlink

/-- A rule that has lost all referrers and was not folded was abandoned. -/
theorem Passes.isAbandoned {r : Rule} (h : g.Passes ev opts s .done f) (hkeep : opts.keep = none)
    (hr : f.graph.get? c = some r) (hopen : r.status ≠ .fully) (hexternal : c.isInternal = false)
    (hbefore : g.isReferred c = true) (hafter : f.graph.isReferred c = false) :
    g.IsAbandoned ev opts s c := by
  obtain ⟨p, hlink⟩ := (isReferred_iff hexternal).mp hbefore
  cases h.traced hkeep hlink (Option.isSome_of_eq_some hr) with
  | abandoned habandoned => exact habandoned
  | folding htarget => cases htarget
  | folded hr' hfully =>
      obtain rfl := Option.some.inj (hr.symm.trans hr')
      exact absurd hfully hopen
  | linked hlink =>
      have htracks : f.refs.Tracks f.graph none := h.consistent
      have hreferred := (isReferred_iff hexternal).mpr ⟨_, htracks.exact hlink (by simp)⟩
      rw [hafter] at hreferred
      cases hreferred

/-- Without rules to keep, a foldable rule that a run has not folded has a value that depends on the
situation. -/
theorem Passes.varies_of_isFoldable {r : Rule} (h : g.Passes ev opts s .done f)
    (hev : ev.Consults oracle) (hkeep : opts.keep = none) (hr : r ∈ f.graph.rules)
    (hopen : r.status ≠ .fully)
    (hfoldable : (Folding.anew ev s' f.graph f.unfoldable).isFoldable opts r.name = true) :
    ∃ y, oracle.value f.graph r.name = .ok y ∧ y.isConstant = false := by
  have hfresh : (Folding.anew ev s' f.graph f.unfoldable).Fresh oracle :=
    Folding.fresh_refreshTaint hev _
  have hrest := h.atRest hev
  rcases hfresh.of_isFoldable (References.Tracks.ofGraph _) hrest hr hfoldable with
    hfully | ⟨-, -, hkeeps⟩ | hvaries
  · exact absurd hfully hopen
  · rw [Options.keeps, hkeep] at hkeeps
    cases hkeeps
  · exact hvaries

/-- Pruning does not cascade.  If there are no rules to keep, consider a rule of the folded graph
that another rule depended on before.  If no other rule depends on it any more, it is fully folded,
or it is not foldable when the folded graph is looked at anew, with the unfoldable rules of the run,
or its value depends on the situation, and it has an internal name or was abandoned: its last
referrer was itself deleted by pruning, or was folded while the taint of the pass blocked the rule.
On no abandoned rule does another rule depend at the end. -/
theorem left_behind_only_if_abandoned (hev : ev.Consults oracle) (hkeep : opts.keep = none)
    (h : g.foldWith ev opts s = .ok g' s') :
    ∃ u s₁, (g.restoreStatus opts.marker).unfoldable ev s = .ok u s₁ ∧
      ∀ r ∈ g'.rules, g.isReferred r.name = true →
        (g'.isReferred r.name = false →
          r.status = .fully ∨ (Folding.anew ev s' g' u).isFoldable opts r.name = false ∨
          (∃ y, oracle.value g' r.name = .ok y ∧ y.isConstant = false) ∧
            (r.name.isInternal = true ∨ g.IsAbandoned ev opts s r.name)) ∧
        (g.IsAbandoned ev opts s r.name → g'.isReferred r.name = false) := by
  obtain ⟨f, hpasses, rfl⟩ := passes_of_foldWith h
  obtain ⟨s₁, hu⟩ := hpasses.unfoldable
  refine ⟨f.unfoldable, s₁, hu, ?_⟩
  intro r hr hbefore
  refine ⟨?_, fun habandoned => habandoned.isReferred_eq_false hpasses⟩
  intro hafter
  by_cases hfully : r.status = .fully
  · exact Or.inl hfully
  cases hfoldable : (Folding.anew ev s' f.graph f.unfoldable).isFoldable opts r.name with
  | false => exact Or.inr (Or.inl rfl)
  | true =>
      refine Or.inr (Or.inr ⟨hpasses.varies_of_isFoldable hev hkeep hr hfully hfoldable, ?_⟩)
      cases hinternal : r.name.isInternal with
      | true => exact Or.inl rfl
      | false =>
          exact Or.inr (hpasses.isAbandoned hkeep (get?_name_of_mem hr) hfully hinternal hbefore
            hafter)

/-- The trip is made whatever the route, which has a stage that depends on the weather. -/
def hike : Graph where
  rules := [
    { name := ⟨"route", 0⟩, expr := some (.any [.ref ⟨"stage", 1⟩]) },
    { name := ⟨"stage", 1⟩, expr := some (.any [.ref ⟨"weather", 3⟩]) },
    { name := ⟨"trip", 2⟩,
      expr := some (.cond (.const { value := .bool true }) (.const { value := .bool true })
        (.ref ⟨"route", 0⟩)) },
    { name := ⟨"weather", 3⟩, question := some "Is the weather fine?" }]
  increasing := by decide

/-- Folding leaves the rule behind: another rule depended on it and none does any more, but it is
foldable when the folded graph is looked at anew, where no rule is unfoldable, and not fully
folded. -/
def isStranded (g g' : Graph) (c : Name) : Bool :=
  g.isReferred c && !g'.isReferred c && (g'.get? c).any (fun r => r.status ≠ .fully) &&
    (Folding.anew .interpreter { state := () } g' ∅).isFoldable {} c

/-- The stage of the hike is left behind, so it was abandoned: the route, which was the last to
refer to it, was deleted when the trip was folded. -/
theorem left_behind_only_if_abandoned_hike :
    ∃ g' s', hike.foldWith .interpreter {} { state := () } = .ok g' s' ∧
      hike.isStranded g' ⟨"stage", 1⟩ = true ∧
      (∃ y, g'.evaluate ⟨"stage", 1⟩ = .ok y ∧ y.isConstant = false) ∧
      hike.IsAbandoned .interpreter {} { state := () } ⟨"stage", 1⟩ := by
  have hrun : hike.fold.toOption.any (fun g' => hike.isStranded g' ⟨"stage", 1⟩) = true := by
    decide +kernel
  obtain ⟨g', hfold, hstranded⟩ := exists_fold_of_any hrun
  obtain ⟨s', hwith⟩ := foldWith_of_fold hfold
  obtain ⟨u, s₁, hu, hleft⟩ :=
    left_behind_only_if_abandoned Evaluator.consults_interpreter rfl hwith
  obtain ⟨rfl, -⟩ : ∅ = u ∧ _ := EStateM.Result.ok.inj hu
  refine ⟨g', s', hwith, hstranded, ?_⟩
  simp only [isStranded, Bool.and_eq_true, Bool.not_eq_true'] at hstranded
  obtain ⟨⟨⟨hbefore, hafter⟩, hopen⟩, hfoldable⟩ := hstranded
  obtain ⟨r, hr, hstatus⟩ := (Option.any_eq_true _ _).mp hopen
  obtain ⟨hreasons, -⟩ := hleft r (mem_of_get? hr) (name_of_get? hr ▸ hbefore)
  rw [name_of_get? hr] at hreasons
  rcases hreasons hafter with hfully | hblocked | ⟨hvaries, hinternal | habandoned⟩
  · exact absurd hfully (of_decide_eq_true hstatus)
  · cases hblocked.symm.trans hfoldable
  · exact absurd hinternal (by decide)
  · exact ⟨hvaries, habandoned⟩

/-- A hike whose trip overrides the pace.  The stage refers to the pace, so it is tainted while the
trip is folded. -/
def hike.paced : Graph where
  rules := [
    { name := ⟨"pace", 0⟩, expr := some (.const { value := .bool true }) },
    { name := ⟨"stage", 1⟩, expr := some (.any [.ref ⟨"pace", 0⟩, .ref ⟨"weather", 3⟩]) },
    { name := ⟨"trip", 2⟩,
      expr := some (.contextual
        (.cond (.const { value := .bool true }) (.const { value := .bool true })
          (.ref ⟨"stage", 1⟩))
        [(⟨"pace", 0⟩, .const { value := .bool true })]) },
    { name := ⟨"weather", 3⟩, question := some "Is the weather fine?" }]
  increasing := by decide

/-- A hike whose stage has an internal name. -/
def hike.inner : Graph where
  rules := [
    { name := ⟨"trip", 2⟩,
      expr := some (.cond (.const { value := .bool true }) (.const { value := .bool true })
        (.ref ⟨"trip . $stage", 1⟩)) },
    { name := ⟨"trip . $stage", 1⟩, expr := some (.any [.ref ⟨"weather", 3⟩]) },
    { name := ⟨"weather", 3⟩, question := some "Is the weather fine?" }]
  increasing := by decide

/-- A fold that leaves a rule behind can be read off an evaluation of it. -/
theorem exists_fold_of_stranded {names : List Name}
    (h : g.fold.toOption.any (fun g' => g'.names = names ∧ g.isStranded g' c) = true) :
    ∃ g', g.fold = .ok g' ∧ g'.names = names ∧ g.isStranded g' c = true := by
  obtain ⟨g', hfold, hg'⟩ := exists_fold_of_any h
  exact ⟨g', hfold, of_decide_eq_true hg'⟩

/-- The stage is left behind if the route that referred to it was deleted, if the trip was folded
while the stage was tainted, and if it has an internal name. -/
theorem pruning_does_not_cascade :
    (∃ g', hike.fold = .ok g' ∧ g'.names = [⟨"stage", 1⟩, ⟨"weather", 3⟩] ∧
      hike.isStranded g' ⟨"stage", 1⟩ = true) ∧
    (∃ g', hike.paced.fold = .ok g' ∧ g'.names = [⟨"stage", 1⟩, ⟨"trip", 2⟩, ⟨"weather", 3⟩] ∧
      hike.paced.isStranded g' ⟨"stage", 1⟩ = true) ∧
    ∃ g', hike.inner.fold = .ok g' ∧ g'.names = [⟨"trip . $stage", 1⟩, ⟨"weather", 3⟩] ∧
      hike.inner.isStranded g' ⟨"trip . $stage", 1⟩ = true := by
  refine ⟨?_, ?_, ?_⟩
  · exact exists_fold_of_stranded (by decide +kernel)
  · exact exists_fold_of_stranded (by decide +kernel)
  · exact exists_fold_of_stranded (by decide +kernel)

end Graph

end RuleGraph
