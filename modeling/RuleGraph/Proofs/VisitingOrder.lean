import RuleGraph.Proofs.Pruning
import RuleGraph.Proofs.Termination

/-! # The order in which names are visited

    A graph is the same in whichever order its rules were added.  During a run
    rules, parents and children are visited in the order of their texts, and all
    else is gone through in any order.  Where several names share a text, that
    leaves a choice.  `Folding.FreeStep` allows all of them, and
    `Graph.Outcome` collects the results that a run can have then.

    * No choice matters for the index and the taint, which are determined by the
      graph, nor for the names and the parents, which have different texts.
    * Among the children of a folded rule there may be names of one text, and
      they may be pruned in any order if the rule does not override one of them
      (`Graph.TellsApart`).  A run in any order then stays in step with the run
      in order (`Graph.Keeps`), and there is only one outcome.
    * Without that condition there may be two outcomes, as
      `two_outcomes_of_knot` shows. -/

namespace RuleGraph

/-! ## Adding rules in any order -/

namespace Graph

variable {g g' : Graph} {rules : List Rule}

/-- Rules with different texts make a graph. -/
theorem ofList_eq_ok (htexts : rules.Pairwise fun r t => r.name.text ≠ t.name.text) :
    ∃ g, ofList rules = .ok g ∧ g.rules.Perm rules := by
  obtain ⟨g, hfold, hperm⟩ := foldlM_insert_eq_ok (g := {}) htexts
    fun _ _ t ht => absurd ht List.not_mem_nil
  exact ⟨g, hfold, List.append_nil rules ▸ hperm⟩

/-- There is only one graph with given rules. -/
theorem eq_of_perm (h : g.rules.Perm g'.rules) : g = g' := by
  have hrules : g.rules = g'.rules := by
    refine List.Perm.eq_of_pairwise ?_ g.increasing g'.increasing h
    exact fun a b _ _ hab hba => absurd (String.lt_trans hab hba) (String.lt_irrefl _)
  cases g
  cases g'
  cases hrules
  rfl

end Graph

/-! ## Steps in any order -/

namespace Name

/-- The second list holds the names of the first one, sorted by text. -/
structure Resorts (ns ns' : List Name) : Prop where
  perm : ns'.Perm ns
  sorted : Sorted ns'

end Name

namespace Folding

variable {σ : Type} {ev : Evaluator σ} {opts : Options} {f f' : Folding σ} {n : Name}

/-- Take over a taint that was computed. -/
def withTaint (f : Folding σ) (taint : Taint) : Folding σ :=
  { f with taint }.emit (.tainted taint.tainted.size)

/-- The taint is one that can be computed at this moment. -/
def Computes (ev : Evaluator σ) (f : Folding σ) (taint : Taint) : Prop :=
  taint.Enumerates f.graph f.refs f.unfoldable fun n => ev.isAccessible f.graph n f.state

/-- One step of a run that sorts names by text, takes names of the same text in any order, and
goes through rules and links in any order. -/
inductive FreeStep (ev : Evaluator σ) (opts : Options) :
    Stage × Folding σ → Stage × Folding σ → Prop where
  | ordered {m m'} : Step ev opts m m' → FreeStep ev opts m m'
  | beginPass {f ns taint} : Name.Resorts f.graph.names ns → Computes ev f taint →
      FreeStep ev opts (.sweep, f) (.visit ⟨f.graph.size, 0, ns⟩, f.withTaint taint)
  | fold {f f' n y b k rest ps} : f.Due opts n → f.isIdle n = false → ask ev n f = .ok y f' →
      y.isConstant = true → Name.Resorts (f'.refs.parentsOf n) ps →
      FreeStep ev opts (.visit ⟨b, k, n :: rest⟩, f)
        (.substitute ⟨b, k, rest⟩ n y.toQuantity ps,
          (f'.emit (.folded n y.toQuantity)).setConstant n y.toQuantity)
  | copied {f pass n q cs} : Name.Resorts (f.refs.childrenOf n) cs →
      FreeStep ev opts (.substitute pass n q [], f) (.prune pass n cs, f)
  | siftPass {f total ns taint} : Name.Resorts f.graph.names ns → Computes ev f taint →
      FreeStep ev opts (.sift total, f) (.discard total f.graph.size ns, f.withTaint taint)
  | delete {m st} {f : Folding σ} {refs : References} {n : Name} {cs : List Name} :
      Step ev opts m (st, { f with refs := refs.erase n }) →
      cs.Perm (refs.childrenOf n) →
      FreeStep ev opts m (st, { f with refs := refs.eraseIn n cs })

/-- A run in any order that stands at the first moment may come to the second one. -/
def FreeReaches (ev : Evaluator σ) (opts : Options) :
    Stage × Folding σ → Stage × Folding σ → Prop :=
  Relation.ReflTransGen (FreeStep ev opts)

theorem Reaches.free {m m' : Stage × Folding σ} (h : Reaches ev opts m m') :
    FreeReaches ev opts m m' :=
  Relation.ReflTransGen.mono (fun _ _ => .ordered) _ _ h

/-- All taints that can be computed at a moment are the same. -/
theorem withTaint_eq {taint : Taint} (h : Computes ev f taint) :
    f.withTaint taint = f.refreshTaint ev := by
  rw [h.eq_ofGraph]
  rfl

/-- The rules of a graph can be visited in one order only, since no two of them have the same
text. -/
theorem names_eq_of_resorts {ns : List Name} (h : Name.Resorts f.graph.names ns) :
    ns = f.graph.names := by
  refine Name.eq_of_sorted ?_ h.sorted h.perm fun a ha b hb => Graph.eq_of_text_eq ha hb
  exact List.pairwise_map.mpr (f.graph.increasing.imp fun hlt => String.not_lt.mp (String.lt_asymm hlt))

/-- The parents of a rule are in the graph, so they have different texts. -/
theorem parentsOf_eq_of_resorts (h : f.refs.Tracks f.graph none) {ps : List Name}
    (hps : Name.Resorts (f.refs.parentsOf n) ps) : ps = f.refs.parentsOf n := by
  have hnames : ∀ p ∈ f.refs.parentsOf n, p ∈ f.graph.names := by
    intro p hp
    obtain ⟨r, hr, -⟩ := h.exact (h.sound.transposed.mp (References.mem_parentsOf.mp hp)) nofun
    exact Graph.mem_names_of_get? hr
  refine Name.eq_of_sorted (Name.sorted_toList _) hps.sorted hps.perm ?_
  exact fun a ha b hb => Graph.eq_of_text_eq (hnames a ha) (hnames b hb)

end Folding

/-! ## What is known about the children of a folded rule -/

namespace Graph

open RuleGraph.Folding (Stage Step)

variable {σ : Type} {ev : Evaluator σ} {opts : Options} {g g' : Graph} {s s' : Session σ}
  {st st' : Stage} {f f' : Folding σ} {n p c : Name}

/-- The rules that the taint holds for overriders did override the rule at the start. -/
theorem Passes.overriders (h : g.Passes ev opts s st f)
    (hp : p ∈ f.taint.overriders.targets c) : g.Overrides p c := by
  refine h.invariant_of_passes (P := fun _ f =>
    p ∈ f.taint.overriders.targets c → g.Overrides p c) ?_ ?_ hp
  · exact fun _ hp => absurd hp Links.not_mem_targets_empty
  · intro st₁ f₁ st₂ f₂ hpasses hover hstep hp
    rcases hstep.taint with rfl | ⟨-, -, htaint⟩
    · exact hpasses.overrides (Taint.mem_targets_overridersIn.mp hp)
    · rw [htaint] at hp
      exact hover hp

/-- The children that the index has for a folded rule were its links at the start, and nothing
blocks them but an override by that rule. -/
def Cleared (g : Graph) (f : Folding σ) (n : Name) : Prop :=
  ∀ c ∈ f.refs.children.targets n, g.HasLink n c ∧ c ∉ f.unfoldable ∧
    ∀ p ∈ f.taint.overriders.targets c, p = n

/-- Children stay cleared when some of them go and the taint stays. -/
theorem Cleared.mono (h : g.Cleared f n)
    (hchildren : ∀ c ∈ f'.refs.children.targets n, c ∈ f.refs.children.targets n)
    (hsame : f.SameTaint f') : g.Cleared f' n := by
  intro c hc
  rw [hsame.1, hsame.2]
  exact h c (hchildren c hc)

/-- A rule that is about to be folded is cleared. -/
theorem cleared_of_isFoldable (h : g.Passes ev opts s st f) (hf : f.UpToDate none)
    (hfoldable : f.isFoldable opts n = true) : g.Cleared f n := by
  intro c hc
  have hleads : f.refs.children.Leads n c := Relation.ReflTransGen.single hc
  exact ⟨h.hasLink (hf.tracks.exact hc nofun),
    Folding.not_mem_unfoldable_of_isFoldable hf.covers hfoldable hleads,
    fun _ => Folding.overrider_eq_of_isFoldable hf.covers hfoldable hleads⟩

theorem mem_children_of_substituteIn {q : Quantity}
    (h : Folding.substituteIn opts n q p f = .ok () f') {m : Name}
    (hc : c ∈ f'.refs.children.targets m) : c ∈ f.refs.children.targets m := by
  rcases Folding.substituteIn_eq_ok h with ⟨-, rfl⟩ | ⟨r, -, -, rfl⟩
  · exact hc
  · rw [Folding.adopt] at hc
    split at hc
    · exact hc
    · exact (References.mem_children_unlink.mp hc).1

theorem mem_children_of_pruneChild {m d : Name}
    (hc : c ∈ (f.pruneChild opts n d).refs.children.targets m) :
    c ∈ f.refs.children.targets m := by
  rcases Folding.pruneChild_eq opts f n d with heq | heq
  · rw [heq] at hc
    exact (References.mem_children_unlink.mp hc).1
  · rw [heq] at hc
    exact (References.mem_children_unlink.mp (References.mem_children_erase.mp hc).2).1

/-- While a rule is being folded, it stays cleared. -/
theorem Passes.cleared (h : g.Passes ev opts s st f) (ht : st.target = some n) :
    g.Cleared f n := by
  refine h.invariant_of_passes (P := fun st f => st.target = some n → g.Cleared f n) ?_ ?_ ht
  · intro _ _ _ hn
    cases hn
  · intro st₁ f₁ st₂ f₂ hpasses hcleared hstep hn
    cases hstep with
    | fold hdue _ hask _ =>
        have hconsistent : f₁.UpToDate none := hpasses.consistent
        obtain ⟨s₁, rfl, -⟩ := Folding.ask_eq_ok hask
        cases hn
        exact (cleared_of_isFoldable hpasses hconsistent hdue.2).mono (fun _ => id) ⟨rfl, rfl⟩
    | copy hsub =>
        exact (hcleared hn).mono (fun c => mem_children_of_substituteIn hsub)
          (Folding.sameTaint_substituteIn hsub)
    | copied => exact hcleared hn
    | pruneOne =>
        exact (hcleared hn).mono (fun c => mem_children_of_pruneChild)
          (Folding.sameTaint_pruneChild ..)
    | beginPass | skip _ | deleteIdle _ _ _ | keepIdle _ _ _ | vary _ _ _ _ | settle
    | passAgain _ | endSweep _ _ | beginSift _ _ | siftPass | discard | siftAgain _
    | endSift _ _ | foldAgain _ _ => cases hn

/-- No rule overrides a name and is linked to another name of the same text. -/
def TellsApart (g : Graph) : Prop :=
  ∀ p c d, g.Overrides p c → g.HasLink p d → d.text = c.text → d = c

/-- Once the constant of a rule was copied into its parents, the children of the rule may be pruned
in any order. -/
theorem Passes.prunable {pass : Folding.Pass} {q : Quantity} (hg : g.TellsApart)
    (h : g.Passes ev opts s (.substitute pass n q []) f) :
    f.Prunable n (f.refs.childrenOf n) := by
  obtain ⟨hf, hconst, -, -⟩ := h.consistent
  have hcleared : g.Cleared f n := h.cleared rfl
  refine ⟨hf.tracks, hconst.not_hasLink, ?_, ?_⟩
  · rintro c hc rfl
    obtain ⟨⟨r, hr, hlink⟩, -⟩ := hcleared c (References.mem_childrenOf.mp hc)
    exact (Rule.mem_links.mp hlink).2.1 (name_of_get? hr).symm
  · intro a ha b hb htext hab root
    obtain ⟨hlink, -⟩ := hcleared a (References.mem_childrenOf.mp ha)
    obtain ⟨-, hunfoldable, hover⟩ := hcleared b (References.mem_childrenOf.mp hb)
    have hfree : ∀ p, p ∉ f.taint.overriders.targets b := by
      intro p hp
      have hpn : p = n := hover p hp
      exact hab (hg n b a (hpn ▸ h.overriders hp) hlink htext)
    rw [Folding.blocks, Bool.or_eq_false_iff, Taint.isOverriddenExcept_eq_false]
    exact ⟨Bool.eq_false_iff.mpr fun hmem => hunfoldable (Std.ExtTreeSet.contains_iff_mem.mp hmem),
      fun p hp => absurd hp (hfree p)⟩

/-! ## In step with the run in order -/

/-- A run in any order has come to a moment of the run in order; where children are being pruned, it
will have when that is over. -/
def Keeps (ev : Evaluator σ) (opts : Options) (g : Graph) (s : Session σ) :
    Stage → Folding σ → Prop
  | .prune pass n cs, f =>
      g.Passes ev opts s (.prune pass n []) (cs.foldl (Folding.pruneChild opts n) f)
  | st, f => g.Passes ev opts s st f

theorem Passes.keeps (h : g.Passes ev opts s st f) : g.Keeps ev opts s st f := by
  cases st with
  | prune pass n cs => exact h.trans (Folding.reaches_prune ev opts pass n cs f)
  | sweep | visit _ | substitute _ _ _ _ | sift _ | discard _ _ _ | done => exact h

/-- Going on in order keeps in step. -/
theorem Keeps.step_ordered (h : g.Keeps ev opts s st f) (hstep : Step ev opts (st, f) (st', f')) :
    g.Keeps ev opts s st' f' := by
  cases st with
  | prune pass n cs =>
      cases hstep with
      | pruneOne => exact h
      | settle => exact (Passes.trans h (Relation.ReflTransGen.single .settle)).keeps
  | sweep | visit _ | substitute _ _ _ _ | sift _ | discard _ _ _ | done =>
      exact (Passes.trans h (Relation.ReflTransGen.single hstep)).keeps

/-- Every step in any order keeps in step, if texts tell apart what is overridden. -/
theorem Keeps.step (hg : g.TellsApart) (h : g.Keeps ev opts s st f)
    (hstep : Folding.FreeStep ev opts (st, f) (st', f')) : g.Keeps ev opts s st' f' := by
  cases hstep with
  | ordered hstep => exact h.step_ordered hstep
  | beginPass hns htaint =>
      rw [Folding.names_eq_of_resorts hns, Folding.withTaint_eq htaint]
      exact Passes.trans h (Relation.ReflTransGen.single (.beginPass f))
  | fold hdue hidle hask hy hps =>
      have hconsistent : f.UpToDate none := Passes.consistent h
      obtain ⟨s₁, rfl, -⟩ := Folding.ask_eq_ok hask
      rw [Folding.parentsOf_eq_of_resorts (f := { f with toSession := s₁ }) hconsistent.tracks hps]
      exact Passes.trans h (Relation.ReflTransGen.single (.fold hdue hidle hask hy))
  | copied hcs =>
      -- the one choice that may lead to other moments, until all children are pruned
      show g.Passes ev opts s _ _
      rw [Folding.foldl_pruneChild_eq (Passes.prunable hg h) hcs.sorted hcs.perm]
      exact (Passes.trans h (Relation.ReflTransGen.single .copied)).trans
        (Folding.reaches_prune ev opts _ _ _ _)
  | siftPass hns htaint =>
      rw [Folding.names_eq_of_resorts hns, Folding.withTaint_eq htaint]
      exact Passes.trans h (Relation.ReflTransGen.single .siftPass)
  | delete hstep hcs =>
      rw [References.eraseIn_eq_erase hcs]
      exact h.step_ordered hstep

/-! ## Outcomes -/

/-- A result that folding the graph can have, if it goes through names of the same text, and through
rules and links, in any order. -/
inductive Outcome (ev : Evaluator σ) (opts : Options) (g : Graph) (s : Session σ) :
    EStateM.Result FoldError (Session σ) Graph → Prop where
  | unknown {e : EvalError} {s' : Session σ}
      (unfoldable : (g.restoreStatus opts.marker).unfoldable ev s = .error e s') :
      Outcome ev opts g s (.error (.evaluation e) s')
  | done {u : NameSet} {s' : Session σ} {refs : References} {f : Folding σ}
      (unfoldable : (g.restoreStatus opts.marker).unfoldable ev s = .ok u s')
      (indexes : refs.Indexes (g.restoreStatus opts.marker))
      (reaches : Folding.FreeReaches ev opts
        (.sweep, { Folding.start s' (g.restoreStatus opts.marker) u with refs }) (.done, f)) :
      Outcome ev opts g s (.ok f.graph f.toSession)
  | fault {u : NameSet} {s' : Session σ} {refs : References} {st : Stage} {f f' : Folding σ}
      {e : FoldError}
      (unfoldable : (g.restoreStatus opts.marker).unfoldable ev s = .ok u s')
      (indexes : refs.Indexes (g.restoreStatus opts.marker))
      (reaches : Folding.FreeReaches ev opts
        (.sweep, { Folding.start s' (g.restoreStatus opts.marker) u with refs }) (st, f))
      (fault : Folding.Fault ev opts (st, f) e f') :
      Outcome ev opts g s (.error e f'.toSession)

/-- The result of folding in order is one of the outcomes. -/
theorem outcome_foldWith (ev : Evaluator σ) (opts : Options) (g : Graph) (s : Session σ) :
    g.Outcome ev opts s (g.foldWith ev opts s) := by
  rw [foldWith]
  cases hu : (g.restoreStatus opts.marker).unfoldable ev s with
  | error e s' => exact .unknown hu
  | ok u s' =>
      have hindexes := References.indexes_ofGraph (g.restoreStatus opts.marker)
      have hrun := Folding.yields_run ev opts (Folding.start s' (g.restoreStatus opts.marker) u)
      dsimp only
      cases hr : (Folding.start s' (g.restoreStatus opts.marker) u).run ev opts with
      | ok _ f =>
          rw [hr] at hrun
          exact .done hu hindexes hrun.free
      | error e f =>
          rw [hr] at hrun
          obtain ⟨⟨st, f₁⟩, hreaches, hfault⟩ := hrun
          exact .fault hu hindexes hreaches.free hfault

/-- A whole run in any order keeps in step. -/
theorem keeps_of_freeReaches (hg : g.TellsApart) {u : NameSet} {refs : References}
    (hu : (g.restoreStatus opts.marker).unfoldable ev s = .ok u s')
    (hindexes : refs.Indexes (g.restoreStatus opts.marker)) {m : Stage × Folding σ}
    (h : Folding.FreeReaches ev opts
      (.sweep, { Folding.start s' (g.restoreStatus opts.marker) u with refs }) m) :
    g.Keeps ev opts s m.1 m.2 := by
  induction h with
  | refl =>
      rw [hindexes.eq_ofGraph]
      exact ⟨u, s', hu, Relation.ReflTransGen.refl⟩
  | tail _ hstep ih => exact ih.step hg hstep

/-- The result of folding is where its steps end. -/
theorem foldWith_eq_of_done (h : g.Passes ev opts s .done f) :
    g.foldWith ev opts s = .ok f.graph f.toSession := by
  obtain ⟨u, s', hu, hreaches⟩ := h
  have hrun : (Folding.start s' (g.restoreStatus opts.marker) u).run ev opts = .ok () f :=
    (Folding.yields_run ev opts _).unique hreaches
  rw [foldWith, hu]
  dsimp only
  rw [hrun]

/-- Folding fails with the error of the stage that it comes to. -/
theorem foldWith_eq_of_fault {e : FoldError} (h : g.Passes ev opts s st f)
    (hfault : Folding.Fault ev opts (st, f) e f') :
    g.foldWith ev opts s = .error e f'.toSession := by
  obtain ⟨u, s', hu, hreaches⟩ := h
  have hrun : (Folding.start s' (g.restoreStatus opts.marker) u).run ev opts = .error e f' :=
    (Folding.yields_run ev opts _).unique ⟨_, hreaches, hfault⟩
  rw [foldWith, hu]
  dsimp only
  rw [hrun]

/-- If names are told apart, there is one outcome only. -/
theorem Outcome.eq_foldWith (hg : g.TellsApart) {r : EStateM.Result FoldError (Session σ) Graph}
    (h : g.Outcome ev opts s r) : r = g.foldWith ev opts s := by
  cases h with
  | unknown hu =>
      rw [foldWith, hu]
  | done hu hindexes hreaches =>
      exact (foldWith_eq_of_done (keeps_of_freeReaches hg hu hindexes hreaches)).symm
  | fault hu hindexes hreaches hfault =>
      have hkeeps := keeps_of_freeReaches hg hu hindexes hreaches
      -- no rule fails while children are pruned
      cases hfault with
      | ask hdue hidle hask => exact (foldWith_eq_of_fault hkeeps (.ask hdue hidle hask)).symm
      | copy hsub => exact (foldWith_eq_of_fault hkeeps (.copy hsub)).symm

end Graph

/-! ## Another way to go -/

namespace Folding

variable {σ : Type} {ev : Evaluator σ} {opts : Options} {f f' : Folding σ} {n : Name}

/-- Fold a rule to a constant, and prune its children in a given order. -/
def foldVia (ev : Evaluator σ) (opts : Options) (n : Name) (children : List Name)
    (f : Folding σ) : Option (Folding σ) :=
  match ask ev n f with
  | .error _ _ => none
  | .ok y f =>
    match substitute opts n y.toQuantity
        ((f.emit (.folded n y.toQuantity)).setConstant n y.toQuantity) with
    | .error _ _ => none
    | .ok _ f =>
      if y.isConstant ∧ children.isPerm (f.refs.childrenOf n) then
        some ((children.foldl (pruneChild opts n) f).settle opts n)
      else none

/-- A rule can be folded with its children pruned in any order that is sorted by text. -/
theorem freeReaches_foldVia {children : List Name} (hdue : f.Due opts n) (hidle : f.isIdle n = false)
    (hsorted : Name.Sorted children) (h : f.foldVia ev opts n children = some f') (b k : Nat)
    (rest : List Name) :
    FreeReaches ev opts (.visit ⟨b, k, n :: rest⟩, f) (.visit ⟨b, k + 1, rest⟩, f') := by
  rw [foldVia] at h
  cases hask : ask ev n f with
  | error e f₁ =>
      rw [hask] at h
      cases h
  | ok y f₁ =>
      rw [hask] at h
      dsimp only at h
      have hsub := yields_substituteAll ev opts ⟨b, k, rest⟩ n y.toQuantity (f₁.refs.parentsOf n)
        ((f₁.emit (.folded n y.toQuantity)).setConstant n y.toQuantity)
      change Yields ev opts _ _ (substitute opts n y.toQuantity
        ((f₁.emit (.folded n y.toQuantity)).setConstant n y.toQuantity)) at hsub
      cases hr : substitute opts n y.toQuantity
          ((f₁.emit (.folded n y.toQuantity)).setConstant n y.toQuantity) with
      | error e f₂ =>
          rw [hr] at h
          cases h
      | ok u f₂ =>
          rw [hr] at h hsub
          dsimp only at h
          split at h
          · rename_i hcond
            cases h
            have hresorts : Name.Resorts (f₂.refs.childrenOf n) children :=
              ⟨List.isPerm_iff.mp hcond.2, hsorted⟩
            have hfold := Relation.ReflTransGen.head (Step.fold hdue hidle hask hcond.1) hsub
            have hprune := Relation.ReflTransGen.tail
              (reaches_prune ev opts ⟨b, k, rest⟩ n children f₂) Step.settle
            exact (Reaches.free hfold).trans
              (Relation.ReflTransGen.head (.copied hresorts) (Reaches.free hprune))
          · cases h

end Folding

namespace Graph

/-- The end of a run that folds its first rule with the children pruned in a given order, and goes on
in order. -/
def detour? {σ : Type} (ev : Evaluator σ) (opts : Options) (g : Graph) (s : Session σ) (n : Name)
    (children rest : List Name) : Option (Folding σ) :=
  (g.begun? ev opts s).bind fun f =>
    if (f.isDone n || !f.isFoldable opts n || f.isIdle n) = false then
      (f.foldVia ev opts n children).bind fun f =>
        match rest.foldlM (Folding.visit ev opts) 1 f with
        | .error _ _ => none
        | .ok k f =>
          match (f.emit (.swept (g.restoreStatus opts.marker).size f.graph.size k)).run ev opts with
          | .error _ _ => none
          | .ok _ f => some f
    else none

/-- Such a run gives an outcome. -/
theorem outcome_of_detour? {σ : Type} {ev : Evaluator σ} {opts : Options} {g : Graph}
    {s : Session σ} {n : Name} {children rest : List Name} {f : Folding σ}
    (hnames : (g.restoreStatus opts.marker).names = n :: rest) (hsorted : Name.Sorted children)
    (h : g.detour? ev opts s n children rest = some f) :
    g.Outcome ev opts s (.ok f.graph f.toSession) := by
  obtain ⟨f₀, hbegun, h⟩ := Option.bind_eq_some_iff.mp h
  obtain ⟨u, s', hu, hstart⟩ := passes_of_begun? hbegun
  rw [hnames] at hstart
  split at h
  · rename_i hcond
    obtain ⟨f₁, hvia, h⟩ := Option.bind_eq_some_iff.mp h
    simp only [Bool.or_eq_false_iff, Bool.not_eq_false'] at hcond
    have hfirst := Folding.freeReaches_foldVia ⟨hcond.1.1, hcond.1.2⟩ hcond.2 hsorted hvia
      (g.restoreStatus opts.marker).size 0 rest
    have hvisits := Folding.yields_visits ev opts rest f₁ (g.restoreStatus opts.marker).size 1
    cases hr : rest.foldlM (Folding.visit ev opts) 1 f₁ with
    | error e f₂ =>
        rw [hr] at h
        cases h
    | ok k f₂ =>
        rw [hr] at h hvisits
        dsimp only at h
        -- a rule was folded, so the pass is not the last one
        have hk : 1 ≤ k := (Folding.lighter_foldlM_visit hr).2.1
        have hagain : Folding.Step ev opts
            (.visit ⟨(g.restoreStatus opts.marker).size, k, []⟩, f₂)
            (.sweep, f₂.emit (.swept (g.restoreStatus opts.marker).size f₂.graph.size k)) :=
          .passAgain (by omega)
        have hrun := Folding.yields_run ev opts
          (f₂.emit (.swept (g.restoreStatus opts.marker).size f₂.graph.size k))
        split at h
        · cases h
        · rename_i hend
          cases h
          rw [hend] at hrun
          refine .done hu (References.indexes_ofGraph _) ?_
          exact (Folding.Reaches.free hstart).trans (hfirst.trans (Folding.Reaches.free
            (Relation.ReflTransGen.trans hvisits (Relation.ReflTransGen.head hagain hrun))))
  · cases h

/-! ## Whether the order matters -/

section

variable {rules rules' : List Rule}

/-- It does not matter in which order rules are added, and names of the same text may be visited in
any order, as long as no rule overrides one of two such names that it is linked to.  The outcome is
an error, or a graph, together with all that happened meanwhile and with the state of the evaluator.
An evaluator can keep the names it was asked to evaluate in its state, so it was asked for the same
values in the same order.  How often it was asked whether a name is accessible is left open, since
that question changes no state. -/
theorem order_does_not_matter (htexts : rules.Pairwise fun r t => r.name.text ≠ t.name.text)
    (hperm : rules'.Perm rules) :
    ∃ g, ofList rules = .ok g ∧ ofList rules' = .ok g ∧ g.rules.Perm rules ∧
      ((∀ r ∈ rules, ∀ c ∈ r.overridden, ∀ d ∈ r.links, d.text = c.text → d = c) →
        ∀ (σ : Type) (ev : Evaluator σ) (opts : Options) (s : Session σ) result,
          g.Outcome ev opts s result ↔ result = g.foldWith ev opts s) := by
  obtain ⟨g, hg, hrules⟩ := ofList_eq_ok htexts
  have htexts' : rules'.Pairwise fun r t => r.name.text ≠ t.name.text :=
    (hperm.pairwise_iff fun h => Ne.symm h).mpr htexts
  obtain ⟨g', hg', hrules'⟩ := ofList_eq_ok htexts'
  obtain rfl : g = g' := eq_of_perm (hrules.trans (hrules'.trans hperm).symm)
  refine ⟨g, hg, hg', hrules, ?_⟩
  intro hapart σ ev opts s result
  have htells : g.TellsApart := by
    rintro p c d ⟨r, hr, hc⟩ ⟨t, ht, hd⟩ htext
    obtain rfl : r = t := Option.some.inj (hr.symm.trans ht)
    exact hapart r (hrules.mem_iff.mp (mem_of_get? hr)) c hc d hd htext
  refine ⟨Outcome.eq_foldWith htells, ?_⟩
  rintro rfl
  exact outcome_foldWith ev opts g s

/-- A trip and a plan that refers to two trips of the same text, only one of which is a rule.  The
plan overrides the week. -/
def trips : List Rule := [
  { name := ⟨"trip", 1⟩, expr := some (.const { value := .bool true }) },
  { name := ⟨"plan", 0⟩
    expr := some (.contextual
      (.cond (.const { value := .bool true }) (.ref ⟨"trip", 1⟩) (.ref ⟨"trip", 2⟩))
      [(⟨"week", 3⟩, .ref ⟨"trip", 1⟩)]) }]

/-- Folding that keeps the plan. -/
def trips.options : Options where
  keep := some fun r => r.name.text == "plan"

/-- Both trips are pruned after the plan, in either order, and only the plan is left. -/
theorem order_does_not_matter_of_trips :
    ∃ g, ofList trips = .ok g ∧ ofList trips.reverse = .ok g ∧
      (∃ g', g.fold trips.options = .ok g' ∧ g'.names = [⟨"plan", 0⟩]) ∧
      ∀ result, g.Outcome .interpreter trips.options { state := () } result ↔
        result = g.foldWith .interpreter trips.options { state := () } := by
  have htexts : trips.Pairwise fun r t => r.name.text ≠ t.name.text := by decide
  obtain ⟨g, hg, hg', -, hfold⟩ := order_does_not_matter htexts (List.reverse_perm trips)
  have hrun : (ofList trips).toOption.any (fun g =>
      (g.fold trips.options).toOption.any fun g' => g'.names = [⟨"plan", 0⟩]) = true := by
    decide +kernel
  rw [hg] at hrun
  obtain ⟨g', hfolded, hnames⟩ := exists_fold_of_any hrun
  have hdeps : ∀ r ∈ trips, ∀ c ∈ r.overridden, ∀ d ∈ r.dependencies, d.text = c.text → d = c := by
    decide +kernel
  refine ⟨g, hg, hg', ⟨g', hfolded, of_decide_eq_true hnames⟩, ?_⟩
  exact hfold (fun r hr c hc d hd => hdeps r hr c hc d (Rule.mem_links.mp hd).1) Unit .interpreter
    trips.options { state := () }

end

/-- A plan that overrides a trip, and refers to a rule of the same text for that; the rule depends on
the plan again. -/
def knot : Graph where
  rules := [
    { name := ⟨"plan", 0⟩
      expr := some (.contextual (.ref ⟨"trip", 1⟩) [(⟨"trip", 2⟩, .ref ⟨"trip", 1⟩)]) },
    { name := ⟨"trip", 1⟩
      expr := some (.contextual (.cond (.const { value := .bool true })
        (.const { value := .bool true }) (.ref ⟨"week", 3⟩)) []) },
    { name := ⟨"week", 3⟩, expr := some (.ref ⟨"plan", 0⟩) }]
  increasing := by decide

/-- Folding that avoids the week. -/
def knot.options : Options where
  avoid := some fun r => r.name.text == "week"

/-- The outcome depends on which of the two trips is pruned first after the plan was folded.  As long
as the one that is no rule is linked, the other one leads to an overridden name, and stays. -/
theorem two_outcomes_of_knot :
    (∃ g s, knot.Outcome .interpreter knot.options { state := () } (.ok g s) ∧
      g.contains ⟨"trip", 1⟩ = true) ∧
    ∃ g s, knot.Outcome .interpreter knot.options { state := () } (.ok g s) ∧
      g.contains ⟨"trip", 1⟩ = false := by
  refine ⟨?_, ?_⟩
  · have hrun : (knot.fold knot.options).toOption.any (fun g => g.contains ⟨"trip", 1⟩) = true := by
      decide +kernel
    obtain ⟨g, hfold, htrip⟩ := exists_fold_of_any hrun
    obtain ⟨s, hwith⟩ := foldWith_of_fold hfold
    have houtcome := outcome_foldWith .interpreter knot.options knot { state := () }
    rw [hwith] at houtcome
    exact ⟨g, s, houtcome, htrip⟩
  · have hrun : (knot.detour? .interpreter knot.options { state := () } ⟨"plan", 0⟩
        [⟨"trip", 2⟩, ⟨"trip", 1⟩] [⟨"trip", 1⟩, ⟨"week", 3⟩]).any
        (fun f => !f.graph.contains ⟨"trip", 1⟩) = true := by
      decide +kernel
    obtain ⟨f, hdetour, htrip⟩ := (Option.any_eq_true _ _).mp hrun
    refine ⟨f.graph, f.toSession, outcome_of_detour? rfl (by simp [Name.Sorted]) hdetour, ?_⟩
    simpa using htrip

end Graph

end RuleGraph
