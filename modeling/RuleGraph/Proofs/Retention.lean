import Mathlib.Data.Finset.Card
import RuleGraph.Proofs.Protection
import RuleGraph.Proofs.Quiescence

/-! # What remains if there are rules to keep

    If there are rules to keep, a run deletes everything else that it may
    delete and that nothing is linked to.  What is left is there for a reason:
    every rule of the folded graph can be reached from a rule that is kept, or
    that folding has to leave alone (`only_needed_rules_remain`).

    * The last pass of the filter finds nothing to delete, so each rule that is
      left is kept, or held back, or linked to (`Folding.Sieved`).  This does
      not depend on the answers of the evaluator.
    * Links only go away during a run, so the links of the folded graph are as
      free of cycles as those of the graph that the run began with.  Hence
      climbing from a rule to one that is linked to it comes to an end
      (`Acyclic.wellFounded`), and it can only end at a rule of the first two
      kinds. -/

namespace RuleGraph

/-! ## Graphs without cycles -/

namespace Graph

variable {g g' : Graph} {p c : Name}

/-- No name leads back to itself along the links of the graph. -/
def Acyclic (g : Graph) : Prop := ∀ n, ¬Relation.TransGen g.HasLink n n

theorem Acyclic.mono (h : g.Acyclic) (hlinks : ∀ p c, g'.HasLink p c → g.HasLink p c) :
    g'.Acyclic := fun n hn => h n (Relation.TransGen.mono hlinks n n hn)

theorem HasLink.mem_names (h : g.HasLink p c) : p ∈ g.names := by
  obtain ⟨r, hr, -⟩ := h
  exact mem_names_of_get? hr

/-- In a graph without cycles, one cannot climb from rule to rule for ever: a rule that is linked to
another one has fewer rules above it. -/
theorem Acyclic.wellFounded (h : g.Acyclic) : WellFounded g.HasLink := by
  classical
  let above (n : Name) : Finset Name :=
    g.names.toFinset.filter fun m => Relation.TransGen g.HasLink m n
  refine Subrelation.wf ?_ (InvImage.wf (fun n => (above n).card) Nat.lt_wfRel.wf)
  intro p n hpn
  refine Finset.card_lt_card ⟨?_, ?_⟩
  · intro m hm
    obtain ⟨hm, hmp⟩ := Finset.mem_filter.mp hm
    exact Finset.mem_filter.mpr ⟨hm, hmp.tail hpn⟩
  · -- the rule itself is above what it is linked to, but not above itself
    intro hsub
    have hp : p ∈ above n :=
      Finset.mem_filter.mpr ⟨List.mem_toFinset.mpr hpn.mem_names, .single hpn⟩
    exact h p (Finset.mem_filter.mp (hsub hp)).2

end Graph

/-! ## The last pass of the filter -/

namespace Folding

variable {σ : Type} {ev : Evaluator σ} {oracle : Oracle} {opts : Options} {f f' : Folding σ}

/-- What the passes of the filter have found out: as long as one of them has deleted nothing, the
rules that it has come past are sifted. -/
def Sieved (oracle : Oracle) (opts : Options) : Stage → Folding σ → Prop
  | .discard _ before rest, f => f.graph.size ≤ before ∧
      (f.graph.size = before → f.Fresh oracle ∧
        ∀ n ∈ f.graph.names, n ∈ rest ∨ f.graph.Sifted oracle opts f.unfoldable n)
  | .done, f => opts.keep.isSome = true →
      ∀ n ∈ f.graph.names, f.graph.Sifted oracle opts f.unfoldable n
  | _, _ => True

/-- Every step passes on what the filter has found out, and adds the rule that it has come past. -/
theorem Sieved.step {st st' : Stage}
    (haccess : ∀ g n s, ev.isAccessible g n s = oracle.isAccessible g n)
    (hconsistent : Consistent st f) (h : Sieved oracle opts st f)
    (hstep : Step ev opts (st, f) (st', f')) : Sieved oracle opts st' f' := by
  cases hstep with
  | beginPass | skip _ | deleteIdle _ _ _ | keepIdle _ _ _ | vary _ _ _ _ | fold _ _ _ _
  | copy _ | copied | pruneOne | settle | passAgain _ | beginSift _ _ | siftAgain _
  | foldAgain _ _ => trivial
  | endSweep _ hkeep =>
      intro hsome
      rw [Option.isNone_iff_eq_none.mp hkeep] at hsome
      cases hsome
  | siftPass =>
      exact ⟨Nat.le_refl _, fun _ => ⟨fresh_of_isAccessible haccess f, fun n hn => Or.inl hn⟩⟩
  | @discard _ _ _ n _ =>
      rw [Folding.discard]
      cases hd : f.delete? opts n with
      | some f' =>
          -- there are too few rules now for this pass to be the last one
          have hlt : f'.graph.size < f.graph.size := size_of_delete? hd
          exact ⟨Nat.le_trans (Nat.le_of_lt hlt) h.1,
            fun hsize => absurd hsize (Nat.ne_of_lt (Nat.lt_of_lt_of_le hlt h.1))⟩
      | none =>
          refine ⟨h.1, fun hsize => ?_⟩
          obtain ⟨hfresh, hrest⟩ := h.2 hsize
          exact ⟨hfresh, mem_rest_or hrest (hfresh.sifted_of_delete? hconsistent.tracks hd)⟩
  | endSift hsame _ =>
      obtain ⟨-, hrest⟩ := h.2 hsame
      exact fun _ n hn => (hrest n hn).resolve_left List.not_mem_nil

end Folding

/-! ## What every rule is there for -/

namespace Graph

variable {σ : Type} {ev : Evaluator σ} {oracle : Oracle} {opts : Options} {g g' : Graph}
  {s s' : Session σ} {unfoldable : NameSet} {f : Folding σ} {n : Name}

/-- If there are rules to keep, a run ends with a graph whose rules are kept or linked to, as far as
they are eligible. -/
theorem Passes.sifted (h : g.Passes ev opts s .done f)
    (haccess : ∀ g n s, ev.isAccessible g n s = oracle.isAccessible g n)
    (hkeep : opts.keep.isSome = true) :
    ∀ n ∈ f.graph.names, f.graph.Sifted oracle opts f.unfoldable n :=
  h.invariant_of_consistent (P := Folding.Sieved oracle opts) (fun _ => trivial)
    (Folding.Sieved.step haccess) hkeep

/-- Why folding leaves a rule of the graph alone: it is avoided, an input or not accessible, or it
depends on a rule that is unfoldable or that another rule overrides. -/
inductive Held (opts : Options) (unfoldable : NameSet) (g : Graph) (r : Rule) : Prop where
  | avoided (avoids : opts.avoids r = true)
  | input (isInput : r.isInput = true)
  | inaccessible (closed : g.isAccessible r.name = false)
  | vetoed (vetoed : g.Vetoed unfoldable r.name)
  | overridden {p c : Name} (leads : g.Leads r.name c) (overrides : g.Overrides p c)
      (ne : p ≠ r.name)

/-- A rule that is not eligible is held. -/
theorem held_of_not_eligible {r : Rule} (hr : r ∈ g.rules)
    (haccess : oracle.isAccessible = Graph.isAccessible)
    (h : ¬g.Eligible oracle opts unfoldable r.name r) : g.Held opts unfoldable r := by
  by_contra hheld
  refine h ⟨⟨get?_name_of_mem hr, ?_, ?_, ?_, ?_⟩, ?_⟩
  · exact Bool.eq_false_iff.mpr fun havoids => hheld (.avoided havoids)
  · exact Bool.eq_false_iff.mpr fun hinput => hheld (.input hinput)
  · exact fun hleads hc => hheld (.vetoed ⟨_, hc, hleads⟩)
  · intro p c hleads hover
    by_contra hne
    exact hheld (.overridden hleads hover hne)
  · rw [haccess]
    by_contra hclosed
    exact hheld (.inaccessible (Bool.eq_false_iff.mpr hclosed))

/-- In a graph without cycles whose eligible rules are kept or linked to, every rule can be reached
from one that is kept or not eligible. -/
theorem Acyclic.exists_root (hacyclic : g.Acyclic)
    (hsifted : ∀ n ∈ g.names, g.Sifted oracle opts unfoldable n) {r : Rule} (hr : r ∈ g.rules) :
    ∃ root ∈ g.rules, g.Leads root.name r.name ∧
      (opts.keeps root = true ∨ ¬g.Eligible oracle opts unfoldable root.name root) := by
  -- climb from the rule, as long as there is a rule above
  induction hn : r.name using hacyclic.wellFounded.induction generalizing r with
  | _ n ih =>
      subst hn
      by_cases heligible : g.Eligible oracle opts unfoldable r.name r
      · rcases hsifted r.name (List.mem_map_of_mem hr) r heligible with hkeeps | ⟨p, hp⟩
        · exact ⟨r, hr, Relation.ReflTransGen.refl, Or.inl hkeeps⟩
        · obtain ⟨t, ht, hlink⟩ := hp
          obtain rfl := name_of_get? ht
          obtain ⟨root, hroot, hleads, hreason⟩ :=
            ih t.name ⟨t, ht, hlink⟩ (mem_of_get? ht) rfl
          exact ⟨root, hroot, Relation.ReflTransGen.tail hleads ⟨t, ht, hlink⟩, hreason⟩
      · exact ⟨r, hr, Relation.ReflTransGen.refl, Or.inr heligible⟩

/-- If there are rules to keep, only what is needed remains.  Every rule of the folded graph can be
reached, along its links, from a rule that is kept, or that is not foldable when the folded graph is
looked at anew, with the unfoldable rules of the run. -/
theorem only_needed_rules_remain (haccess : ∀ g n s, ev.isAccessible g n s = g.isAccessible n)
    (hacyclic : g.Acyclic) (hkeep : opts.keep.isSome = true)
    (h : g.foldWith ev opts s = .ok g' s') :
    ∃ u s₁, (g.restoreStatus opts.marker).unfoldable ev s = .ok u s₁ ∧
      ∀ r ∈ g'.rules, ∃ root ∈ g'.rules, g'.Leads root.name r.name ∧
        (opts.keeps root = true ∨
          (Folding.anew ev s' g' u).isFoldable opts root.name = false ∧ g'.Held opts u root) := by
  obtain ⟨f, hpasses, rfl⟩ := passes_of_foldWith h
  obtain ⟨s₁, hu⟩ := hpasses.unfoldable
  have hsifted : ∀ n ∈ f.graph.names, f.graph.Sifted .interpreter opts f.unfoldable n :=
    hpasses.sifted haccess hkeep
  have hfresh : (Folding.anew ev s' f.graph f.unfoldable).Fresh .interpreter :=
    Folding.fresh_of_isAccessible haccess _
  have htracks : (References.ofGraph f.graph).Tracks f.graph none := References.Tracks.ofGraph _
  refine ⟨f.unfoldable, s₁, hu, ?_⟩
  intro r hr
  obtain ⟨root, hroot, hleads, hreason⟩ :=
    (hacyclic.mono fun p c => hpasses.hasLink).exists_root hsifted hr
  refine ⟨root, hroot, hleads, hreason.imp_right fun heligible => ⟨?_, ?_⟩⟩
  · rw [Bool.eq_false_iff, Ne, hfresh.isFoldable_iff htracks]
    rintro ⟨t, ht⟩
    obtain rfl : root = t := Option.some.inj ((get?_name_of_mem hroot).symm.trans ht.rule)
    exact heligible ht
  · exact held_of_not_eligible hroot rfl heligible

/-- What is in the basket depends on the fruit on sale, and that on the harvest and the season.  There
is a leaflet about the season, too, and nobody refers to what customers wish for. -/
def market : Graph where
  rules := [
    { name := ⟨"basket", 0⟩, expr := some (.all [.ref ⟨"fruit", 1⟩, .ref ⟨"tax", 6⟩]) },
    { name := ⟨"fruit", 1⟩, expr := some (.any [.ref ⟨"harvest", 2⟩, .ref ⟨"season", 5⟩]) },
    { name := ⟨"harvest", 2⟩, question := some "Was the harvest good?" },
    { name := ⟨"leaflet", 3⟩, expr := some (.all [.ref ⟨"print", 4⟩]) },
    { name := ⟨"print", 4⟩, expr := some (.any [.ref ⟨"season", 5⟩, .ref ⟨"tax", 6⟩]) },
    { name := ⟨"season", 5⟩, question := some "Is it the season?" },
    { name := ⟨"tax", 6⟩, expr := some (.const { value := .bool true }) },
    { name := ⟨"wish", 7⟩, question := some "What would you like?" }]
  increasing := by decide

/-- Folding that keeps the basket. -/
def market.options : Options where
  keep := some fun r => r.name.text == "basket"

/-- Every rule of the market refers to rules with later texts only. -/
theorem acyclic_market : market.Acyclic := by
  have hlater : ∀ p c, market.HasLink p c → p.text < c.text := by
    rintro p c ⟨r, hr, hc⟩
    have hall : ∀ r ∈ market.rules, ∀ c ∈ r.dependencies, r.name.text < c.text := by decide +kernel
    rw [← name_of_get? hr]
    exact hall r (mem_of_get? hr) c (Rule.mem_links.mp hc).1
  have htrans : ∀ p c, Relation.TransGen market.HasLink p c → p.text < c.text := by
    intro p c hpc
    induction hpc with
    | single hlink => exact hlater _ _ hlink
    | tail _ hlink ih => exact String.lt_trans ih (hlater _ _ hlink)
  exact fun n hn => String.lt_irrefl _ (htrans n n hn)

/-- The leaflet and the rule for printing it go, and so does the tax.  The fruit stays, although it
is foldable and not kept: the basket needs it. -/
theorem only_needed_rules_of_market :
    ∃ g' s', market.foldWith .interpreter market.options { state := () } = .ok g' s' ∧
      g'.names.map Name.text = ["basket", "fruit", "harvest", "season", "wish"] ∧
      (Folding.anew .interpreter s' g' ∅).isFoldable market.options ⟨"fruit", 1⟩ = true ∧
      ∀ r ∈ g'.rules, ∃ root ∈ g'.rules, g'.Leads root.name r.name ∧
        (market.options.keeps root = true ∨
          (Folding.anew .interpreter s' g' ∅).isFoldable market.options root.name = false ∧
            g'.Held market.options ∅ root) := by
  have hrun : (market.fold market.options).toOption.any (fun g' =>
      g'.names.map Name.text = ["basket", "fruit", "harvest", "season", "wish"] ∧
      (Folding.anew .interpreter { state := () } g' ∅).isFoldable market.options ⟨"fruit", 1⟩) =
      true := by decide +kernel
  obtain ⟨g', hfold, hrun⟩ := exists_fold_of_any hrun
  obtain ⟨hnames, hfruit⟩ := of_decide_eq_true hrun
  obtain ⟨s', hwith⟩ := foldWith_of_fold hfold
  obtain ⟨u, s₁, hu, hneeded⟩ :=
    only_needed_rules_remain (fun _ _ _ => rfl) acyclic_market rfl hwith
  obtain ⟨rfl, -⟩ : ∅ = u ∧ _ := EStateM.Result.ok.inj hu
  exact ⟨g', s', hwith, hnames, hfruit, hneeded⟩

end Graph

end RuleGraph
