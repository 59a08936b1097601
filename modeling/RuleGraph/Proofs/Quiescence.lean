import RuleGraph.Proofs.Faithful

/-! # Graphs at which folding rests

    A run ends only when it has looked at every rule of the final graph in vain:
    a pass has found nothing to fold, and after that, if there are rules to keep,
    nothing to delete.  If the answers of the evaluator are those of an oracle,
    that is if they depend on the graph and the name alone, `Graph.AtRest` says
    what this means for the graph, given the unfoldable rules.

    * A run ends with such a graph (`Passes.atRest`).  As long as a pass has not
      folded anything, its taint is exact (`Folding.Fresh`), and the rules that
      it has passed are settled.
    * A run that begins with such a graph ends with the same graph
      (`foldWith_of_atRest`).
    * If the index and the taint are computed anew from the final graph, they
      show as well that there is nothing left to do
      (`nothing_left_of_foldWith`). -/

namespace RuleGraph

/-! ## Oracles -/

/-- Answers that depend on the graph and the name alone. -/
structure Oracle where
  value : Graph → Name → Except EvalError Evaluation
  isAccessible : Graph → Name → Bool := Graph.isAccessible

/-- The answers of the interpreter. -/
def Oracle.interpreter : Oracle := { value := fun g n => g.evaluate n }

namespace Evaluator

variable {σ : Type} {ev : Evaluator σ} {oracle : Oracle} {g : Graph} {n : Name} {s s' : Session σ}

/-- The evaluator gives the answers of an oracle, whatever its state. -/
structure Consults (ev : Evaluator σ) (oracle : Oracle) : Prop where
  value : ∀ g n s, (ev.evaluate g n s).result = oracle.value g n
  isAccessible : ∀ g n s, ev.isAccessible g n s = oracle.isAccessible g n

/-- The interpreter has no state that its answers could depend on. -/
theorem consults_interpreter : Evaluator.interpreter.Consults .interpreter where
  value _ _ _ := rfl
  isAccessible _ _ _ := rfl

/-- An evaluator that consults an oracle returns the value of the oracle. -/
theorem Consults.value_of_ask {y : Evaluation} (h : ev.Consults oracle)
    (hask : ev.ask g n s = .ok y s') : oracle.value g n = .ok y := by
  rw [← h.value g n s.state]
  exact result_of_ask hask

theorem Consults.value_of_ask_eq_error {e : EvalError} (h : ev.Consults oracle)
    (hask : ev.ask g n s = .error e s') : oracle.value g n = .error e := by
  rw [← h.value g n s.state]
  exact result_of_ask_eq_error hask

end Evaluator

/-! ## Exact taints -/

/-- Only contextual rules override anything. -/
theorem Rule.isContextual_of_mem_overridden {r : Rule} {c : Name} (h : c ∈ r.overridden) :
    r.isContextual = true := by
  rw [overridden] at h
  rw [isContextual]
  cases hexpr : r.expr with
  | none =>
      rw [hexpr] at h
      cases h
  | some e =>
      rw [hexpr] at h
      cases e with
      | contextual e os => rfl
      | _ => cases h

namespace References

/-- An index that is not behind leads where the graph does. -/
theorem Tracks.leads_iff {refs : References} {g : Graph} (h : refs.Tracks g none) {n c : Name} :
    refs.children.Leads n c ↔ g.Leads n c := by
  constructor
  · exact Relation.ReflTransGen.mono (fun _ _ hc => h.exact hc nofun) _ _
  · exact Relation.ReflTransGen.mono (fun _ _ => h.complete) _ _

end References

namespace Folding

variable {σ : Type} {oracle : Oracle} {opts : Options} {f : Folding σ} {n : Name}

/-- The taint is the one of the graph as it is now. -/
def Fresh (oracle : Oracle) (f : Folding σ) : Prop :=
  f.taint = Taint.ofGraph f.graph f.refs f.unfoldable (oracle.isAccessible f.graph)

/-- With an exact taint, a rule that may be folded according to the graph is not blocked. -/
theorem Fresh.not_blocked (h : f.Fresh oracle) (htracks : f.refs.Tracks f.graph none) {r : Rule}
    (hr : f.graph.Foldable opts f.unfoldable n r) :
    (if r.isContextual then f.reachesBlocking n else f.taint.isTainted n) = false := by
  split
  · rw [reachesBlocking, List.any_eq_false]
    intro c hc hblocks
    obtain ⟨m, hm, hleads⟩ := Links.mem_closure.mp (Std.ExtTreeSet.mem_toList.mp hc)
    obtain rfl := List.mem_singleton.mp hm
    have hleads := htracks.leads_iff.mp hleads
    rcases Bool.or_eq_true_iff.mp hblocks with hunfoldable | hoverridden
    · exact hr.unfoldable hleads (Std.ExtTreeSet.contains_iff_mem.mp hunfoldable)
    · have hexcept : f.taint.isOverriddenExcept c m = false := by
        rw [Taint.isOverriddenExcept_eq_false, h]
        exact fun p hp => hr.overridden hleads (Taint.mem_targets_overridersIn.mp hp)
      rw [hexcept] at hoverridden
      cases hoverridden
  · rename_i hcontextual
    rw [Taint.isTainted, Bool.eq_false_iff, Ne, Std.ExtTreeSet.contains_iff_mem, h,
      Taint.mem_tainted_ofGraph]
    rintro ⟨c, hc, hleads⟩
    have hleads := htracks.leads_iff.mp
      ((References.leads_parents_iff htracks.sound.isTransposed).mp hleads)
    rcases hc with hunfoldable | hoverridden
    · exact hr.unfoldable hleads hunfoldable
    · -- the rule itself would be the one that overrides, but it is not contextual
      obtain ⟨p, hp⟩ := Taint.mem_overridersIn.mp hoverridden
      obtain rfl := hr.overridden hleads hp
      obtain ⟨s, hs, hcs⟩ := hp
      obtain rfl : r = s := Option.some.inj (hr.rule.symm.trans hs)
      exact hcontextual (Rule.isContextual_of_mem_overridden hcs)

end Folding

/-- The rule may be folded according to the graph, and can be accessed. -/
structure Graph.Eligible (oracle : Oracle) (opts : Options) (unfoldable : NameSet) (g : Graph)
    (n : Name) (r : Rule) : Prop extends g.Foldable opts unfoldable n r where
  accessible : oracle.isAccessible g n = true

namespace Folding

variable {σ : Type} {oracle : Oracle} {opts : Options} {f : Folding σ} {n : Name} {r : Rule}

/-- With an exact taint, the rules that are found foldable are those that are so according to the
graph. -/
theorem Fresh.isFoldable_iff (h : f.Fresh oracle) (htracks : f.refs.Tracks f.graph none) :
    f.isFoldable opts n = true ↔ ∃ r, f.graph.Eligible oracle opts f.unfoldable n r := by
  have haccessible : n ∈ f.graph.names →
      (f.taint.isAccessible n = true ↔ oracle.isAccessible f.graph n = true) := by
    intro hn
    rw [h, ← not_iff_not, Bool.not_eq_true, Bool.not_eq_true, Taint.isAccessible_ofGraph_eq_false]
    exact and_iff_right hn
  constructor
  · intro hfoldable
    have hcovers : f.taint.Covers f.unfoldable f.refs f.graph := by
      rw [h]
      exact Taint.covers_ofGraph htracks.sound ..
    obtain ⟨r, hr, hn⟩ := foldable_of_isFoldable htracks hcovers hfoldable
    exact ⟨r, hr, (haccessible (Graph.mem_names_of_get? hr.rule)).mp hn⟩
  · rintro ⟨r, hr⟩
    refine Folding.isFoldable_iff.mpr ⟨r, hr.rule, hr.avoids, hr.isInput, ?_, ?_⟩
    · exact (haccessible (Graph.mem_names_of_get? hr.rule)).mpr hr.accessible
    · exact h.not_blocked htracks hr.toFoldable

/-- A rule is due if it is eligible and not fully folded. -/
theorem Fresh.due_iff (h : f.Fresh oracle) (htracks : f.refs.Tracks f.graph none) :
    f.Due opts n ↔
      ∃ r, f.graph.Eligible oracle opts f.unfoldable n r ∧ r.status ≠ .fully := by
  rw [Due, h.isFoldable_iff htracks]
  constructor
  · rintro ⟨hdone, r, hr⟩
    rw [isDone, hr.rule] at hdone
    exact ⟨r, hr, of_decide_eq_false hdone⟩
  · rintro ⟨r, hr, hstatus⟩
    refine ⟨?_, r, hr⟩
    rw [isDone, hr.rule]
    exact decide_eq_false hstatus

/-- With an index that is not behind, having parents means being linked to. -/
theorem hasParents_iff (htracks : f.refs.Tracks f.graph none) :
    f.refs.hasParents n = true ↔ ∃ p, f.graph.HasLink p n := by
  rw [htracks.sound.hasParents_iff]
  constructor
  · rintro ⟨p, hp⟩
    exact ⟨p, htracks.exact hp nofun⟩
  · rintro ⟨p, hp⟩
    exact ⟨p, htracks.complete hp⟩

/-- A rule is idle if it has no content and nothing is linked to it. -/
theorem isIdle_iff (htracks : f.refs.Tracks f.graph none) (hr : f.graph.get? n = some r) :
    f.isIdle n = true ↔ r.isEmpty = true ∧ ∀ p, ¬f.graph.HasLink p n := by
  rw [isIdle, hr, Bool.and_eq_true_iff, Bool.not_eq_true', Bool.eq_false_iff, Ne,
    hasParents_iff htracks, not_exists]
  rfl

/-- An eligible rule is not deleted if it is kept or linked to. -/
theorem Fresh.delete?_eq_none_iff (h : f.Fresh oracle) (htracks : f.refs.Tracks f.graph none)
    (hr : f.graph.Eligible oracle opts f.unfoldable n r) :
    f.delete? opts n = none ↔ opts.keeps r = true ∨ ∃ p, f.graph.HasLink p n := by
  have hfoldable : f.isFoldable opts n = true := (h.isFoldable_iff htracks).mpr ⟨r, hr⟩
  rw [← hasParents_iff htracks, delete?, isDeletable, hr.rule, Option.any_some, hfoldable,
    Bool.and_true]
  cases opts.keeps r <;> cases f.refs.hasParents n <;> simp

/-- A new taint is exact, if it depends on the graph and the name alone which rules are
accessible. -/
theorem fresh_of_isAccessible {ev : Evaluator σ}
    (haccess : ∀ g n s, ev.isAccessible g n s = oracle.isAccessible g n) (f : Folding σ) :
    (f.refreshTaint ev).Fresh oracle := by
  have hgraph : (fun n => ev.isAccessible f.graph n f.state) = oracle.isAccessible f.graph :=
    funext fun n => haccess f.graph n f.state
  show Taint.ofGraph f.graph f.refs f.unfoldable _ = _
  rw [hgraph]
  rfl

/-- The taint is exact once it is computed anew. -/
theorem fresh_refreshTaint {ev : Evaluator σ} (hev : ev.Consults oracle) (f : Folding σ) :
    (f.refreshTaint ev).Fresh oracle :=
  fresh_of_isAccessible hev.isAccessible f

end Folding

/-! ## Graphs at rest -/

namespace Graph

variable {oracle : Oracle} {opts : Options} {unfoldable : NameSet} {g : Graph}

/-- Folding leaves the rule alone when it comes to it: it is a rule without content that is kept
though nothing is linked to it, or its value depends on the situation. -/
inductive Withstands (oracle : Oracle) (opts : Options) (g : Graph) (n : Name) (r : Rule) :
    Prop where
  | kept (empty : r.isEmpty = true) (unlinked : ∀ p, ¬g.HasLink p n) (keeps : opts.keeps r = true)
  | varies {y : Evaluation} (busy : r.isEmpty = true → ∃ p, g.HasLink p n)
      (value : oracle.value g n = .ok y) (varies : y.isConstant = false)

/-- If the rule is eligible and not fully folded, folding leaves it alone. -/
def Settled (oracle : Oracle) (opts : Options) (unfoldable : NameSet) (g : Graph) (n : Name) :
    Prop :=
  ∀ r, g.Eligible oracle opts unfoldable n r → r.status ≠ .fully → g.Withstands oracle opts n r

/-- If the rule is eligible, it is kept or linked to. -/
def Sifted (oracle : Oracle) (opts : Options) (unfoldable : NameSet) (g : Graph) (n : Name) :
    Prop :=
  ∀ r, g.Eligible oracle opts unfoldable n r → opts.keeps r = true ∨ ∃ p, g.HasLink p n

/-- There is nothing to fold in the graph, and nothing to delete if there are rules to keep. -/
structure AtRest (oracle : Oracle) (opts : Options) (unfoldable : NameSet) (g : Graph) :
    Prop where
  settled : ∀ n ∈ g.names, g.Settled oracle opts unfoldable n
  sifted : opts.keep.isSome = true → ∀ n ∈ g.names, g.Sifted oracle opts unfoldable n

/-- With fewer unfoldable rules, eligible rules stay eligible. -/
theorem Eligible.anti {unfoldable' : NameSet} {n : Name} {r : Rule}
    (h : g.Eligible oracle opts unfoldable' n r) (hsub : ∀ c ∈ unfoldable, c ∈ unfoldable') :
    g.Eligible oracle opts unfoldable n r where
  rule := h.rule
  avoids := h.avoids
  isInput := h.isInput
  unfoldable hc hmem := h.unfoldable hc (hsub _ hmem)
  overridden := h.overridden
  accessible := h.accessible

/-- The more rules are unfoldable, the less there is to do. -/
theorem AtRest.mono {unfoldable' : NameSet} (h : g.AtRest oracle opts unfoldable)
    (hsub : ∀ c ∈ unfoldable, c ∈ unfoldable') : g.AtRest oracle opts unfoldable' where
  settled n hn r hr := h.settled n hn r (hr.anti hsub)
  sifted hkeep n hn r hr := h.sifted hkeep n hn r (hr.anti hsub)

end Graph

/-! ## A run ends at rest -/

namespace Folding

variable {σ : Type} {ev : Evaluator σ} {oracle : Oracle} {opts : Options} {f f' : Folding σ}
  {n : Name}

/-- What a stage has found out about the graph: while nothing was folded in a pass, or deleted since
the last one, the rules it has come past are settled, or sifted. -/
def Found (oracle : Oracle) (opts : Options) : Stage → Folding σ → Prop
  | .visit pass, f => pass.folded = 0 → f.Fresh oracle ∧
      ∀ n ∈ f.graph.names, n ∈ pass.rest ∨ f.graph.Settled oracle opts f.unfoldable n
  | .sift total, f => f.graph.size ≤ total ∧
      (f.graph.size = total → ∀ n ∈ f.graph.names, f.graph.Settled oracle opts f.unfoldable n)
  | .discard total _ rest, f => f.graph.size ≤ total ∧
      (f.graph.size = total → f.Fresh oracle ∧
        (∀ n ∈ f.graph.names, f.graph.Settled oracle opts f.unfoldable n) ∧
        ∀ n ∈ f.graph.names, n ∈ rest ∨ f.graph.Sifted oracle opts f.unfoldable n)
  | .done, f => f.graph.AtRest oracle opts f.unfoldable
  | _, _ => True

/-! ### What a pass leaves alone -/

/-- A rule that a pass skips is settled. -/
theorem Fresh.settled_of_skip (h : f.Fresh oracle) (htracks : f.refs.Tracks f.graph none)
    (hdue : ¬f.Due opts n) : f.graph.Settled oracle opts f.unfoldable n := fun r hr hstatus =>
  absurd ((h.due_iff htracks).mpr ⟨r, hr, hstatus⟩) hdue

/-- A rule without content that may not be deleted is settled. -/
theorem Fresh.settled_of_keepIdle (h : f.Fresh oracle) (htracks : f.refs.Tracks f.graph none)
    (hidle : f.isIdle n = true) (hkept : f.delete? opts n = none) :
    f.graph.Settled oracle opts f.unfoldable n := by
  intro r hr _
  obtain ⟨hempty, hunlinked⟩ := (isIdle_iff htracks hr.rule).mp hidle
  rcases (h.delete?_eq_none_iff htracks hr).mp hkept with hkeeps | ⟨p, hp⟩
  · exact .kept hempty hunlinked hkeeps
  · exact absurd hp (hunlinked p)

/-- A rule whose value depends on the situation is settled. -/
theorem settled_of_vary (htracks : f.refs.Tracks f.graph none) (hidle : f.isIdle n = false)
    {y : Evaluation} (hy : oracle.value f.graph n = .ok y) (hvaries : y.isConstant = false) :
    f.graph.Settled oracle opts f.unfoldable n := by
  intro r hr _
  refine .varies ?_ hy hvaries
  intro hempty
  rw [Bool.eq_false_iff, Ne, isIdle_iff htracks hr.rule, not_and] at hidle
  simpa using hidle hempty

/-- A rule that may not be deleted is sifted. -/
theorem Fresh.sifted_of_delete? (h : f.Fresh oracle) (htracks : f.refs.Tracks f.graph none)
    (hkept : f.delete? opts n = none) : f.graph.Sifted oracle opts f.unfoldable n := fun _ hr =>
  (h.delete?_eq_none_iff htracks hr).mp hkept

/-- The rule that a pass comes past next joins the others. -/
theorem mem_rest_or {P : Name → Prop} {names rest : List Name}
    (h : ∀ m ∈ names, m ∈ n :: rest ∨ P m) (hn : P n) : ∀ m ∈ names, m ∈ rest ∨ P m := by
  intro m hm
  rcases h m hm with hrest | hm
  · rcases List.mem_cons.mp hrest with rfl | hrest
    · exact Or.inr hn
    · exact Or.inl hrest
  · exact Or.inr hm

theorem size_of_delete? (hd : f.delete? opts n = some f') : f'.graph.size < f.graph.size := by
  obtain ⟨rfl, -, hfoldable⟩ := of_delete? hd
  obtain ⟨r, hr, -⟩ := isFoldable_iff.mp hfoldable
  exact Graph.size_erase_lt hr

/-! ### Steps and runs -/

/-- Every step passes on what was found out, and adds the rule that it has come past. -/
theorem Found.step {st st' : Stage} (hev : ev.Consults oracle) (hconsistent : Consistent st f)
    (h : Found oracle opts st f) (hstep : Step ev opts (st, f) (st', f')) :
    Found oracle opts st' f' := by
  cases hstep with
  | beginPass => exact fun _ => ⟨fresh_refreshTaint hev f, fun n hn => Or.inl hn⟩
  | skip hdue =>
      intro hk
      obtain ⟨hfresh, hrest⟩ := h hk
      exact ⟨hfresh, mem_rest_or hrest (hfresh.settled_of_skip hconsistent.tracks hdue)⟩
  | keepIdle _ hidle hkept =>
      intro hk
      obtain ⟨hfresh, hrest⟩ := h hk
      exact ⟨hfresh, mem_rest_or hrest (hfresh.settled_of_keepIdle hconsistent.tracks hidle hkept)⟩
  | vary _ hidle hask hvaries =>
      intro hk
      obtain ⟨s, rfl, hanswer⟩ := ask_eq_ok hask
      obtain ⟨hfresh, hrest⟩ := h hk
      exact ⟨hfresh, mem_rest_or hrest (settled_of_vary hconsistent.tracks hidle
        (hev.value_of_ask hanswer) hvaries)⟩
  | deleteIdle _ _ _ | settle => exact fun hk => absurd hk (Nat.succ_ne_zero _)
  | fold _ _ _ _ | copy _ | copied | pruneOne | passAgain _ | foldAgain _ _ => trivial
  | endSweep hsame hkeep =>
      obtain ⟨-, hrest⟩ := h hsame.2
      refine ⟨fun n hn => (hrest n hn).resolve_left List.not_mem_nil, ?_⟩
      intro hsome
      rw [Option.isNone_iff_eq_none.mp hkeep] at hsome
      cases hsome
  | beginSift hsame _ =>
      obtain ⟨-, hrest⟩ := h hsame.2
      exact ⟨Nat.le_refl _, fun _ n hn => (hrest n hn).resolve_left List.not_mem_nil⟩
  | siftPass =>
      exact ⟨h.1, fun hsize => ⟨fresh_refreshTaint hev f, h.2 hsize, fun n hn => Or.inl hn⟩⟩
  | @discard _ _ _ n _ =>
      rw [Folding.discard]
      cases hd : f.delete? opts n with
      | some f' =>
          have hlt : f'.graph.size < f.graph.size := size_of_delete? hd
          exact ⟨Nat.le_trans (Nat.le_of_lt hlt) h.1,
            fun hsize => absurd hsize (Nat.ne_of_lt (Nat.lt_of_lt_of_le hlt h.1))⟩
      | none =>
          refine ⟨h.1, fun hsize => ?_⟩
          obtain ⟨hfresh, hsettled, hrest⟩ := h.2 hsize
          exact ⟨hfresh, hsettled,
            mem_rest_or hrest (hfresh.sifted_of_delete? hconsistent.tracks hd)⟩
  | siftAgain _ => exact ⟨h.1, fun hsize => (h.2 hsize).2.1⟩
  | endSift _ htotal =>
      obtain ⟨-, hsettled, hrest⟩ := h.2 htotal
      exact ⟨hsettled, fun _ n hn => (hrest n hn).resolve_left List.not_mem_nil⟩

end Folding

/-- A run ends with a graph at rest. -/
theorem Graph.Passes.atRest {σ : Type} {ev : Evaluator σ} {oracle : Oracle} {opts : Options}
    {g : Graph} {s : Session σ} {f : Folding σ} (h : g.Passes ev opts s .done f)
    (hev : ev.Consults oracle) : f.graph.AtRest oracle opts f.unfoldable :=
  h.invariant_of_consistent (P := Folding.Found oracle opts) (fun _ => trivial)
    (Folding.Found.step hev)

/-! ## A run from rest -/

namespace Folding

variable {σ : Type} {ev : Evaluator σ} {oracle : Oracle} {opts : Options} {g : Graph}
  {unfoldable : NameSet} {f f' : Folding σ} {n : Name}

/-- What is known of the stages of a run that does nothing: it folds no rule, and no pass finds
fewer rules than there were. -/
def Idles (oracle : Oracle) (opts : Options) (size : Nat) : Stage → Folding σ → Prop
  | .visit pass, f => f.Fresh oracle ∧ pass.before = size ∧ pass.folded = 0
  | .sift total, _ => opts.keep.isSome = true ∧ total = size
  | .discard total before _, f =>
      f.Fresh oracle ∧ opts.keep.isSome = true ∧ total = size ∧ before = size
  | .substitute .., _ | .prune .., _ => False
  | _, _ => True

/-- The run still has the graph that it began with. -/
structure Idling (oracle : Oracle) (opts : Options) (g : Graph) (unfoldable : NameSet) (st : Stage)
    (f : Folding σ) : Prop where
  graph : f.graph = g
  unfoldable : f.unfoldable = unfoldable
  idles : Idles oracle opts g.size st f

/-! ### What a pass finds at rest -/

/-- At rest, a rule that is due withstands folding. -/
theorem Fresh.withstands (h : f.Fresh oracle) (htracks : f.refs.Tracks f.graph none)
    (hrest : f.graph.AtRest oracle opts f.unfoldable) (hdue : f.Due opts n) :
    ∃ r, f.graph.Eligible oracle opts f.unfoldable n r ∧ f.graph.Withstands oracle opts n r := by
  obtain ⟨r, hr, hstatus⟩ := (h.due_iff htracks).mp hdue
  exact ⟨r, hr, hrest.settled n (Graph.mem_names_of_get? hr.rule) r hr hstatus⟩

/-- If a rule that is due is evaluated, its value depends on the situation. -/
theorem Fresh.exists_varies (h : f.Fresh oracle) (htracks : f.refs.Tracks f.graph none)
    (hrest : f.graph.AtRest oracle opts f.unfoldable) (hdue : f.Due opts n)
    (hidle : f.isIdle n = false) :
    ∃ y, oracle.value f.graph n = .ok y ∧ y.isConstant = false := by
  obtain ⟨r, hr, hwithstands⟩ := h.withstands htracks hrest hdue
  cases hwithstands with
  | kept hempty hunlinked _ =>
      rw [(isIdle_iff htracks hr.rule).mpr ⟨hempty, hunlinked⟩] at hidle
      cases hidle
  | varies _ hy hvaries => exact ⟨_, hy, hvaries⟩

/-- If a rule that is due is idle, it is not deleted. -/
theorem Fresh.delete?_of_isIdle (h : f.Fresh oracle) (htracks : f.refs.Tracks f.graph none)
    (hrest : f.graph.AtRest oracle opts f.unfoldable) (hdue : f.Due opts n)
    (hidle : f.isIdle n = true) : f.delete? opts n = none := by
  obtain ⟨r, hr, hwithstands⟩ := h.withstands htracks hrest hdue
  refine (h.delete?_eq_none_iff htracks hr).mpr ?_
  cases hwithstands with
  | kept _ _ hkeeps => exact Or.inl hkeeps
  | varies hbusy _ _ => exact Or.inr (hbusy ((isIdle_iff htracks hr.rule).mp hidle).1)

/-- Where there are rules to keep, no rule is deleted. -/
theorem Fresh.delete?_of_atRest (h : f.Fresh oracle) (htracks : f.refs.Tracks f.graph none)
    (hrest : f.graph.AtRest oracle opts f.unfoldable) (hkeep : opts.keep.isSome = true) :
    f.delete? opts n = none := by
  cases hd : f.delete? opts n with
  | none => rfl
  | some f' =>
      obtain ⟨-, -, hfoldable⟩ := of_delete? hd
      obtain ⟨r, hr⟩ := (h.isFoldable_iff htracks).mp hfoldable
      rw [← hd, h.delete?_eq_none_iff htracks hr]
      exact hrest.sifted hkeep n (Graph.mem_names_of_get? hr.rule) r hr

/-! ### Steps and runs -/

/-- At rest, no step changes the graph. -/
theorem Idling.step {st st' : Stage} (hev : ev.Consults oracle)
    (hrest : g.AtRest oracle opts unfoldable) (hconsistent : Consistent st f)
    (h : Idling oracle opts g unfoldable st f) (hstep : Step ev opts (st, f) (st', f')) :
    Idling oracle opts g unfoldable st' f' := by
  obtain ⟨rfl, rfl, hidles⟩ := h
  cases hstep with
  | beginPass => exact ⟨rfl, rfl, fresh_refreshTaint hev f, rfl, rfl⟩
  | skip _ | keepIdle _ _ _ => exact ⟨rfl, rfl, hidles⟩
  | deleteIdle hdue hidle hd =>
      rw [hidles.1.delete?_of_isIdle hconsistent.tracks hrest hdue hidle] at hd
      cases hd
  | vary _ _ hask _ =>
      obtain ⟨s, rfl, -⟩ := ask_eq_ok hask
      exact ⟨rfl, rfl, hidles⟩
  | fold hdue hidle hask hconst =>
      obtain ⟨s, rfl, hanswer⟩ := ask_eq_ok hask
      obtain ⟨y, hy, hvaries⟩ := hidles.1.exists_varies hconsistent.tracks hrest hdue hidle
      rw [hev.value_of_ask hanswer] at hy
      cases hy
      rw [hvaries] at hconst
      cases hconst
  | copy _ | copied | pruneOne | settle => exact hidles.elim
  | passAgain hchanged => exact absurd ⟨hidles.2.1.symm, hidles.2.2⟩ hchanged
  | endSweep _ _ => exact ⟨rfl, rfl, trivial⟩
  | beginSift _ hkeep => exact ⟨rfl, rfl, Option.isNone_eq_false_iff.mp hkeep, rfl⟩
  | siftPass => exact ⟨rfl, rfl, fresh_refreshTaint hev f, hidles.1, hidles.2, rfl⟩
  | @discard _ _ _ n _ =>
      have hd : f.delete? opts n = none :=
        hidles.1.delete?_of_atRest hconsistent.tracks hrest hidles.2.1
      rw [Folding.discard, hd]
      exact ⟨rfl, rfl, hidles⟩
  | siftAgain hchanged => exact absurd hidles.2.2.2.symm hchanged
  | endSift _ _ => exact ⟨rfl, rfl, trivial⟩
  | foldAgain _ hchanged => exact absurd hidles.2.2.1.symm hchanged

/-- A run that does nothing does not fail. -/
theorem Idling.not_fault {st : Stage} {e : FoldError} (hev : ev.Consults oracle)
    (hrest : g.AtRest oracle opts unfoldable) (hconsistent : Consistent st f)
    (h : Idling oracle opts g unfoldable st f) : ¬Fault ev opts (st, f) e f' := by
  obtain ⟨rfl, rfl, hidles⟩ := h
  intro hfault
  cases hfault with
  | ask hdue hidle hask =>
      obtain ⟨e', s, hask⟩ := ask_eq_error hask
      obtain ⟨y, hy, -⟩ := hidles.1.exists_varies hconsistent.tracks hrest hdue hidle
      rw [hev.value_of_ask_eq_error hask] at hy
      cases hy
  | copy _ => exact hidles

end Folding

namespace Graph

/-- Folding a graph at rest gives the same graph, if no status was recorded in it. -/
theorem foldWith_of_atRest {σ : Type} {ev : Evaluator σ} {oracle : Oracle} {opts : Options}
    {g : Graph} {unfoldable : NameSet} {s s₁ : Session σ} (hev : ev.Consults oracle)
    (hrecorded : ∀ r ∈ g.rules, r.recordedStatus opts.marker = none)
    (hunfoldable : g.unfoldable ev s = .ok unfoldable s₁)
    (hrest : g.AtRest oracle opts unfoldable) : ∃ s', g.foldWith ev opts s = .ok g s' := by
  have hrestore : g.restoreStatus opts.marker = g := restoreStatus_eq_self hrecorded
  have hidling : ∀ {st f}, g.Passes ev opts s st f →
      Folding.Idling oracle opts g unfoldable st f := by
    intro st f h
    refine h.invariant_of_consistent ?_ (Folding.Idling.step hev hrest)
    intro u s' hu
    rw [hrestore, hunfoldable] at hu
    cases hu
    rw [hrestore]
    exact ⟨rfl, rfl, trivial⟩
  cases hwith : g.foldWith ev opts s with
  | ok g' s' =>
      obtain ⟨f, hpasses, rfl⟩ := passes_of_foldWith hwith
      rw [(hidling hpasses).graph]
      exact ⟨s', rfl⟩
  | error e s' =>
      exfalso
      rcases fault_of_foldWith hwith with ⟨e', hu⟩ | ⟨st, f, f', hpasses, hfault⟩
      · rw [hrestore, hunfoldable] at hu
        cases hu
      · exact (hidling hpasses).not_fault hev hrest hpasses.consistent hfault

end Graph

/-! ## Nothing left to do -/

namespace Folding

variable {σ : Type} {ev : Evaluator σ} {oracle : Oracle} {opts : Options} {f : Folding σ}
  {r : Rule}

/-- The state of a pass that begins with this graph, given its unfoldable rules: the index and the
taint are computed anew. -/
def anew (ev : Evaluator σ) (s : Session σ) (g : Graph) (unfoldable : NameSet) : Folding σ :=
  (start s g unfoldable).refreshTaint ev

/-- With an exact taint, a foldable rule of a graph at rest is fully folded, or empty, unreferenced
and kept, or has a value that depends on the situation. -/
theorem Fresh.of_isFoldable (h : f.Fresh oracle) (htracks : f.refs.Tracks f.graph none)
    (hrest : f.graph.AtRest oracle opts f.unfoldable) (hr : r ∈ f.graph.rules)
    (hfoldable : f.isFoldable opts r.name = true) :
    r.status = .fully ∨
      (r.isEmpty = true ∧ f.refs.hasParents r.name = false ∧ opts.keeps r = true) ∨
      ∃ y, oracle.value f.graph r.name = .ok y ∧ y.isConstant = false := by
  by_cases hstatus : r.status = .fully
  · exact Or.inl hstatus
  have hdue : f.Due opts r.name := by
    refine ⟨?_, hfoldable⟩
    rw [isDone, Graph.get?_name_of_mem hr]
    exact decide_eq_false hstatus
  obtain ⟨r', heligible, hwithstands⟩ := h.withstands htracks hrest hdue
  obtain rfl : r = r' := Option.some.inj ((Graph.get?_name_of_mem hr).symm.trans heligible.rule)
  refine Or.inr ?_
  cases hwithstands with
  | kept hempty hunlinked hkeeps =>
      refine Or.inl ⟨hempty, ?_, hkeeps⟩
      rw [Bool.eq_false_iff, Ne, hasParents_iff htracks]
      rintro ⟨p, hp⟩
      exact hunlinked p hp
  | varies _ hy hvaries => exact Or.inr ⟨_, hy, hvaries⟩

/-- With an exact taint, a foldable rule of a graph at rest is kept or referred to, if there are
rules to keep. -/
theorem Fresh.keeps_or_hasParents (h : f.Fresh oracle) (htracks : f.refs.Tracks f.graph none)
    (hrest : f.graph.AtRest oracle opts f.unfoldable) (hkeep : opts.keep.isSome = true)
    (hr : r ∈ f.graph.rules) (hfoldable : f.isFoldable opts r.name = true) :
    opts.keeps r = true ∨ f.refs.hasParents r.name = true := by
  obtain ⟨r', heligible⟩ := (h.isFoldable_iff htracks).mp hfoldable
  obtain rfl : r = r' := Option.some.inj ((Graph.get?_name_of_mem hr).symm.trans heligible.rule)
  rw [hasParents_iff htracks]
  exact hrest.sifted hkeep r.name (List.mem_map_of_mem hr) r heligible

end Folding

namespace Graph

/-- Folding ends with a fixed point.  Looked at anew, with the unfoldable rules of the run, a
foldable rule of the folded graph is fully folded, or empty, unreferenced and kept, or has a value
that depends on the situation; and if there are rules to keep, it is one of them or referred to. -/
theorem nothing_left_of_foldWith {σ : Type} {ev : Evaluator σ} {oracle : Oracle} {opts : Options}
    {g g' : Graph} {s s' : Session σ} (hev : ev.Consults oracle)
    (h : g.foldWith ev opts s = .ok g' s') :
    ∃ u s₁, (g.restoreStatus opts.marker).unfoldable ev s = .ok u s₁ ∧
      ∀ r ∈ g'.rules, (Folding.anew ev s' g' u).isFoldable opts r.name = true →
        (r.status = .fully ∨
          (r.isEmpty = true ∧ (Folding.anew ev s' g' u).refs.hasParents r.name = false ∧
            opts.keeps r = true) ∨
          ∃ y, oracle.value g' r.name = .ok y ∧ y.isConstant = false) ∧
        (opts.keep.isSome = true →
          opts.keeps r = true ∨ (Folding.anew ev s' g' u).refs.hasParents r.name = true) := by
  obtain ⟨f, hpasses, rfl⟩ := passes_of_foldWith h
  obtain ⟨s₁, hu⟩ := hpasses.unfoldable
  have hrest : f.graph.AtRest oracle opts f.unfoldable := hpasses.atRest hev
  have hfresh : (Folding.anew ev s' f.graph f.unfoldable).Fresh oracle :=
    Folding.fresh_refreshTaint hev _
  have htracks : (References.ofGraph f.graph).Tracks f.graph none := References.Tracks.ofGraph _
  refine ⟨f.unfoldable, s₁, hu, ?_⟩
  intro r hr hfoldable
  exact ⟨hfresh.of_isFoldable htracks hrest hr hfoldable,
    fun hkeep => hfresh.keeps_or_hasParents htracks hrest hkeep hr hfoldable⟩

/-- A notice without content, and a price that depends on an input through its cost. -/
def shop : Graph where
  rules := [
    { name := ⟨"cost", 0⟩, expr := some (.any [.ref ⟨"stock", 3⟩, .ref ⟨"tax", 4⟩]) },
    { name := ⟨"notice", 1⟩ },
    { name := ⟨"price", 2⟩, expr := some (.all [.ref ⟨"cost", 0⟩, .ref ⟨"tax", 4⟩]) },
    { name := ⟨"stock", 3⟩, question := some "Is it in stock?" },
    { name := ⟨"tax", 4⟩, expr := some (.const { value := .bool false }) }]
  increasing := by decide

/-- Folding that keeps the notice and the price. -/
def shop.options : Options where
  keep := some fun r => r.name.text == "notice" || r.name.text == "price"

/-- Looked at anew, the notice and the cost of the folded shop are foldable.  The notice stays
because it is kept; the cost stays because its value varies, and because the price refers to it. -/
theorem nothing_left_of_shop :
    ∃ g' s', shop.foldWith .interpreter shop.options { state := () } = .ok g' s' ∧
      (∃ r, g'.get? ⟨"notice", 1⟩ = some r ∧ r.status = .unset ∧
        (Folding.anew .interpreter s' g' ∅).isFoldable shop.options ⟨"notice", 1⟩ = true ∧
        r.isEmpty = true ∧ shop.options.keeps r = true) ∧
      ∃ r, g'.get? ⟨"cost", 0⟩ = some r ∧ r.status = .partially ∧
        (Folding.anew .interpreter s' g' ∅).isFoldable shop.options ⟨"cost", 0⟩ = true ∧
        (∃ y, g'.evaluate ⟨"cost", 0⟩ = .ok y ∧ y.isConstant = false) ∧
        (Folding.anew .interpreter s' g' ∅).refs.hasParents ⟨"cost", 0⟩ = true := by
  have hrun : (shop.fold shop.options).toOption.any (fun g' =>
      (g'.get? ⟨"notice", 1⟩).any (fun r => r.status = .unset ∧
        (Folding.anew .interpreter { state := () } g' ∅).isFoldable shop.options r.name ∧
        (g'.evaluate r.name).toOption.any Evaluation.isConstant) ∧
      (g'.get? ⟨"cost", 0⟩).any (fun r => r.status = .partially ∧ r.isEmpty = false ∧
        shop.options.keeps r = false ∧
        (Folding.anew .interpreter { state := () } g' ∅).isFoldable shop.options r.name)) =
      true := by decide +kernel
  obtain ⟨g', hfold, hrun⟩ := exists_fold_of_any hrun
  obtain ⟨hnotice, hcost⟩ := of_decide_eq_true hrun
  obtain ⟨s', hwith⟩ := foldWith_of_fold hfold
  obtain ⟨u, s₁, hu, hleft⟩ := nothing_left_of_foldWith Evaluator.consults_interpreter hwith
  obtain ⟨rfl, -⟩ : ∅ = u ∧ _ := EStateM.Result.ok.inj hu
  refine ⟨g', s', hwith, ?_, ?_⟩
  · obtain ⟨r, hr, hp⟩ := (Option.any_eq_true _ _).mp hnotice
    obtain ⟨hstatus, hfoldable, hconst⟩ := of_decide_eq_true hp
    refine ⟨r, hr, hstatus, name_of_get? hr ▸ hfoldable, ?_⟩
    obtain ⟨hleft, -⟩ := hleft r (mem_of_get? hr) hfoldable
    rcases hleft with hfully | ⟨hempty, -, hkeeps⟩ | ⟨y, hy, hvaries⟩
    · rw [hstatus] at hfully
      cases hfully
    · exact ⟨hempty, hkeeps⟩
    · have hy : g'.evaluate r.name = .ok y := hy
      rw [hy, Except.toOption, Option.any_some, hvaries] at hconst
      cases hconst
  · obtain ⟨r, hr, hp⟩ := (Option.any_eq_true _ _).mp hcost
    obtain ⟨hstatus, hempty, hkeeps, hfoldable⟩ := of_decide_eq_true hp
    obtain ⟨hvaries, hparents⟩ := hleft r (mem_of_get? hr) hfoldable
    rw [hstatus, hempty, name_of_get? hr] at hvaries
    rw [hkeeps, name_of_get? hr] at hparents
    have hvaries : ∃ y, Oracle.interpreter.value g' ⟨"cost", 0⟩ = .ok y ∧ y.isConstant = false := by
      simpa using hvaries
    have hparents : (Folding.anew .interpreter s' g' ∅).refs.hasParents ⟨"cost", 0⟩ = true := by
      simpa using hparents rfl
    exact ⟨r, hr, hstatus, name_of_get? hr ▸ hfoldable, hvaries, hparents⟩

end Graph

end RuleGraph
