import RuleGraph.Proofs.Changes

/-! # Folding comes to an end

    The loops of folding have no counter.  They go on as long as a pass folds
    or deletes a rule, whatever the evaluator answers.  They end all the same,
    and `folding_terminates` says why:

    * a rule that was folded is fully folded from then on, or gone
      (`fully_of_foldRule`);
    * no step adds a rule or takes that status from a rule
      (`Folding.Step.advances`);
    * so a pass that is not the last one of its loop leaves a lighter graph,
      where the weight counts the rules, and those not fully folded once more
      (`Folding.weight_lt_of_pass`, `Folding.weight_lt_of_siftPass`).

    That the loops end is said of the steps: none of them can be made for ever,
    from any moment whatsoever (`Folding.Step.wellFounded`). -/

namespace RuleGraph

/-! ## Rules stay folded -/

namespace Graph

variable {g : Graph} {n : Name}

/-- Every rule was there before, and is fully folded if it was. -/
def Advances (g g' : Graph) : Prop :=
  ∀ n r', g'.get? n = some r' →
    ∃ r, g.get? n = some r ∧ (r.status = .fully → r'.status = .fully)

namespace Advances

theorem refl (g : Graph) : g.Advances g := fun _ r hr => ⟨r, hr, id⟩

/-- A change that opens no fully folded rule advances the graph. -/
theorem modify {f : Rule → Rule}
    (hf : ∀ r, g.get? n = some r → r.status = .fully → (f r).status = .fully) :
    g.Advances (g.modify n f) := by
  intro m r' hr'
  obtain ⟨r, hr, rfl⟩ := get?_modify_eq_some.mp hr'
  refine ⟨r, hr, ?_⟩
  by_cases hm : m = n
  · subst hm
    rw [if_pos rfl]
    exact hf r hr
  · rw [if_neg hm]
    exact id

theorem erase (g : Graph) (n : Name) : g.Advances (g.erase n) :=
  fun _ r hr => ⟨r, (get?_erase_eq_some.mp hr).2, id⟩

end Advances

end Graph

namespace Folding

variable {σ : Type} {ev : Evaluator σ} {opts : Options} {f f' : Folding σ} {n : Name}

theorem advances_delete? (hd : f.delete? opts n = some f') : f.graph.Advances f'.graph := by
  obtain ⟨rfl, -⟩ := of_delete? hd
  exact .erase f.graph n

/-- Copying a constant into a parent opens no rule. -/
theorem advances_substituteIn {q : Quantity} {p : Name}
    (h : substituteIn opts n q p f = .ok () f') : f.graph.Advances f'.graph := by
  rcases substituteIn_eq_ok h with ⟨-, rfl⟩ | ⟨r, hr, -, rfl⟩
  · exact .refl f.graph
  · rw [graph_adopt]
    refine .modify ?_
    intro r' hr' hfully
    obtain rfl : r = r' := Option.some.inj (hr.symm.trans hr')
    exact (Rule.status_markReplaced _ _).mpr hfully

theorem advances_settle (opts : Options) (f : Folding σ) (n : Name) :
    f.graph.Advances (f.settle opts n).graph := by
  rw [settle]
  cases hd : f.delete? opts n with
  | some f' => exact advances_delete? hd
  | none => exact .modify fun _ _ _ => rfl

/-- No step adds a rule, and no rule that was fully folded is opened again. -/
theorem Step.advances {st st' : Stage} (hstep : Step ev opts (st, f) (st', f')) :
    f.graph.Advances f'.graph := by
  cases hstep with
  | beginPass | siftPass | skip _ | keepIdle _ _ _ | copied => exact .refl f.graph
  | passAgain _ | endSweep _ _ | beginSift _ _ => exact .refl f.graph
  | siftAgain _ | endSift _ _ | foldAgain _ _ => exact .refl f.graph
  | deleteIdle _ _ hd => exact advances_delete? hd
  | vary _ _ hask _ =>
      obtain ⟨s, rfl, -⟩ := ask_eq_ok hask
      exact .refl f.graph
  | fold _ _ hask _ =>
      obtain ⟨s, rfl, -⟩ := ask_eq_ok hask
      exact .modify fun _ _ hfully => hfully
  | copy hsub => exact advances_substituteIn hsub
  | @pruneOne _ _ n c _ =>
      rcases pruneChild_eq opts f n c with heq | heq
      · rw [heq]
        exact .refl f.graph
      · rw [heq]
        exact .erase f.graph c
  | settle => exact advances_settle opts f _
  | @discard _ _ _ n _ =>
      rw [Folding.discard]
      cases hd : f.delete? opts n with
      | none => exact .refl f.graph
      | some f' => exact advances_delete? hd

/-- No step adds a rule. -/
theorem Step.contains_of_contains {st st' : Stage} (hstep : Step ev opts (st, f) (st', f'))
    (hn : f'.graph.contains n = true) : f.graph.contains n = true := by
  obtain ⟨r', hr'⟩ := Option.isSome_iff_exists.mp hn
  obtain ⟨r, hr, -⟩ := hstep.advances n r' hr'
  exact Option.isSome_of_eq_some hr

/-- A rule that is settled is fully folded or gone. -/
theorem fully_of_settle {r : Rule} (h : (f.settle opts n).graph.get? n = some r) :
    r.status = .fully := by
  rw [settle] at h
  cases hd : f.delete? opts n with
  | some f' =>
      rw [hd] at h
      obtain ⟨rfl, -⟩ := of_delete? hd
      exact absurd rfl (Graph.get?_erase_eq_some.mp h).1
  | none =>
      rw [hd] at h
      obtain ⟨s, -, rfl⟩ := Graph.get?_modify_eq_some.mp h
      rw [if_pos rfl]

/-- If folding a rule reports success, the rule is fully folded or gone. -/
theorem fully_of_foldRule (h : foldRule ev opts n f = .ok true f') {r : Rule}
    (hr : f'.graph.get? n = some r) : r.status = .fully := by
  rw [foldRule] at h
  split at h
  · -- an idle rule is deleted or left
    split at h
    · rename_i hd
      cases h
      obtain ⟨rfl, -⟩ := of_delete? hd
      exact absurd rfl (Graph.get?_erase_eq_some.mp hr).1
    · cases h
  · -- any other is evaluated, and folded if the value is constant
    split at h
    · cases h
    · split at h
      · split at h
        · cases h
        · rename_i hfold
          cases h
          rw [foldTo] at hfold
          split at hfold
          · cases hfold
          · cases hfold
            exact fully_of_settle hr
      · cases h

/-! ## Passes -/

/-- A pass that only deletes adds and opens no rule. -/
theorem lighter_siftPass (opts : Options) (f : Folding σ) :
    Graph.Lighter f.graph (f.siftPass opts).graph := by
  rw [siftPass]
  generalize f.graph.names = names
  induction names generalizing f with
  | nil => exact .refl f.graph
  | cons n names ih =>
      refine Graph.Lighter.trans ?_ (ih _)
      rw [discard]
      cases hd : f.delete? opts n with
      | none => exact .refl f.graph
      | some f' => exact (shrinks_delete? n hd).toLighter

/-- A pass of the filter that changes the number of rules makes the graph strictly lighter. -/
theorem weight_lt_of_siftPass
    (changed : ((f.refreshTaint ev).siftPass opts).graph.size ≠ f.graph.size) :
    ((f.refreshTaint ev).siftPass opts).graph.weight < f.graph.weight := by
  have hlight : Graph.Lighter f.graph _ := lighter_siftPass opts (f.refreshTaint ev)
  exact hlight.weight_lt_of_size_lt (Nat.lt_of_le_of_ne hlight.size_le changed)

/-- A run that begins a sweep comes to the end of its first pass. -/
theorem reaches_pass {k : Nat} (h : pass ev opts (f.refreshTaint ev) = .ok k f') :
    Reaches ev opts (.sweep, f) (.visit ⟨f.graph.size, k, []⟩, f') := by
  have hvisits := yields_visits ev opts f.graph.names (f.refreshTaint ev) f.graph.size 0
  change Yields ev opts _ _ (pass ev opts (f.refreshTaint ev)) at hvisits
  rw [h] at hvisits
  exact Relation.ReflTransGen.head (Step.beginPass f) hvisits

/-- A run that begins to sift comes to the end of its first pass. -/
theorem reaches_siftPass (ev : Evaluator σ) (opts : Options) (total : Nat) (f : Folding σ) :
    Reaches ev opts (.sift total, f)
      (.discard total f.graph.size [], (f.refreshTaint ev).siftPass opts) :=
  Relation.ReflTransGen.head Step.siftPass
    (reaches_discards ev opts total f.graph.size f.graph.names (f.refreshTaint ev))

/-! ## Every course is finite -/

/-- No step can be made at this moment. -/
def Stuck (ev : Evaluator σ) (opts : Options) (m : Stage × Folding σ) : Prop :=
  ∀ m', ¬Step ev opts m m'

/-- The steps from this moment come to an end. -/
def Halts (ev : Evaluator σ) (opts : Options) (m : Stage × Folding σ) : Prop :=
  ∃ m', Reaches ev opts m m' ∧ Stuck ev opts m'

theorem stuck_done (f : Folding σ) : Stuck ev opts (.done, f) := by
  intro m' hstep
  cases hstep

/-- Where no step can be made, a run has come to its end. -/
theorem Stuck.eq_of_reaches {m m' : Stage × Folding σ} (h : Stuck ev opts m)
    (hreaches : Reaches ev opts m m') : m = m' := by
  rcases hreaches.cases_head with heq | ⟨next, hstep, -⟩
  · exact heq
  · exact absurd hstep (h next)

/-- Where a run fails, there is no other step to make. -/
theorem Fault.stuck {m : Stage × Folding σ} {e : FoldError} (h : Fault ev opts m e f') :
    Stuck ev opts m := by
  intro m' hstep
  cases h with
  -- all other steps from a visit have conditions that contradict those of the fault
  | ask hdue hidle hask => cases hstep <;> simp_all
  | copy hsub =>
      cases hstep with
      | copy hsub' =>
          rw [hsub] at hsub'
          cases hsub'

namespace Halts

variable {m m' : Stage × Folding σ}

theorem of_reaches (h : Reaches ev opts m m') (hm : Halts ev opts m') : Halts ev opts m := by
  obtain ⟨last, hlast, hstuck⟩ := hm
  exact ⟨last, h.trans hlast, hstuck⟩

theorem of_step (h : Step ev opts m m') (hm : Halts ev opts m') : Halts ev opts m :=
  hm.of_reaches (Relation.ReflTransGen.single h)

/-- A part of a run comes to an end, if what follows does. -/
theorem of_yields {α : Type} {next : α → Folding σ → Stage}
    {r : EStateM.Result FoldError (Folding σ) α} (h : Yields ev opts m next r)
    (hnext : ∀ a f, Halts ev opts (next a f, f)) : Halts ev opts m := by
  cases r with
  | ok a f => exact (hnext a f).of_reaches h
  | error e f =>
      obtain ⟨last, hlast, hfault⟩ := h
      exact ⟨last, hlast, hfault.stuck⟩

/-- Since there is no choice between steps, none can go on for ever from where one way ends. -/
theorem acc (h : Halts ev opts m) : Acc (fun m' m => Step ev opts m m') m := by
  obtain ⟨last, hlast, hstuck⟩ := h
  induction hlast using Relation.ReflTransGen.head_induction_on with
  | refl => exact ⟨_, fun m' hm' => absurd hm' (hstuck m')⟩
  | head hstep _ ih =>
      refine ⟨_, fun m' hm' => ?_⟩
      rw [Step.rightUnique hm' hstep]
      exact ih

end Halts

/-! ### The stages, from the last to the first -/

variable (ev opts)

theorem halts_done (f : Folding σ) : Halts ev opts (.done, f) :=
  ⟨(.done, f), Relation.ReflTransGen.refl, stuck_done f⟩

/-- A run that begins a sweep halts. -/
theorem halts_sweep (f : Folding σ) : Halts ev opts (.sweep, f) :=
  .of_yields (yields_run ev opts f) fun _ => halts_done ev opts

/-- A run that begins to sift halts. -/
theorem halts_sift (total : Nat) (f : Folding σ) : Halts ev opts (.sift total, f) := by
  refine .of_reaches (reaches_sift ev opts total f) ?_
  split
  · exact halts_done ev opts _
  · exact halts_sweep ev opts _

/-- After its last rule, a pass of the filter is followed by another one, by a sweep or by the
end. -/
theorem halting_step_of_discarded (total b : Nat) (f : Folding σ) :
    ∃ m, Step ev opts (.discard total b [], f) m ∧ Halts ev opts m := by
  by_cases hsame : f.graph.size = b
  · by_cases htotal : f.graph.size = total
    · exact ⟨_, .endSift hsame htotal, halts_done ev opts _⟩
    · exact ⟨_, .foldAgain hsame htotal, halts_sweep ev opts _⟩
  · exact ⟨_, .siftAgain hsame, halts_sift ev opts total _⟩

theorem halts_discard (total b : Nat) (rest : List Name) (f : Folding σ) :
    Halts ev opts (.discard total b rest, f) := by
  obtain ⟨m, hstep, hm⟩ :=
    halting_step_of_discarded ev opts total b (rest.foldl (Folding.discard opts) f)
  exact .of_reaches (reaches_discards ev opts total b rest f) (.of_step hstep hm)

/-- After its last rule, a pass is followed by another one, by the filter or by the end. -/
theorem halting_step_of_visited (b k : Nat) (f : Folding σ) :
    ∃ m, Step ev opts (.visit ⟨b, k, []⟩, f) m ∧ Halts ev opts m := by
  by_cases hsame : f.graph.size = b ∧ k = 0
  · cases hkeep : opts.keep.isNone with
    | true => exact ⟨_, .endSweep hsame hkeep, halts_done ev opts _⟩
    | false => exact ⟨_, .beginSift hsame hkeep, halts_sift ev opts _ _⟩
  · exact ⟨_, .passAgain hsame, halts_sweep ev opts _⟩

/-- A run within a pass halts. -/
theorem halts_visit (pass : Pass) (f : Folding σ) : Halts ev opts (.visit pass, f) := by
  obtain ⟨b, k, rest⟩ := pass
  refine .of_yields (yields_visits ev opts rest f b k) ?_
  intro k' f'
  obtain ⟨m, hstep, hm⟩ := halting_step_of_visited ev opts b k' f'
  exact .of_step hstep hm

theorem halts_prune (pass : Pass) (n : Name) (cs : List Name) (f : Folding σ) :
    Halts ev opts (.prune pass n cs, f) :=
  .of_reaches (reaches_prune ev opts pass n cs f) (.of_step .settle (halts_visit ev opts _ _))

theorem halts_substitute (pass : Pass) (n : Name) (q : Quantity) (ps : List Name)
    (f : Folding σ) : Halts ev opts (.substitute pass n q ps, f) :=
  .of_yields (yields_substituteAll ev opts pass n q ps f) fun _ f' =>
    .of_step .copied (halts_prune ev opts pass n _ f')

/-- No sequence of steps is infinite. -/
theorem Step.wellFounded : WellFounded fun m' m : Stage × Folding σ => Step ev opts m m' := by
  refine ⟨fun m => Halts.acc ?_⟩
  obtain ⟨st, f⟩ := m
  cases st with
  | sweep => exact halts_sweep ev opts f
  | visit pass => exact halts_visit ev opts pass f
  | substitute pass n q ps => exact halts_substitute ev opts pass n q ps f
  | prune pass n cs => exact halts_prune ev opts pass n cs f
  | sift total => exact halts_sift ev opts total f
  | discard total b rest => exact halts_discard ev opts total b rest f
  | done => exact halts_done ev opts f

variable {ev opts}

/-- A part of a run that cannot make a step is over, or fails right there. -/
theorem Stuck.of_yields {α : Type} {m : Stage × Folding σ} {next : α → Folding σ → Stage}
    {r : EStateM.Result FoldError (Folding σ) α} (h : Stuck ev opts m)
    (hr : Yields ev opts m next r) :
    (∃ a f, m = (next a f, f)) ∨ ∃ e f, Fault ev opts m e f := by
  cases r with
  | ok a f => exact Or.inl ⟨a, f, h.eq_of_reaches hr⟩
  | error e f =>
      obtain ⟨m', hreaches, hfault⟩ := hr
      obtain rfl := h.eq_of_reaches hreaches
      exact Or.inr ⟨e, f, hfault⟩

/-- A run stops only at its end, or where it fails. -/
theorem Stuck.done_or_fault {m : Stage × Folding σ} (h : Stuck ev opts m) :
    m.1 = .done ∨ ∃ e f, Fault ev opts m e f := by
  obtain ⟨st, f⟩ := m
  cases st with
  | sweep => exact absurd (.beginPass f) (h _)
  | visit pass =>
      obtain ⟨b, k, rest⟩ := pass
      cases rest with
      | nil =>
          obtain ⟨m', hstep, -⟩ := halting_step_of_visited ev opts b k f
          exact absurd hstep (h m')
      | cons n rest =>
          rcases h.of_yields (yields_visit ev opts f n b k rest) with ⟨k', f', heq⟩ | hfault
          · cases heq
          · exact Or.inr hfault
  | substitute pass n q ps =>
      cases ps with
      | nil => exact absurd .copied (h _)
      | cons p ps =>
          rcases h.of_yields (yields_substituteAll ev opts pass n q (p :: ps) f) with
            ⟨u, f', heq⟩ | hfault
          · cases heq
          · exact Or.inr hfault
  | prune pass n cs =>
      cases cs with
      | nil => exact absurd .settle (h _)
      | cons c cs => exact absurd .pruneOne (h _)
  | sift total => exact absurd .siftPass (h _)
  | discard total b rest =>
      cases rest with
      | nil =>
          obtain ⟨m', hstep, -⟩ := halting_step_of_discarded ev opts total b f
          exact absurd hstep (h m')
      | cons n rest => exact absurd .discard (h _)
  | done => exact Or.inl rfl

/-- There is one place at most where steps can end. -/
theorem Reaches.eq_of_stuck {m m₁ m₂ : Stage × Folding σ} (h₁ : Reaches ev opts m m₁)
    (h₂ : Reaches ev opts m m₂) (hstuck₁ : Stuck ev opts m₁) (hstuck₂ : Stuck ev opts m₂) :
    m₁ = m₂ := by
  rcases Relation.ReflTransGen.total_of_right_unique Step.rightUnique h₁ h₂ with h | h
  · exact hstuck₁.eq_of_reaches h
  · exact (hstuck₂.eq_of_reaches h).symm

/-- A stage fails in one way only. -/
theorem Fault.unique {m : Stage × Folding σ} {e e' : FoldError} (h : Fault ev opts m e f)
    (h' : Fault ev opts m e' f') : e = e' ∧ f = f' := by
  cases h with
  | ask _ _ hask =>
      cases h' with
      | ask _ _ hask' =>
          rw [hask] at hask'
          cases hask'
          exact ⟨rfl, rfl⟩
  | copy hsub =>
      cases h' with
      | copy hsub' =>
          rw [hsub] at hsub'
          cases hsub'
          exact ⟨rfl, rfl⟩

/-- The steps from a moment lead to one result only. -/
theorem Yields.unique {m : Stage × Folding σ} {r r' : EStateM.Result FoldError (Folding σ) Unit}
    (h : Yields ev opts m (fun _ _ => .done) r) (h' : Yields ev opts m (fun _ _ => .done) r') :
    r = r' := by
  cases r with
  | ok u f =>
      cases r' with
      | ok u' f' =>
          cases Reaches.eq_of_stuck h h' (stuck_done f) (stuck_done f')
          rfl
      | error e f' =>
          obtain ⟨m', hreaches, hfault⟩ := h'
          cases Reaches.eq_of_stuck h hreaches (stuck_done f) hfault.stuck
          cases hfault
  | error e f =>
      obtain ⟨m₁, hreaches, hfault⟩ := h
      cases r' with
      | ok u' f' =>
          cases Reaches.eq_of_stuck h' hreaches (stuck_done f') hfault.stuck
          cases hfault
      | error e' f' =>
          obtain ⟨m₂, hreaches', hfault'⟩ := h'
          obtain rfl := Reaches.eq_of_stuck hreaches hreaches' hfault.stuck hfault'.stuck
          obtain ⟨rfl, rfl⟩ := hfault.unique hfault'
          rfl

/-- Folding terminates, whatever the graph is like and whatever the evaluator answers.  No sequence of
steps is infinite; a run makes steps until it is done or fails, and its result is where they lead.
Folding a rule makes it fully folded or removes it; no step adds a rule or takes that status from
one.  So every pass that is not the last one of its loop makes the graph strictly lighter. -/
theorem folding_terminates (ev : Evaluator σ) (opts : Options) :
    (WellFounded fun m' m : Stage × Folding σ => Step ev opts m m') ∧
    (∀ m : Stage × Folding σ, Stuck ev opts m → m.1 = .done ∨ ∃ e f, Fault ev opts m e f) ∧
    (∀ f : Folding σ, Yields ev opts (.sweep, f) (fun _ _ => .done) (run ev opts f)) ∧
    (∀ (f : Folding σ) n f', foldRule ev opts n f = .ok true f' →
      ∀ r, f'.graph.get? n = some r → r.status = .fully) ∧
    (∀ st (f : Folding σ) st' f', Step ev opts (st, f) (st', f') → f.graph.Advances f'.graph) ∧
    (∀ (f : Folding σ) k f', pass ev opts (f.refreshTaint ev) = .ok k f' →
      Reaches ev opts (.sweep, f) (.visit ⟨f.graph.size, k, []⟩, f') ∧
      (¬(f'.graph.size = f.graph.size ∧ k = 0) → f'.graph.weight < f.graph.weight)) ∧
    ∀ (f : Folding σ) total f', (f.refreshTaint ev).siftPass opts = f' →
      Reaches ev opts (.sift total, f) (.discard total f.graph.size [], f') ∧
      (f'.graph.size ≠ f.graph.size → f'.graph.weight < f.graph.weight) := by
  refine ⟨Step.wellFounded ev opts, fun m => Stuck.done_or_fault, yields_run ev opts,
    ?_, ?_, ?_, ?_⟩
  · exact fun f n f' h r => fully_of_foldRule h
  · exact fun st f st' f' => Step.advances
  · exact fun f k f' h => ⟨reaches_pass h, weight_lt_of_pass h⟩
  · rintro f total f' rfl
    exact ⟨reaches_siftPass ev opts total f, weight_lt_of_siftPass⟩

end Folding

end RuleGraph
