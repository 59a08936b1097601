import Mathlib.Logic.Relation
import RuleGraph.Folding.Run

/-! # The course of folding

    `Folding.run` is three nested loops.  This module takes them apart into
    single steps between stages, so that what holds throughout a run can be
    shown step by step.  A stage says what a run is about to do and what is
    left to do in the loops that it is in; a step does one thing to the state:
    it compares a rule, folds it to a constant, copies the constant into one
    parent, drops one link, deletes one rule, or begins or ends a pass.

    * `Step` gives the steps that can be made, at most one at a time, and
      `Fault` the two ways to fail;
    * `Yields` ties a part of a run to its steps: if it returns, the steps lead
      to the stage that follows, in the state that it returns, and if it fails,
      they lead to a stage that fails in the same way;
    * `yields_run` says this of whole runs, built up from the innermost loop. -/

namespace RuleGraph

namespace Folding

variable {σ : Type} {ev : Evaluator σ} {opts : Options}

/-! ## Stages and steps -/

/-- A pass over the rules: how many rules there were when it began, how many of them it has
folded, and the rules it has yet to visit. -/
structure Pass where
  before : Nat
  folded : Nat
  rest : List Name

/-- The pass after one more rule was folded. -/
def Pass.succ (p : Pass) : Pass := { p with folded := p.folded + 1 }

/-- Where a run stands. -/
inductive Stage where
  /-- About to begin a pass over the rules. -/
  | sweep
  /-- Between two rules of a pass. -/
  | visit (pass : Pass)
  /-- Copying the constant of a rule into the parents that are left. -/
  | substitute (pass : Pass) (target : Name) (q : Quantity) (parents : List Name)
  /-- Dropping the links of a folded rule to the children that are left. -/
  | prune (pass : Pass) (target : Name) (children : List Name)
  /-- About to begin a pass that deletes what is not referred to, given how many rules there were
  before the first such pass. -/
  | sift (total : Nat)
  /-- In such a pass, given how many rules there were when it began and the rules left. -/
  | discard (total before : Nat) (rest : List Name)
  | done

/-- Is the rule folded when a pass comes to it? -/
def Due (opts : Options) (f : Folding σ) (n : Name) : Prop :=
  f.isDone n = false ∧ f.isFoldable opts n = true

/-- One step of a run. -/
inductive Step (ev : Evaluator σ) (opts : Options) :
    Stage × Folding σ → Stage × Folding σ → Prop where
  | beginPass (f) :
      Step ev opts (.sweep, f) (.visit ⟨f.graph.size, 0, f.graph.names⟩, f.refreshTaint ev)
  | skip {f n b k rest} : ¬f.Due opts n →
      Step ev opts (.visit ⟨b, k, n :: rest⟩, f) (.visit ⟨b, k, rest⟩, f)
  | deleteIdle {f f' n b k rest} : f.Due opts n → f.isIdle n = true →
      f.delete? opts n = some f' →
      Step ev opts (.visit ⟨b, k, n :: rest⟩, f) (.visit ⟨b, k + 1, rest⟩, f')
  | keepIdle {f n b k rest} : f.Due opts n → f.isIdle n = true → f.delete? opts n = none →
      Step ev opts (.visit ⟨b, k, n :: rest⟩, f) (.visit ⟨b, k, rest⟩, f)
  | vary {f f' n y b k rest} : f.Due opts n → f.isIdle n = false → ask ev n f = .ok y f' →
      y.isConstant = false →
      Step ev opts (.visit ⟨b, k, n :: rest⟩, f) (.visit ⟨b, k, rest⟩, f'.emit (.varies n))
  | fold {f f' n y b k rest} : f.Due opts n → f.isIdle n = false → ask ev n f = .ok y f' →
      y.isConstant = true →
      Step ev opts (.visit ⟨b, k, n :: rest⟩, f)
        (.substitute ⟨b, k, rest⟩ n y.toQuantity (f'.refs.parentsOf n),
          (f'.emit (.folded n y.toQuantity)).setConstant n y.toQuantity)
  | copy {f f' pass n q p ps} : substituteIn opts n q p f = .ok () f' →
      Step ev opts (.substitute pass n q (p :: ps), f) (.substitute pass n q ps, f')
  | copied {f pass n q} :
      Step ev opts (.substitute pass n q [], f) (.prune pass n (f.refs.childrenOf n), f)
  | pruneOne {f pass n c cs} :
      Step ev opts (.prune pass n (c :: cs), f) (.prune pass n cs, f.pruneChild opts n c)
  | settle {f pass n} :
      Step ev opts (.prune pass n [], f) (.visit pass.succ, f.settle opts n)
  | passAgain {f b k} : ¬(f.graph.size = b ∧ k = 0) →
      Step ev opts (.visit ⟨b, k, []⟩, f) (.sweep, f.emit (.swept b f.graph.size k))
  | endSweep {f b k} : f.graph.size = b ∧ k = 0 → opts.keep.isNone = true →
      Step ev opts (.visit ⟨b, k, []⟩, f) (.done, f.emit (.swept b f.graph.size k))
  | beginSift {f b k} : f.graph.size = b ∧ k = 0 → opts.keep.isNone = false →
      Step ev opts (.visit ⟨b, k, []⟩, f)
        (.sift f.graph.size, f.emit (.swept b f.graph.size k))
  | siftPass {f total} :
      Step ev opts (.sift total, f) (.discard total f.graph.size f.graph.names, f.refreshTaint ev)
  | discard {f total b n rest} :
      Step ev opts (.discard total b (n :: rest), f) (.discard total b rest, f.discard opts n)
  | siftAgain {f total b} : f.graph.size ≠ b →
      Step ev opts (.discard total b [], f) (.sift total, f.emit (.sifted b f.graph.size))
  | endSift {f total b} : f.graph.size = b → f.graph.size = total →
      Step ev opts (.discard total b [], f) (.done, f.emit (.sifted b f.graph.size))
  | foldAgain {f total b} : f.graph.size = b → f.graph.size ≠ total →
      Step ev opts (.discard total b [], f) (.sweep, f.emit (.sifted b f.graph.size))

/-- The two ways in which a stage fails: the evaluator has no answer, or a parent holds a reference
that cannot be told from the folded rule. -/
inductive Fault (ev : Evaluator σ) (opts : Options) :
    Stage × Folding σ → FoldError → Folding σ → Prop where
  | ask {f f' n e b k rest} : f.Due opts n → f.isIdle n = false → ask ev n f = .error e f' →
      Fault ev opts (.visit ⟨b, k, n :: rest⟩, f) e f'
  | copy {f f' pass n q p ps e} : substituteIn opts n q p f = .error e f' →
      Fault ev opts (.substitute pass n q (p :: ps), f) e f'

/-- A run that stands at the first moment comes to the second one. -/
def Reaches (ev : Evaluator σ) (opts : Options) :
    Stage × Folding σ → Stage × Folding σ → Prop :=
  Relation.ReflTransGen (Step ev opts)

/-- A run that stands at this moment fails. -/
def Fails (ev : Evaluator σ) (opts : Options) (m : Stage × Folding σ) (e : FoldError)
    (f : Folding σ) : Prop :=
  ∃ m', Reaches ev opts m m' ∧ Fault ev opts m' e f

/-- What holds at one moment and is kept by every step holds at all moments to come. -/
theorem Reaches.invariant {P : Stage → Folding σ → Prop} {st st' : Stage} {f f' : Folding σ}
    (h : Reaches ev opts (st, f) (st', f')) (init : P st f)
    (step : ∀ {st₁ f₁ st₂ f₂}, P st₁ f₁ → Step ev opts (st₁, f₁) (st₂, f₂) → P st₂ f₂) :
    P st' f' := by
  have hall : ∀ m, Reaches ev opts (st, f) m → P m.1 m.2 := by
    intro m hm
    induction hm with
    | refl => exact init
    | tail _ hstep ih => exact step ih hstep
  exact hall (st', f') h

/-- There is at most one step to make: the stage and the state tell what comes next. -/
theorem Step.rightUnique : Relator.RightUnique (Step ev opts) := by
  intro m m₁ m₂ h₁ h₂
  cases h₁ with
  | beginPass | copied | pruneOne | settle | siftPass | discard =>
      cases h₂
      rfl
  | copy hsub =>
      cases h₂ with
      | copy hsub' =>
          rw [hsub] at hsub'
          cases hsub'
          rfl
  | skip hdue =>
      cases h₂ with
      | skip _ => rfl
      | deleteIdle hdue' _ _ | keepIdle hdue' _ _ | vary hdue' _ _ _ | fold hdue' _ _ _ =>
          exact absurd hdue' hdue
  -- the others of the same stage are told apart by their conditions
  | deleteIdle _ _ _ | keepIdle _ _ _ | vary _ _ _ _ | fold _ _ _ _ => cases h₂ <;> simp_all
  | passAgain _ | endSweep _ _ | beginSift _ _ => cases h₂ <;> simp_all
  | siftAgain _ | endSift _ _ | foldAgain _ _ => cases h₂ <;> simp_all

/-- Every moment that a run comes to lies on its way to the end, if it has one. -/
theorem Reaches.reaches_done {m m' : Stage × Folding σ} {f : Folding σ}
    (hdone : Reaches ev opts m (.done, f)) (h : Reaches ev opts m m') :
    Reaches ev opts m' (.done, f) := by
  rcases Relation.ReflTransGen.total_of_right_unique Step.rightUnique h hdone with h | h
  · exact h
  · rcases h.cases_head with rfl | ⟨m₁, hstep, -⟩
    · exact Relation.ReflTransGen.refl
    · cases hstep

/-- A run fails if it comes to a moment from which it fails. -/
theorem Fails.of_reaches {m m' : Stage × Folding σ} {e : FoldError} {f : Folding σ}
    (h : Reaches ev opts m m') (hf : Fails ev opts m' e f) : Fails ev opts m e f := by
  obtain ⟨m'', hm, hfault⟩ := hf
  exact ⟨m'', h.trans hm, hfault⟩

/-! ## Parts of a run -/

/-- The steps from a moment lead to the result of a part of a run: to the stage that comes next if
the part returns, and to a failure if it fails. -/
def Yields (ev : Evaluator σ) (opts : Options) {α : Type} (m : Stage × Folding σ)
    (next : α → Folding σ → Stage) : EStateM.Result FoldError (Folding σ) α → Prop
  | .ok a f => Reaches ev opts m (next a f, f)
  | .error e f => Fails ev opts m e f

namespace Yields

variable {α β : Type} {m m' : Stage × Folding σ}

theorem of_reaches {next : α → Folding σ → Stage} {r : EStateM.Result FoldError (Folding σ) α}
    (h : Reaches ev opts m m') (hr : Yields ev opts m' next r) : Yields ev opts m next r := by
  cases r with
  | ok a f => exact h.trans hr
  | error e f => exact Fails.of_reaches h hr

/-- Two parts of a run yield their composition, if the second begins at the stage where the first
one ends. -/
theorem bind {x : FoldStep σ α} {k : α → FoldStep σ β} {f : Folding σ}
    {next : α → Folding σ → Stage} {next' : β → Folding σ → Stage}
    (hx : Yields ev opts m next (x f))
    (hk : ∀ a f', Yields ev opts (next a f', f') next' (k a f')) :
    Yields ev opts m next' ((x >>= k) f) := by
  show Yields ev opts m next' (EStateM.bind x k f)
  rw [EStateM.bind]
  cases hr : x f with
  | ok a f' =>
      rw [hr] at hx
      exact of_reaches hx (hk a f')
  | error e f' =>
      rw [hr] at hx
      exact hx

end Yields

variable (ev opts)

/-! ### Folding one rule -/

/-- Copying a constant into parents goes through them one by one, up to the first failure. -/
theorem yields_substituteAll (pass : Pass) (n : Name) (q : Quantity) (ps : List Name)
    (f : Folding σ) :
    Yields ev opts (.substitute pass n q ps, f) (fun _ _ => .substitute pass n q [])
      (ps.forM (substituteIn opts n q) f) := by
  induction ps generalizing f with
  | nil => exact Relation.ReflTransGen.refl
  | cons p ps ih =>
      have hone : Yields ev opts (.substitute pass n q (p :: ps), f)
          (fun _ _ => .substitute pass n q ps) (substituteIn opts n q p f) := by
        cases hr : substituteIn opts n q p f with
        | ok a f' => exact Relation.ReflTransGen.single (Step.copy hr)
        | error e f' => exact ⟨_, Relation.ReflTransGen.refl, Fault.copy hr⟩
      exact hone.bind fun _ f' => ih f'

/-- Pruning goes through the children one by one. -/
theorem reaches_prune (pass : Pass) (n : Name) (cs : List Name) (f : Folding σ) :
    Reaches ev opts (.prune pass n cs, f) (.prune pass n [], cs.foldl (pruneChild opts n) f) := by
  induction cs generalizing f with
  | nil => exact Relation.ReflTransGen.refl
  | cons c cs ih => exact Relation.ReflTransGen.head Step.pruneOne (ih _)

/-- Once a rule is a constant, the run copies it into the parents, prunes the children, and goes on
with the next rule. -/
theorem yields_foldTo (pass : Pass) (n : Name) (q : Quantity) (f : Folding σ) :
    Yields ev opts
      (.substitute pass n q (f.refs.parentsOf n), (f.emit (.folded n q)).setConstant n q)
      (fun _ _ => .visit pass.succ) (foldTo opts n q f) := by
  have hsub := yields_substituteAll ev opts pass n q (f.refs.parentsOf n)
    ((f.emit (.folded n q)).setConstant n q)
  rw [foldTo]
  cases hr : substitute opts n q ((f.emit (.folded n q)).setConstant n q) with
  | error e f' =>
      rw [substitute] at hr
      have h : Yields ev opts _ _ (EStateM.Result.error e f') := hr ▸ hsub
      exact h
  | ok a f' =>
      rw [substitute] at hr
      have h : Yields ev opts _ _ (EStateM.Result.ok a f') := hr ▸ hsub
      refine Relation.ReflTransGen.trans h ?_
      refine Relation.ReflTransGen.head Step.copied ?_
      exact Relation.ReflTransGen.tail (reaches_prune ev opts pass n (f'.refs.childrenOf n) f')
        Step.settle

variable {opts} in
/-- A run that comes to a rule that is due does what folding it does, and counts it if it was
folded. -/
theorem yields_foldRule {f : Folding σ} {n : Name} (due : f.Due opts n) (b k : Nat)
    (rest : List Name) :
    Yields ev opts (.visit ⟨b, k, n :: rest⟩, f)
      (fun done _ => .visit ⟨b, if done then k + 1 else k, rest⟩) (foldRule ev opts n f) := by
  rw [foldRule]
  cases hidle : f.isIdle n with
  | true =>
      rw [if_pos rfl]
      cases hd : f.delete? opts n with
      | some f' => exact Relation.ReflTransGen.single (Step.deleteIdle due hidle hd)
      | none => exact Relation.ReflTransGen.single (Step.keepIdle due hidle hd)
  | false =>
      rw [if_neg Bool.false_ne_true]
      cases ha : ask ev n f with
      | error e f' => exact ⟨_, Relation.ReflTransGen.refl, Fault.ask due hidle ha⟩
      | ok y f' =>
          dsimp only
          cases hy : y.isConstant with
          | false => exact Relation.ReflTransGen.single (Step.vary due hidle ha hy)
          | true =>
              rw [if_pos rfl]
              have hfold : Yields ev opts (.visit ⟨b, k, n :: rest⟩, f)
                  (fun _ _ => .visit (Pass.mk b k rest).succ) (foldTo opts n y.toQuantity f') :=
                Yields.of_reaches (Relation.ReflTransGen.single (Step.fold due hidle ha hy))
                  (yields_foldTo ev opts ⟨b, k, rest⟩ n y.toQuantity f')
              cases hr : foldTo opts n y.toQuantity f' with
              | error e f₁ =>
                  rw [hr] at hfold
                  exact hfold
              | ok a f₁ =>
                  rw [hr] at hfold
                  exact hfold

/-! ### Passes -/

/-- A run that comes to a rule does what visiting it does. -/
theorem yields_visit (f : Folding σ) (n : Name) (b k : Nat) (rest : List Name) :
    Yields ev opts (.visit ⟨b, k, n :: rest⟩, f) (fun k' _ => .visit ⟨b, k', rest⟩)
      (visit ev opts k n f) := by
  rw [visit]
  split
  · rename_i hskip
    refine Relation.ReflTransGen.single (Step.skip ?_)
    rintro ⟨hdone, hfoldable⟩
    rw [hdone, hfoldable] at hskip
    exact Bool.false_ne_true hskip
  · rename_i hdue
    have due : f.Due opts n := by
      simpa [Due] using hdue
    have h := yields_foldRule ev due b k rest
    cases hr : foldRule ev opts n f with
    | error e f' =>
        rw [hr] at h
        exact h
    | ok done f' =>
        rw [hr] at h
        cases done with
        | true => exact h
        | false => exact h

/-- The visits of a pass are made one after the other. -/
theorem yields_visits (names : List Name) (f : Folding σ) (b k : Nat) :
    Yields ev opts (.visit ⟨b, k, names⟩, f) (fun k' _ => .visit ⟨b, k', []⟩)
      (names.foldlM (visit ev opts) k f) := by
  induction names generalizing f k with
  | nil => exact Relation.ReflTransGen.refl
  | cons n names ih =>
      rw [List.foldlM_cons]
      exact (yields_visit ev opts f n b k names).bind fun k' f' => ih f' k'

/-! ### Loops -/

/-- What follows a sweep: the end, unless rules to keep were given. -/
def afterSweep (opts : Options) (f : Folding σ) : Stage :=
  if opts.keep.isNone then .done else .sift f.graph.size

/-- A run makes passes as long as a sweep does. -/
theorem yields_sweep (f : Folding σ) :
    Yields ev opts (.sweep, f) (fun _ f' => afterSweep opts f') (sweep ev opts f) := by
  have hpass : ∀ f : Folding σ, Yields ev opts (.sweep, f)
      (fun k _ => .visit ⟨f.graph.size, k, []⟩) (pass ev opts (f.refreshTaint ev)) := fun f =>
    Yields.of_reaches (Relation.ReflTransGen.single (Step.beginPass f))
      (yields_visits ev opts f.graph.names (f.refreshTaint ev) f.graph.size 0)
  fun_induction sweep ev opts f with
  | case1 f e f' hr =>
      have h := hpass f
      rw [hr] at h
      exact h
  | case2 f k f' hr swept hsame =>
      have h := hpass f
      rw [hr] at h
      refine Relation.ReflTransGen.tail h ?_
      show Step ev opts _ (afterSweep opts swept, swept)
      cases hkeep : opts.keep.isNone with
      | true =>
          rw [afterSweep, if_pos hkeep]
          exact Step.endSweep hsame hkeep
      | false =>
          rw [afterSweep, hkeep, if_neg Bool.false_ne_true]
          exact Step.beginSift hsame hkeep
  | case3 f k f' hr swept hchanged ih =>
      have h := hpass f
      rw [hr] at h
      exact Yields.of_reaches (Relation.ReflTransGen.tail h (Step.passAgain hchanged)) ih

/-- A pass that only deletes goes through the rules one by one. -/
theorem reaches_discards (total b : Nat) (names : List Name) (f : Folding σ) :
    Reaches ev opts (.discard total b names, f)
      (.discard total b [], names.foldl (Folding.discard opts) f) := by
  induction names generalizing f with
  | nil => exact Relation.ReflTransGen.refl
  | cons n names ih => exact Relation.ReflTransGen.head Step.discard (ih _)

/-- A run makes passes that only delete as long as sifting does, and begins anew if that removed a
rule. -/
theorem reaches_sift (total : Nat) (f : Folding σ) :
    Reaches ev opts (.sift total, f)
      (if (f.sift ev opts).graph.size = total then .done else .sweep, f.sift ev opts) := by
  have hpass : ∀ f : Folding σ, Reaches ev opts (.sift total, f)
      (.discard total f.graph.size [], (f.refreshTaint ev).siftPass opts) := fun f =>
    Relation.ReflTransGen.head Step.siftPass
      (reaches_discards ev opts total f.graph.size f.graph.names (f.refreshTaint ev))
  fun_induction sift ev opts f with
  | case1 f f' sifted hsame =>
      refine Relation.ReflTransGen.tail (hpass f) ?_
      by_cases htotal : sifted.graph.size = total
      · rw [if_pos htotal]
        exact Step.endSift hsame htotal
      · rw [if_neg htotal]
        exact Step.foldAgain hsame htotal
  | case2 f f' sifted hchanged ih =>
      exact Relation.ReflTransGen.trans
        (Relation.ReflTransGen.tail (hpass f) (Step.siftAgain hchanged)) ih

/-- The steps from the first stage on lead to the result of a run. -/
theorem yields_run (f : Folding σ) :
    Yields ev opts (.sweep, f) (fun _ _ => .done) (run ev opts f) := by
  fun_induction run ev opts f with
  | case1 f e f' hr =>
      have h := yields_sweep ev opts f
      rw [hr] at h
      exact h
  | case2 f a f' hr hkeep =>
      have h := yields_sweep ev opts f
      rw [hr] at h
      have hafter : afterSweep opts f' = .done := if_pos hkeep
      rw [← hafter]
      exact h
  | case3 f a f' hr hkeep sifted hsame =>
      have h := yields_sweep ev opts f
      rw [hr] at h
      have hafter : afterSweep opts f' = .sift f'.graph.size := if_neg hkeep
      have hsift := reaches_sift ev opts f'.graph.size f'
      rw [if_pos hsame, ← hafter] at hsift
      exact Relation.ReflTransGen.trans h hsift
  | case4 f a f' hr hkeep sifted hchanged ih =>
      have h := yields_sweep ev opts f
      rw [hr] at h
      have hafter : afterSweep opts f' = .sift f'.graph.size := if_neg hkeep
      have hsift := reaches_sift ev opts f'.graph.size f'
      rw [if_neg hchanged, ← hafter] at hsift
      exact Yields.of_reaches (Relation.ReflTransGen.trans h hsift) ih

end Folding

/-! ## Folding a graph -/

namespace Graph

open RuleGraph.Folding (Stage Step Fault Reaches Fails Yields)

variable {σ : Type} {ev : Evaluator σ} {opts : Options} {g g' : Graph} {s s' : Session σ}

/-- Folding the graph comes to this stage, in this state. -/
def Passes (ev : Evaluator σ) (opts : Options) (g : Graph) (s : Session σ) (st : Stage)
    (f : Folding σ) : Prop :=
  ∃ u s', (g.restoreStatus opts.marker).unfoldable ev s = .ok u s' ∧
    Reaches ev opts (.sweep, Folding.start s' (g.restoreStatus opts.marker) u) (st, f)

/-- What holds at the start and is kept by every step holds at all moments of folding a graph. -/
theorem Passes.invariant {P : Stage → Folding σ → Prop} {st : Stage} {f : Folding σ}
    (h : g.Passes ev opts s st f)
    (init : ∀ {u s'}, (g.restoreStatus opts.marker).unfoldable ev s = .ok u s' →
      P .sweep (Folding.start s' (g.restoreStatus opts.marker) u))
    (step : ∀ {st₁ f₁ st₂ f₂}, P st₁ f₁ → Step ev opts (st₁, f₁) (st₂, f₂) → P st₂ f₂) :
    P st f := by
  obtain ⟨u, s', hu, hr⟩ := h
  exact hr.invariant (init hu) step

theorem Passes.trans {st st' : Stage} {f f' : Folding σ} (h : g.Passes ev opts s st f)
    (hr : Reaches ev opts (st, f) (st', f')) : g.Passes ev opts s st' f' := by
  obtain ⟨u, s', hu, h⟩ := h
  exact ⟨u, s', hu, Relation.ReflTransGen.trans h hr⟩

/-- What holds at the start and is kept by every step of folding the graph holds at all moments. -/
theorem Passes.invariant_of_passes {P : Stage → Folding σ → Prop} {st : Stage} {f : Folding σ}
    (h : g.Passes ev opts s st f)
    (init : ∀ {u s'}, (g.restoreStatus opts.marker).unfoldable ev s = .ok u s' →
      P .sweep (Folding.start s' (g.restoreStatus opts.marker) u))
    (step : ∀ {st₁ f₁ st₂ f₂}, g.Passes ev opts s st₁ f₁ → P st₁ f₁ →
      Step ev opts (st₁, f₁) (st₂, f₂) → P st₂ f₂) :
    P st f := by
  refine (h.invariant (P := fun st f => g.Passes ev opts s st f ∧ P st f) ?_ ?_).2
  · exact fun hu => ⟨⟨_, _, hu, Relation.ReflTransGen.refl⟩, init hu⟩
  · rintro st₁ f₁ st₂ f₂ ⟨hpasses, hP⟩ hstep
    exact ⟨hpasses.trans (Relation.ReflTransGen.single hstep), step hpasses hP hstep⟩

/-- Folding a graph is folding it with the interpreter. -/
theorem foldWith_of_fold (h : g.fold opts = .ok g') :
    ∃ s, g.foldWith .interpreter opts { state := () } = .ok g' s := by
  rw [fold] at h
  split at h
  · rename_i hwith
    cases h
    exact ⟨_, hwith⟩
  · cases h

/-- What is found out by running holds of the folded graph. -/
theorem exists_fold_of_any {p : Graph → Bool} (h : (g.fold opts).toOption.any p = true) :
    ∃ g', g.fold opts = .ok g' ∧ p g' = true := by
  cases hfold : g.fold opts with
  | error e =>
      rw [hfold] at h
      cases h
  | ok g' =>
      rw [hfold] at h
      exact ⟨g', rfl, h⟩

/-- The state in which folding visits the first rule, if nothing fails before. -/
def begun? (ev : Evaluator σ) (opts : Options) (g : Graph) (s : Session σ) :
    Option (Folding σ) :=
  match (g.restoreStatus opts.marker).unfoldable ev s with
  | .error _ _ => none
  | .ok u s => some ((Folding.start s (g.restoreStatus opts.marker) u).refreshTaint ev)

/-- Folding visits the first rule in the state in which it begins. -/
theorem passes_of_begun? {f : Folding σ} (h : g.begun? ev opts s = some f) :
    g.Passes ev opts s (.visit ⟨(g.restoreStatus opts.marker).size, 0,
      (g.restoreStatus opts.marker).names⟩) f := by
  rw [begun?] at h
  cases hu : (g.restoreStatus opts.marker).unfoldable ev s with
  | error e s' =>
      rw [hu] at h
      cases h
  | ok u s' =>
      rw [hu] at h
      cases h
      exact ⟨u, s', hu, Relation.ReflTransGen.single (Folding.Step.beginPass _)⟩

/-- If folding returns a graph, it comes to its end in a state with that graph. -/
theorem passes_of_foldWith (h : g.foldWith ev opts s = .ok g' s') :
    ∃ f, g.Passes ev opts s .done f ∧ f.graph = g' := by
  rw [foldWith] at h
  cases hu : (g.restoreStatus opts.marker).unfoldable ev s with
  | error e s₁ =>
      rw [hu] at h
      cases h
  | ok u s₁ =>
      rw [hu] at h
      dsimp only at h
      have hrun := Folding.yields_run ev opts
        (Folding.start s₁ (g.restoreStatus opts.marker) u)
      cases hr : (Folding.start s₁ (g.restoreStatus opts.marker) u).run ev opts with
      | error e f =>
          rw [hr] at h
          cases h
      | ok a f =>
          rw [hr] at h hrun
          cases h
          exact ⟨f, ⟨u, s₁, hu, hrun⟩, rfl⟩

/-- If folding fails, then either the unfoldable rules cannot be told, or folding comes to a stage
that fails. -/
theorem fault_of_foldWith {e : FoldError} (h : g.foldWith ev opts s = .error e s') :
    (∃ e', (g.restoreStatus opts.marker).unfoldable ev s = .error e' s') ∨
      ∃ st f f', g.Passes ev opts s st f ∧ Fault ev opts (st, f) e f' := by
  rw [foldWith] at h
  cases hu : (g.restoreStatus opts.marker).unfoldable ev s with
  | error e' s₁ =>
      rw [hu] at h
      cases h
      exact Or.inl ⟨e', rfl⟩
  | ok u s₁ =>
      rw [hu] at h
      dsimp only at h
      have hrun := Folding.yields_run ev opts
        (Folding.start s₁ (g.restoreStatus opts.marker) u)
      cases hr : (Folding.start s₁ (g.restoreStatus opts.marker) u).run ev opts with
      | ok a f =>
          rw [hr] at h
          cases h
      | error e' f =>
          rw [hr] at h hrun
          cases h
          obtain ⟨m, hm, hfault⟩ := hrun
          exact Or.inr ⟨m.1, m.2, f, ⟨u, s₁, hu, hm⟩, hfault⟩

end Graph

end RuleGraph
