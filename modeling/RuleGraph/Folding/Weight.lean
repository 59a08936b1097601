import RuleGraph.Folding.Step
import RuleGraph.Graph.Lemmas

/-! # Folding makes graphs lighter

Folding never adds a rule, and no rule leaves the status of being fully folded.
So the number of rules and the number of rules not fully folded can only go
down, and their sum, the weight of the graph, goes down with every rule that is
folded or deleted.  `Shrinks` follows one rule through the steps of folding:
whatever happens to the graph, the rule is still there and not fully folded, or
the graph has lost a rule. -/

namespace RuleGraph

namespace Graph

/-- The number of rules that are not fully folded. -/
def openRules (g : Graph) : Nat := g.rules.countP fun r => r.status ≠ .fully

/-- The number of rules, and once more the number of those not fully folded. -/
def weight (g : Graph) : Nat := g.size + g.openRules

/-- Is the rule in the graph and not fully folded? -/
def HasOpen (g : Graph) (n : Name) : Prop := ∃ r, g.get? n = some r ∧ r.status ≠ .fully

/-- No rule is added or opened. -/
structure Lighter (g g' : Graph) : Prop where
  size_le : g'.size ≤ g.size
  open_le : g'.openRules ≤ g.openRules

namespace Lighter

theorem refl (g : Graph) : Lighter g g := ⟨Nat.le_refl _, Nat.le_refl _⟩

theorem trans {g h k : Graph} (hgh : Lighter g h) (hhk : Lighter h k) : Lighter g k :=
  ⟨Nat.le_trans hhk.size_le hgh.size_le, Nat.le_trans hhk.open_le hgh.open_le⟩

theorem weight_le {g h : Graph} (hgh : Lighter g h) : h.weight ≤ g.weight :=
  Nat.add_le_add hgh.size_le hgh.open_le

/-- A lighter graph with fewer rules has a smaller weight. -/
theorem weight_lt_of_size_lt {g h : Graph} (hgh : Lighter g h) (hlt : h.size < g.size) :
    h.weight < g.weight :=
  Nat.add_lt_add_of_lt_of_le hlt hgh.open_le

end Lighter

/-- No rule is added or opened, and an open rule stays open unless a rule was removed. -/
structure Shrinks (n : Name) (g g' : Graph) : Prop extends Lighter g g' where
  stays : g.HasOpen n → g'.HasOpen n ∨ g'.size < g.size

namespace Shrinks

theorem refl (n : Name) (g : Graph) : Shrinks n g g := ⟨Lighter.refl g, Or.inl⟩

theorem trans {n : Name} {g h k : Graph} (hgh : Shrinks n g h) (hhk : Shrinks n h k) :
    Shrinks n g k := by
  refine ⟨hgh.toLighter.trans hhk.toLighter, ?_⟩
  intro hn
  rcases hgh.stays hn with hn | hlt
  · rcases hhk.stays hn with hn | hlt
    · exact Or.inl hn
    · exact Or.inr (Nat.lt_of_lt_of_le hlt hgh.size_le)
  · exact Or.inr (Nat.lt_of_le_of_lt hhk.size_le hlt)

end Shrinks

/-! ## Changing and removing rules -/

/-- A change that opens no fully folded rule leaves no more open rules. -/
theorem openRules_map_le {g : Graph} {f : Rule → Rule}
    (hf : ∀ r ∈ g.rules, (f r).status ≠ .fully → r.status ≠ .fully) :
    (g.map f).openRules ≤ g.openRules := by
  rw [openRules, openRules, map, List.countP_map]
  refine List.countP_mono_left ?_
  intro r hr h
  simp only [Function.comp_apply, decide_eq_true_eq] at h ⊢
  exact hf r hr h

/-- Changing rules without touching whether they are fully folded. -/
theorem shrinks_map {g : Graph} {f : Rule → Rule} (n : Name)
    (hf : ∀ r ∈ g.rules, (f r).status = .fully ↔ r.status = .fully) :
    Shrinks n g (g.map f) where
  size_le := Nat.le_of_eq (size_map g f)
  open_le := openRules_map_le fun r hr h hr' => h ((hf r hr).mpr hr')
  stays := by
    rintro ⟨r, hr, hopen⟩
    refine Or.inl ⟨{ f r with name := r.name }, ?_, ?_⟩
    · rw [get?_map, hr]
      rfl
    · intro hfully
      exact hopen ((hf r (mem_of_get? hr)).mp hfully)

/-- Fewer rules satisfy the stronger of two conditions, if some rule satisfies only the weaker. -/
theorem countP_lt_countP {p q : Rule → Bool} {rules : List Rule}
    (h : ∀ r ∈ rules, p r = true → q r = true) {r : Rule} (hr : r ∈ rules)
    (hp : p r = false) (hq : q r = true) : rules.countP p < rules.countP q := by
  induction rules with
  | nil => exact nomatch hr
  | cons s rules ih =>
    have hrest : ∀ r ∈ rules, p r = true → q r = true :=
      fun r hr => h r (List.mem_cons_of_mem s hr)
    rcases List.mem_cons.mp hr with rfl | hr
    · rw [List.countP_cons_of_neg (by simp [hp]), List.countP_cons_of_pos hq]
      exact Nat.lt_succ_of_le (List.countP_mono_left hrest)
    · have ih := ih hrest hr
      cases hs : p s with
      | false =>
        rw [List.countP_cons_of_neg (by simp [hs]), List.countP_cons]
        exact Nat.lt_of_lt_of_le ih (Nat.le_add_right ..)
      | true =>
        rw [List.countP_cons_of_pos hs, List.countP_cons_of_pos (h s (List.mem_cons_self ..) hs)]
        exact Nat.succ_lt_succ ih

/-- Marking an open rule as fully folded leaves fewer open rules. -/
theorem openRules_modify_lt {g : Graph} {n : Name} {f : Rule → Rule} (hn : g.HasOpen n)
    (hf : ∀ r, (f r).status = .fully) : (g.modify n f).openRules < g.openRules := by
  obtain ⟨r, hr, hopen⟩ := hn
  rw [openRules, openRules, modify, map, List.countP_map]
  refine countP_lt_countP ?_ (mem_of_get? hr) ?_ (decide_eq_true hopen)
  · intro s _ hs
    simp only [Function.comp_apply, decide_eq_true_eq] at hs ⊢
    split at hs
    · exact absurd (hf s) hs
    · exact hs
  · simp only [Function.comp_apply, if_pos (name_of_get? hr), hf r]
    rfl

/-- A change of one rule that does not affect whether it is fully folded opens and closes
nothing. -/
theorem shrinks_modify {g : Graph} {f : Rule → Rule} (n m : Name)
    (hf : ∀ r, g.get? m = some r → ((f r).status = .fully ↔ r.status = .fully)) :
    Shrinks n g (g.modify m f) := by
  refine shrinks_map n ?_
  intro r hr
  by_cases hm : r.name = m
  · rw [if_pos hm]
    exact hf r (hm ▸ get?_name_of_mem hr)
  · rw [if_neg hm]

theorem openRules_erase_le (g : Graph) (n : Name) : (g.erase n).openRules ≤ g.openRules := by
  rw [openRules, openRules, erase, List.countP_filter]
  refine List.countP_mono_left ?_
  intro r _ h
  exact (Bool.and_eq_true_iff.mp h).1

theorem shrinks_erase (g : Graph) (n m : Name) : Shrinks n g (g.erase m) where
  size_le := size_erase_le g m
  open_le := openRules_erase_le g m
  stays := by
    rintro ⟨r, hr, hopen⟩
    by_cases hnm : n = m
    · subst hnm
      exact Or.inr (size_erase_lt hr)
    · exact Or.inl ⟨r, by rw [get?_erase_of_ne hnm, hr], hopen⟩

end Graph

/-! ## The steps of folding -/

namespace Rule

/-- Replacing references leaves the status alone. -/
theorem status_replace {r r' : Rule} {target : Name} {value : Expr} {count : Nat}
    (h : r.replace target value = .ok (r', count)) : r'.status = r.status := by
  rw [replace] at h
  cases he : replace.replaceIn target value r.expr with
  | error clash =>
    rw [he] at h
    exact nomatch h
  | ok p =>
    cases hd : replace.replaceIn target value r.default with
    | error clash =>
      rw [he, hd] at h
      exact nomatch h
    | ok q =>
      rw [he, hd] at h
      cases h
      rfl

/-- Counting replaced references makes no rule fully folded, and opens none. -/
theorem status_markReplaced (r : Rule) (count : Nat) :
    (r.markReplaced count).status = .fully ↔ r.status = .fully := by
  rw [markReplaced]
  split
  · rename_i h
    rw [h.2]
    exact ⟨(nomatch ·), (nomatch ·)⟩
  · exact Iff.rfl

end Rule

namespace Folding

variable {σ : Type}

open RuleGraph.Graph (Lighter Shrinks)

/-- Only a rule of the graph may be deleted. -/
theorem isSome_get?_of_isDeletable {opts : Options} {f : Folding σ} {n : Name}
    (h : f.isDeletable opts n = true) : ∃ r, f.graph.get? n = some r := by
  have hf : f.isFoldable opts n = true := (Bool.and_eq_true_iff.mp h).2
  rw [isFoldable] at hf
  cases hr : f.graph.get? n with
  | none =>
    rw [hr] at hf
    exact nomatch hf
  | some r => exact ⟨r, rfl⟩

/-- A deletion removes exactly one rule. -/
theorem delete?_eq_some {opts : Options} {f f' : Folding σ} {n : Name}
    (h : f.delete? opts n = some f') :
    f' = f.drop n ∧ f'.graph.size < f.graph.size := by
  rw [delete?] at h
  split at h
  · rename_i hd
    have hf : f.drop n = f' := Option.some.inj h
    obtain ⟨r, hr⟩ := isSome_get?_of_isDeletable hd
    subst hf
    exact ⟨rfl, Graph.size_erase_lt hr⟩
  · exact nomatch h

/-- The graph shrinks when a rule is deleted. -/
theorem shrinks_delete? {opts : Options} {f f' : Folding σ} {n : Name} (m : Name)
    (h : f.delete? opts n = some f') : Shrinks m f.graph f'.graph := by
  rw [(delete?_eq_some h).1]
  exact Graph.shrinks_erase f.graph m n

theorem shrinks_pruneChild (opts : Options) (f : Folding σ) (m parent child : Name) :
    Shrinks m f.graph (f.pruneChild opts parent child).graph := by
  rw [pruneChild]
  cases h : (f.unlink parent child).delete? opts child with
  | none => exact Shrinks.refl m f.graph
  | some f' =>
    show Shrinks m f.graph f'.graph
    exact shrinks_delete? (f := f.unlink parent child) m h

/-- The graph shrinks, or stays, when all children are pruned. -/
theorem shrinks_prune (opts : Options) (f : Folding σ) (m parent : Name) :
    Shrinks m f.graph (f.prune opts parent).graph := by
  rw [prune]
  generalize f.refs.childrenOf parent = children
  induction children generalizing f with
  | nil => exact Shrinks.refl m f.graph
  | cons child children ih =>
    exact (shrinks_pruneChild opts f m parent child).trans (ih _)

/-- Making a rule a constant neither opens nor closes a rule. -/
theorem shrinks_setConstant (f : Folding σ) (m n : Name) (q : Quantity) :
    Shrinks m f.graph (f.setConstant n q).graph :=
  Graph.shrinks_modify m n fun _ _ => Iff.rfl

theorem graph_adopt (f : Folding σ) (target parent : Name) (r : Rule) (count : Nat) :
    (f.adopt target parent r count).graph = f.graph.modify parent fun _ => r := by
  rw [adopt]
  split
  · rfl
  · rfl

/-- Copying a constant into a parent neither opens nor closes a rule. -/
theorem shrinks_substituteIn {opts : Options} {f f' : Folding σ} {target parent : Name}
    {q : Quantity} (m : Name) (h : substituteIn opts target q parent f = .ok () f') :
    Shrinks m f.graph f'.graph := by
  rw [substituteIn] at h
  cases hr : f.graph.get? parent with
  | none =>
    rw [hr] at h
    cases h
    exact Shrinks.refl m f.graph
  | some r =>
    rw [hr] at h
    dsimp only at h
    split at h
    · cases h
      exact Shrinks.refl m f.graph
    · cases hrep : r.replace target (.const q) with
      | error clash =>
        rw [hrep] at h
        exact nomatch h
      | ok res =>
        obtain ⟨r', count⟩ := res
        rw [hrep] at h
        cases h
        rw [graph_adopt]
        refine Graph.shrinks_modify m parent ?_
        intro s hs
        rw [hr] at hs
        cases hs
        rw [Rule.status_markReplaced, Rule.status_replace hrep]

theorem shrinks_substitute {opts : Options} {f f' : Folding σ} {target : Name} {q : Quantity}
    (m : Name) (h : substitute opts target q f = .ok () f') : Shrinks m f.graph f'.graph := by
  rw [substitute] at h
  generalize f.refs.parentsOf target = parents at h
  induction parents generalizing f with
  | nil =>
    cases h
    exact Shrinks.refl m _
  | cons parent parents ih =>
    change EStateM.bind (substituteIn opts target q parent) _ f = _ at h
    rw [EStateM.bind] at h
    split at h
    · rename_i hs
      exact (shrinks_substituteIn m hs).trans (ih h)
    · exact nomatch h

/-- Settling an open rule makes the graph strictly lighter. -/
theorem lighter_settle (opts : Options) (f : Folding σ) (n : Name) :
    Lighter f.graph (f.settle opts n).graph ∧
      (f.graph.HasOpen n → (f.settle opts n).graph.weight < f.graph.weight) := by
  rw [settle]
  cases h : f.delete? opts n with
  | some f' =>
    have hlight : Lighter f.graph f'.graph := (shrinks_delete? n h).toLighter
    exact ⟨hlight, fun _ => hlight.weight_lt_of_size_lt (delete?_eq_some h).2⟩
  | none =>
    have hsize : (f.markFully n).graph.size = f.graph.size := Graph.size_map ..
    refine ⟨⟨Nat.le_of_eq hsize, ?_⟩, ?_⟩
    · refine Graph.openRules_map_le ?_
      intro r _ h
      split at h
      · exact absurd rfl h
      · exact h
    · intro hn
      exact Nat.add_lt_add_of_le_of_lt (Nat.le_of_eq hsize)
        (Graph.openRules_modify_lt hn fun _ => rfl)

/-- Folding an open rule to a constant makes the graph strictly lighter. -/
theorem lighter_foldTo {opts : Options} {f f' : Folding σ} {n : Name} {q : Quantity}
    (h : foldTo opts n q f = .ok () f') :
    Lighter f.graph f'.graph ∧
      (f.graph.HasOpen n → f'.graph.weight < f.graph.weight) := by
  rw [foldTo] at h
  split at h
  · exact nomatch h
  · rename_i f₁ hs
    have hf' : (f₁.prune opts n).settle opts n = f' := by
      cases h
      rfl
    have hshrinks : Shrinks n f.graph (f₁.prune opts n).graph :=
      ((shrinks_setConstant (f.emit (.folded n q)) n n q).trans
        (shrinks_substitute n hs)).trans (shrinks_prune opts f₁ n n)
    obtain ⟨hlight, hlt⟩ := lighter_settle opts (f₁.prune opts n) n
    rw [hf'] at hlight hlt
    refine ⟨hshrinks.toLighter.trans hlight, ?_⟩
    intro hn
    rcases hshrinks.stays hn with hopen | hsize
    · exact Nat.lt_of_lt_of_le (hlt hopen) hshrinks.toLighter.weight_le
    · exact Nat.lt_of_le_of_lt hlight.weight_le
        (hshrinks.toLighter.weight_lt_of_size_lt hsize)

theorem graph_ask {ev : Evaluator σ} {f f' : Folding σ} {n : Name} {y : Evaluation}
    (h : ask ev n f = .ok y f') : f'.graph = f.graph := by
  rw [ask] at h
  split at h
  · cases h
    rfl
  · exact nomatch h

/-- Folding or deleting an open rule makes the graph strictly lighter. -/
theorem lighter_foldRule {ev : Evaluator σ} {opts : Options} {f f' : Folding σ} {n : Name}
    {done : Bool} (h : foldRule ev opts n f = .ok done f') :
    Lighter f.graph f'.graph ∧
      (done = true → f.graph.HasOpen n → f'.graph.weight < f.graph.weight) := by
  rw [foldRule] at h
  split at h
  · split at h
    · rename_i f₁ hd
      cases h
      have hlight : Lighter f.graph f'.graph := (shrinks_delete? n hd).toLighter
      exact ⟨hlight, fun _ _ => hlight.weight_lt_of_size_lt (delete?_eq_some hd).2⟩
    · cases h
      exact ⟨Lighter.refl _, fun hdone => nomatch hdone⟩
  · split at h
    · exact nomatch h
    · rename_i y f₁ ha
      have hg := graph_ask ha
      split at h
      · split at h
        · exact nomatch h
        · rename_i hfold
          cases h
          obtain ⟨hlight, hlt⟩ := lighter_foldTo hfold
          rw [hg] at hlight hlt
          exact ⟨hlight, fun _ => hlt⟩
      · cases h
        have hg' : (f₁.emit (.varies n)).graph = f.graph := hg
        rw [hg']
        exact ⟨Lighter.refl _, fun hdone => nomatch hdone⟩

/-- A rule with something left to fold is in the graph and open. -/
theorem hasOpen_of_not_isDone {f : Folding σ} {n : Name} (h : f.isDone n = false) :
    f.graph.HasOpen n := by
  rw [isDone] at h
  cases hr : f.graph.get? n with
  | none =>
    rw [hr] at h
    exact nomatch h
  | some r =>
    rw [hr] at h
    exact ⟨r, hr, of_decide_eq_false h⟩

/-- A visit adds and opens no rule, and the weight goes down if it counts one more rule. -/
theorem lighter_visit {ev : Evaluator σ} {opts : Options} {f f' : Folding σ} {n : Name}
    {k k' : Nat} (h : visit ev opts k n f = .ok k' f') :
    Lighter f.graph f'.graph ∧ k ≤ k' ∧ (k < k' → f'.graph.weight < f.graph.weight) := by
  rw [visit] at h
  split at h
  · cases h
    exact ⟨Lighter.refl _, Nat.le_refl _, fun hk => absurd hk (Nat.lt_irrefl _)⟩
  · rename_i hd
    have hopen : f.graph.HasOpen n := by
      refine hasOpen_of_not_isDone ?_
      cases hdone : f.isDone n with
      | false => rfl
      | true =>
        rw [hdone] at hd
        exact absurd rfl hd
    split at h
    · exact nomatch h
    · rename_i hfold
      cases h
      obtain ⟨hlight, hlt⟩ := lighter_foldRule hfold
      exact ⟨hlight, Nat.le_succ _, fun _ => hlt rfl hopen⟩
    · rename_i hfold
      cases h
      exact ⟨(lighter_foldRule hfold).1, Nat.le_refl _, fun hk => absurd hk (Nat.lt_irrefl _)⟩

/-- The same holds of the visits of a pass, taken together. -/
theorem lighter_foldlM_visit {ev : Evaluator σ} {opts : Options} {names : List Name}
    {f f' : Folding σ} {k k' : Nat} (h : names.foldlM (visit ev opts) k f = .ok k' f') :
    Lighter f.graph f'.graph ∧ k ≤ k' ∧ (k < k' → f'.graph.weight < f.graph.weight) := by
  induction names generalizing f k with
  | nil =>
    cases h
    exact ⟨Lighter.refl _, Nat.le_refl _, fun hk => absurd hk (Nat.lt_irrefl _)⟩
  | cons n names ih =>
    rw [List.foldlM_cons] at h
    change EStateM.bind (visit ev opts k n) _ f = _ at h
    rw [EStateM.bind] at h
    split at h
    · rename_i k₁ f₁ hv
      obtain ⟨hlight, hle, hlt⟩ := lighter_visit hv
      obtain ⟨hlight', hle', hlt'⟩ := ih h
      refine ⟨hlight.trans hlight', Nat.le_trans hle hle', ?_⟩
      intro hk
      rcases Nat.lt_or_ge k k₁ with hk₁ | hk₁
      · exact Nat.lt_of_le_of_lt hlight'.weight_le (hlt hk₁)
      · exact Nat.lt_of_lt_of_le (hlt' (Nat.lt_of_le_of_lt hk₁ hk)) hlight.weight_le
    · exact nomatch h

/-- A pass makes the graph lighter, and strictly so if it folds a rule. -/
theorem lighter_pass {ev : Evaluator σ} {opts : Options} {f f' : Folding σ} {k : Nat}
    (h : pass ev opts f = .ok k f') :
    Lighter f.graph f'.graph ∧ (k ≠ 0 → f'.graph.weight < f.graph.weight) := by
  obtain ⟨hlight, _, hlt⟩ := lighter_foldlM_visit h
  exact ⟨hlight, fun hk => hlt (Nat.pos_of_ne_zero hk)⟩

theorem size_siftPass_le (opts : Options) (f : Folding σ) :
    (f.siftPass opts).graph.size ≤ f.graph.size := by
  rw [siftPass]
  generalize f.graph.names = names
  induction names generalizing f with
  | nil => exact Nat.le_refl _
  | cons n names ih =>
    rw [List.foldl_cons]
    refine Nat.le_trans (ih _) ?_
    rw [discard]
    cases h : f.delete? opts n with
    | none => exact Nat.le_refl _
    | some f' => exact Nat.le_of_lt (delete?_eq_some h).2

end Folding

end RuleGraph
