import Mathlib.Data.List.Basic
import RuleGraph.Proofs.Blocks

/-! # Replacing is substitution

    `Expr.replace` threads a count through the expression and stops at the
    first reference that it cannot decide.  `Expr.subst` is the same without
    count and without stopping.  The two are tied by `Visits`, which says of a
    traversal what it does in each state it can be started in; it composes
    along the binds that a traversal is made of, so each constructor takes one
    line.  Hence replacing either meets a clash and reports it, or succeeds
    with the substituted expression and the number of references to the target.

    Substituting a constant takes the references to the target out of an
    expression and leaves all else that it depends on, and all blocks, alone. -/

namespace RuleGraph

namespace Expr

/-! ## Substitution -/

mutual

/-- The expression with every reference to `target` replaced by `value`. -/
def subst (target : Name) (value : Expr) : Expr → Expr
  | ref n => if n = target then value else ref n
  | const q => const q
  | op o l r => op o (subst target value l) (subst target value r)
  | cond c t e => cond (subst target value c) (subst target value t) (subst target value e)
  | applicable c v => applicable (subst target value c) (subst target value v)
  | notApplicable c v => notApplicable (subst target value c) (subst target value v)
  | all es => all (substMembers target value es)
  | any es => any (substMembers target value es)
  | contextual e os => contextual (subst target value e) (substOverrides target value os)

def substMembers (target : Name) (value : Expr) : List Expr → List Expr
  | [] => []
  | e :: es => subst target value e :: substMembers target value es

def substOverrides (target : Name) (value : Expr) :
    List (Name × Expr) → List (Name × Expr)
  | [] => []
  | (n, e) :: os => (n, subst target value e) :: substOverrides target value os

end

variable {target : Name} {value : Expr}

theorem substMembers_eq (es : List Expr) :
    substMembers target value es = es.map (subst target value) := by
  induction es with
  | nil => rfl
  | cons e es ih => rw [substMembers, ih, List.map_cons]

theorem substOverrides_eq (os : List (Name × Expr)) :
    substOverrides target value os = os.map fun o => (o.1, subst target value o.2) := by
  induction os with
  | nil => rfl
  | cons o os ih =>
      obtain ⟨n, e⟩ := o
      rw [substOverrides, ih, List.map_cons]

/-! ## What a traversal does -/

/-- No reference of the list is spelled like the target without being the target. -/
def Clear (target : Name) (refs : List Name) : Prop :=
  ∀ n ∈ refs, n.text = target.text → n = target

/-- What a traversal over some references does: it leaves everything alone once it was stopped;
otherwise it counts the references to the target, or stops if there is one it cannot decide. -/
structure Visits (target : Name) {α : Type} (x : StateM Progress α) (refs : List Name)
    (before after : α) : Prop where
  stopped : ∀ stop, x (.error stop) = (before, .error stop)
  clear : ∀ k, Clear target refs → x (.ok k) = (after, .ok (k + refs.count target))
  clash : ∀ k, ¬Clear target refs → ∃ a, x (.ok k) = (a, .error ⟨target.text⟩)

namespace Visits

variable {α β : Type}

/-- A traversal that visits nothing leaves the progress alone. -/
theorem pure (a : α) : Visits target (Pure.pure a) [] a a where
  stopped _ := rfl
  clear _ _ := rfl
  clash _ h := absurd (fun _ hn => nomatch hn) h

/-- A traversal in two parts visits the references of the first one, and then those of the
second. -/
theorem bind {x : StateM Progress α} {k : α → StateM Progress β} {refs refs' : List Name}
    {a a' : α} {f f' : α → β} (hx : Visits target x refs a a')
    (hk : ∀ c, Visits target (k c) refs' (f c) (f' c)) :
    Visits target (x >>= k) (refs ++ refs') (f a) (f' a') where
  stopped stop := by
    show k (x (.error stop)).1 (x (.error stop)).2 = _
    rw [hx.stopped]
    exact (hk a).stopped stop
  clear i h := by
    show k (x (.ok i)).1 (x (.ok i)).2 = _
    rw [hx.clear i fun n hn => h n (List.mem_append_left _ hn), List.count_append, ← Nat.add_assoc]
    exact (hk a').clear _ fun n hn => h n (List.mem_append_right _ hn)
  clash i h := by
    show ∃ a, k (x (.ok i)).1 (x (.ok i)).2 = _
    by_cases hrefs : Clear target refs
    · rw [hx.clear i hrefs]
      refine (hk a').clash _ fun hrefs' => h ?_
      intro n hn
      rcases List.mem_append.mp hn with hn | hn
      · exact hrefs n hn
      · exact hrefs' n hn
    · obtain ⟨c, hc⟩ := hx.clash i hrefs
      rw [hc]
      exact ⟨f c, (hk c).stopped _⟩

/-- The result of a traversal, put into a larger one. -/
theorem map {x : StateM Progress α} {refs : List Name} {a a' : α} (hx : Visits target x refs a a')
    (f : α → β) : Visits target (x >>= fun c => Pure.pure (f c)) refs (f a) (f a') := by
  have h : Visits target (x >>= fun c => Pure.pure (f c)) (refs ++ []) (f a) (f a') :=
    hx.bind fun c => Visits.pure (f c)
  rwa [List.append_nil] at h

end Visits

theorem visits_ref (n : Name) :
    Visits target (visitRef target value n) [n] (ref n) (subst target value (ref n)) where
  stopped _ := rfl
  clear k h := by
    simp only [visitRef, subst]
    by_cases hn : n = target
    · rw [if_pos hn, if_pos hn, hn]
      simp
    · have htext : n.text ≠ target.text := fun ht => hn (h n (List.mem_singleton_self n) ht)
      rw [if_neg hn, if_neg htext, if_neg hn]
      simp [hn]
  clash k h := by
    obtain ⟨htext, hn⟩ : n.text = target.text ∧ n ≠ target := by
      simpa [Clear] using h
    exact ⟨ref n, by simp only [visitRef, if_neg hn, htext, if_true]⟩

/-- A traversal of members visits them from left to right. -/
theorem visits_members {es : List Expr}
    (h : ∀ e ∈ es, Visits target (visitRefs target value e) e.references e
      (subst target value e)) :
    Visits target (visitMembers target value es) (memberReferences es) es
      (substMembers target value es) := by
  induction es with
  | nil => exact Visits.pure []
  | cons e es ih =>
      obtain ⟨he, hes⟩ := List.forall_mem_cons.mp h
      exact he.bind fun c => (ih hes).map fun cs => c :: cs

/-- A traversal of overrides visits their values from left to right, and no names. -/
theorem visits_overrides {os : List (Name × Expr)}
    (h : ∀ o ∈ os, Visits target (visitRefs target value o.2) o.2.references o.2
      (subst target value o.2)) :
    Visits target (visitOverrides target value os) (overrideReferences os) os
      (substOverrides target value os) := by
  induction os with
  | nil => exact Visits.pure []
  | cons o os ih =>
      obtain ⟨n, e⟩ := o
      obtain ⟨he, hos⟩ := List.forall_mem_cons.mp h
      exact he.bind fun c => (ih hos).map fun cs => (n, c) :: cs

/-- Visiting the references of an expression substitutes and counts, up to a clash. -/
theorem visits_visitRefs (e : Expr) :
    Visits target (visitRefs target value e) e.references e (subst target value e) := by
  induction e with
  | ref n => exact visits_ref n
  | const q => exact Visits.pure (const q)
  | op o l r ihl ihr => exact ihl.bind fun c => ihr.map (op o c)
  | cond c t e ihc iht ihe =>
      rw [references, List.append_assoc]
      exact ihc.bind fun c => iht.bind fun t => ihe.map (cond c t)
  | applicable c v ihc ihv => exact ihc.bind fun c => ihv.map (applicable c)
  | notApplicable c v ihc ihv => exact ihc.bind fun c => ihv.map (notApplicable c)
  | all es ih => exact (visits_members ih).map all
  | any es ih => exact (visits_members ih).map any
  | contextual e os ihe ihos =>
      exact ihe.bind fun c => (visits_overrides ihos).map (contextual c)

/-- If every reference can be told from the target, replacing substitutes the value and counts how
often. -/
theorem replace_of_clear {e : Expr} (h : Clear target e.references) :
    e.replace target value = (subst target value e, .ok (e.references.count target)) := by
  rw [replace, (visits_visitRefs e).clear 0 h, Nat.zero_add]

/-- If some reference cannot be told from the target, replacing stops. -/
theorem replace_of_not_clear {e : Expr} (h : ¬Clear target e.references) (value : Expr) :
    ∃ e', e.replace target value = (e', .error ⟨target.text⟩) :=
  (visits_visitRefs e).clash 0 h

/-! ## What substitution leaves -/

/-- Each reference to the target becomes the references of the value. -/
theorem references_subst (e : Expr) :
    (subst target value e).references =
      e.references.flatMap fun n => if n = target then value.references else [n] := by
  have hmembers : ∀ {es : List Expr}, (∀ e ∈ es, (subst target value e).references =
        e.references.flatMap fun n => if n = target then value.references else [n]) →
      memberReferences (substMembers target value es) =
        (memberReferences es).flatMap fun n => if n = target then value.references else [n] := by
    intro es ih
    rw [memberReferences_eq, memberReferences_eq, substMembers_eq, List.flatMap_map,
      List.flatMap_assoc]
    exact List.flatMap_congr ih
  induction e with
  | ref n =>
      by_cases hn : n = target
      · simp [subst, references, hn]
      · simp [subst, references, hn]
  | const q => rfl
  | op o l r ihl ihr => simp only [subst, references, List.flatMap_append, ihl, ihr]
  | cond c t e ihc iht ihe => simp only [subst, references, List.flatMap_append, ihc, iht, ihe]
  | applicable c v ihc ihv => simp only [subst, references, List.flatMap_append, ihc, ihv]
  | notApplicable c v ihc ihv => simp only [subst, references, List.flatMap_append, ihc, ihv]
  | all es ih => exact hmembers ih
  | any es ih => exact hmembers ih
  | contextual e os ihe ihos =>
      simp only [subst, references, List.flatMap_append, ihe]
      rw [overrideReferences_eq, overrideReferences_eq, substOverrides_eq, List.flatMap_map,
        List.flatMap_assoc]
      exact congrArg _ (List.flatMap_congr ihos)

/-- A value without blocks brings none with it, and the names that blocks override stay. -/
theorem blocks_subst (hvalue : value.blocks = []) (e : Expr) :
    (subst target value e).blocks = e.blocks := by
  induction e with
  | ref n =>
      by_cases hn : n = target
      · simp [subst, blocks, hn, hvalue]
      · simp [subst, blocks, hn]
  | const q => rfl
  | op o l r ihl ihr => simp only [subst, blocks, ihl, ihr]
  | cond c t e ihc iht ihe => simp only [subst, blocks, ihc, iht, ihe]
  | applicable c v ihc ihv => simp only [subst, blocks, ihc, ihv]
  | notApplicable c v ihc ihv => simp only [subst, blocks, ihc, ihv]
  | all es ih =>
      simp only [subst, blocks, memberBlocks_eq, substMembers_eq, List.flatMap_map]
      exact List.flatMap_congr ih
  | any es ih =>
      simp only [subst, blocks, memberBlocks_eq, substMembers_eq, List.flatMap_map]
      exact List.flatMap_congr ih
  | contextual e os ihe ihos =>
      simp only [subst, blocks, overrideBlocks_eq, substOverrides_eq, List.flatMap_map,
        List.map_map, ihe]
      rw [List.flatMap_congr ihos]
      rfl

theorem overrides_subst_const (q : Quantity) (e : Expr) :
    (subst target (const q) e).overrides = e.overrides := by
  rw [overrides, blocks_subst rfl, overrides]

/-- A constant takes the references to the target away and nothing else. -/
theorem mem_references_subst_const {q : Quantity} {e : Expr} {n : Name} :
    n ∈ (subst target (const q) e).references ↔ n ∈ e.references ∧ n ≠ target := by
  rw [references_subst, List.mem_flatMap]
  constructor
  · rintro ⟨m, hm, hn⟩
    by_cases htarget : m = target
    · rw [if_pos htarget] at hn
      cases hn
    · rw [if_neg htarget] at hn
      obtain rfl := List.mem_singleton.mp hn
      exact ⟨hm, htarget⟩
  · rintro ⟨hn, htarget⟩
    exact ⟨n, hn, by rw [if_neg htarget]; exact List.mem_singleton_self n⟩

/-- With a constant filled in, an expression no longer depends on the target, unless it overrides
it. -/
theorem mem_dependencies_subst_const {q : Quantity} {e : Expr} {n : Name} :
    n ∈ (subst target (const q) e).dependencies ↔
      n ∈ e.references ∧ n ≠ target ∨ n ∈ e.overrides := by
  rw [mem_dependencies, mem_references_subst_const, overrides_subst_const]

theorem rootOverrides_subst_const (q : Quantity) (e : Expr) :
    (subst target (const q) e).rootOverrides = e.rootOverrides := by
  cases e with
  | ref n =>
      rw [subst]
      split
      · rfl
      · rfl
  | contextual e os =>
      simp only [subst, rootOverrides, substOverrides_eq, List.map_map]
      rfl
  | _ => rfl

/-- Filling in a constant moves no block. -/
theorem isShallow_subst_const (q : Quantity) (e : Expr) :
    (subst target (const q) e).isShallow = e.isShallow := by
  have hblocks : ∀ e, (subst target (const q) e).blocks = e.blocks := blocks_subst rfl
  cases e with
  | ref n =>
      rw [subst]
      split
      · rfl
      · rfl
  | contextual e os =>
      simp only [subst, isShallow, overrideBlocks_eq, substOverrides_eq, List.flatMap_map, hblocks]
  | const p => rfl
  | op o l r => exact congrArg List.isEmpty (hblocks (op o l r))
  | cond c t e => exact congrArg List.isEmpty (hblocks (cond c t e))
  | applicable c v => exact congrArg List.isEmpty (hblocks (applicable c v))
  | notApplicable c v => exact congrArg List.isEmpty (hblocks (notApplicable c v))
  | all es => exact congrArg List.isEmpty (hblocks (all es))
  | any es => exact congrArg List.isEmpty (hblocks (any es))

end Expr

namespace Rule

variable {r r' : Rule} {target : Name} {value : Expr} {count : Nat}

/-- The rule with every reference to `target` in its expressions replaced by `value`. -/
def subst (r : Rule) (target : Name) (value : Expr) : Rule :=
  { r with
    expr := r.expr.map (Expr.subst target value)
    default := r.default.map (Expr.subst target value) }

/-- The names of the reference nodes of the rule. -/
def references (r : Rule) : List Name := r.exprs.flatMap Expr.references

theorem markReplaced_eq (r : Rule) (count : Nat) :
    ∃ status, r.markReplaced count = { r with status } := by
  rw [markReplaced]
  split
  · exact ⟨.partially, rfl⟩
  · exact ⟨r.status, rfl⟩

theorem name_markReplaced_subst (r : Rule) (target : Name) (value : Expr) (count : Nat) :
    ((r.subst target value).markReplaced count).name = r.name := by
  obtain ⟨status, hstatus⟩ := (r.subst target value).markReplaced_eq count
  rw [hstatus]
  rfl

/-- In a single expression, replacing substitutes the value and counts how often. -/
theorem replaceIn_eq_ok {e : Option Expr} {res : Option Expr × Nat}
    (h : replace.replaceIn target value e = .ok res) :
    res = (e.map (Expr.subst target value),
      (e.toList.flatMap Expr.references).count target) := by
  cases e with
  | none =>
      cases h
      rfl
  | some e =>
      rw [replace.replaceIn] at h
      by_cases hclear : Expr.Clear target e.references
      · rw [Expr.replace_of_clear hclear] at h
        cases h
        simp
      · obtain ⟨e', he⟩ := Expr.replace_of_not_clear hclear value
        rw [he] at h
        cases h

/-- Where replacing succeeds, it has substituted and counted. -/
theorem replace_eq_ok (h : r.replace target value = .ok (r', count)) :
    r' = r.subst target value ∧ count = r.references.count target := by
  rw [replace] at h
  cases he : replace.replaceIn target value r.expr with
  | error clash =>
      rw [he] at h
      cases h
  | ok p =>
      cases hd : replace.replaceIn target value r.default with
      | error clash =>
          rw [he, hd] at h
          cases h
      | ok p' =>
          rw [he, hd, replaceIn_eq_ok he, replaceIn_eq_ok hd] at h
          cases h
          rw [references, exprs, List.flatMap_append, List.count_append]
          exact ⟨rfl, rfl⟩

/-- In a single expression, replacing does not stop if every reference can be told from the
target. -/
theorem replaceIn_of_clear {e : Option Expr}
    (h : Expr.Clear target (e.toList.flatMap Expr.references)) (value : Expr) :
    ∃ res, replace.replaceIn target value e = .ok res := by
  cases e with
  | none => exact ⟨_, rfl⟩
  | some e =>
      have hclear : Expr.Clear target e.references := by
        simpa using h
      rw [replace.replaceIn, Expr.replace_of_clear hclear]
      exact ⟨_, rfl⟩

/-- Replacing succeeds unless a reference is spelled like the target without being the target. -/
theorem replace_of_clear (h : Expr.Clear target r.references) (value : Expr) :
    ∃ count, r.replace target value = .ok (r.subst target value, count) := by
  rw [references, exprs, List.flatMap_append] at h
  obtain ⟨p, hp⟩ := replaceIn_of_clear (fun n hn => h n (List.mem_append_left _ hn)) value
  obtain ⟨p', hp'⟩ := replaceIn_of_clear (fun n hn => h n (List.mem_append_right _ hn)) value
  have hok : r.replace target value =
      .ok ({ r with expr := p.1, default := p'.1 }, p.2 + p'.2) := by
    rw [replace, hp, hp']
    rfl
  rw [(replace_eq_ok hok).1] at hok
  exact ⟨_, hok⟩

end Rule

end RuleGraph
