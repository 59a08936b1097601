import RuleGraph.Proofs.Substitution

/-! # Filling in constants

    A run of folding substitutes one constant after the other.  `Expr.fill`
    does this at once: it replaces every reference that is given a constant.
    Filling in twice is filling in with the first choice of both (`fill_fill`),
    and substituting a constant is filling in for a single name, so whatever
    the order in which constants were copied into a rule, the rule is the one
    it began as, with constants filled in (`Rule.fill_subst`).

    The status of a filled rule tells whether anything was filled in. -/

namespace RuleGraph

/-- Constants that stand for some names. -/
abbrev Constants := Name → Option Quantity

namespace Constants

/-- The first constants, and one more for a name that they have none for. -/
def assign (k : Constants) (n : Name) (q : Quantity) : Constants := fun m =>
  (k m).or (if m = n then some q else none)

/-- All constants of the first are among those of the second. -/
def Within (k k' : Constants) : Prop := ∀ {n : Name} {q : Quantity}, k n = some q → k' n = some q

variable {k k' k'' : Constants} {n m : Name} {q : Quantity}

theorem Within.trans (h : k.Within k') (h' : k'.Within k'') : k.Within k'' :=
  fun hn => h' (h hn)

theorem Within.eq_none (h : k.Within k') (hn : k' n = none) : k n = none := by
  cases hq : k n with
  | none => rfl
  | some q =>
      rw [h hq] at hn
      cases hn

/-- Constants stay within others when one of those is assigned. -/
theorem Within.assign (h : k.Within k') (hn : k' n = some q) : (k.assign n q).Within k' := by
  intro m p hm
  rw [Constants.assign, Option.or_eq_some_iff] at hm
  rcases hm with hm | ⟨-, hm⟩
  · exact h hm
  · obtain ⟨rfl, hp⟩ := Option.ite_none_right_eq_some.mp hm
    rw [hn, hp]

/-- The names with a constant are those from before, and the one it was assigned to. -/
theorem isSome_assign : (k.assign n q m).isSome = true ↔ (k m).isSome = true ∨ m = n := by
  rw [assign, Option.isSome_or, Bool.or_eq_true]
  refine or_congr_right ?_
  by_cases hm : m = n
  · simp [hm]
  · simp [hm]

end Constants

namespace Expr

variable {k k' : Constants}

mutual

/-- The expression with every reference that has a constant replaced by it. -/
@[simp]
def fill (k : Constants) : Expr → Expr
  | ref n => ((k n).map const).getD (ref n)
  | const q => const q
  | op o l r => op o (fill k l) (fill k r)
  | cond c t e => cond (fill k c) (fill k t) (fill k e)
  | applicable c v => applicable (fill k c) (fill k v)
  | notApplicable c v => notApplicable (fill k c) (fill k v)
  | all es => all (fillMembers k es)
  | any es => any (fillMembers k es)
  | contextual e os => contextual (fill k e) (fillOverrides k os)

@[simp]
def fillMembers (k : Constants) : List Expr → List Expr
  | [] => []
  | e :: es => fill k e :: fillMembers k es

@[simp]
def fillOverrides (k : Constants) : List (Name × Expr) → List (Name × Expr)
  | [] => []
  | (n, e) :: os => (n, fill k e) :: fillOverrides k os

end

theorem fillMembers_eq (es : List Expr) : fillMembers k es = es.map (fill k) := by
  induction es with
  | nil => rfl
  | cons e es ih => rw [fillMembers, ih, List.map_cons]

theorem fillOverrides_eq (os : List (Name × Expr)) :
    fillOverrides k os = os.map fun o => (o.1, fill k o.2) := by
  induction os with
  | nil => rfl
  | cons o os ih =>
      obtain ⟨n, e⟩ := o
      rw [fillOverrides, ih, List.map_cons]

/-! ## Filling in step by step -/

/-- Substituting a constant fills it in for a single name. -/
theorem subst_const_eq_fill (target : Name) (q : Quantity) (e : Expr) :
    subst target (const q) e = fill (fun n => if n = target then some q else none) e := by
  induction e with
  | ref n =>
      by_cases hn : n = target
      · simp [subst, fill, hn]
      · simp [subst, fill, hn]
  | const p => rfl
  | op o l r ihl ihr => rw [subst, fill, ihl, ihr]
  | cond c t e ihc iht ihe => rw [subst, fill, ihc, iht, ihe]
  | applicable c v ihc ihv => rw [subst, fill, ihc, ihv]
  | notApplicable c v ihc ihv => rw [subst, fill, ihc, ihv]
  | all es ih | any es ih =>
      rw [subst, fill, substMembers_eq, fillMembers_eq, List.map_congr_left ih]
  | contextual e os ihe ihos =>
      rw [subst, fill, ihe, substOverrides_eq, fillOverrides_eq]
      congr 1
      refine List.map_congr_left ?_
      intro o ho
      rw [ihos o ho]

/-- Filling in constants twice is filling in the first ones, and the second ones where those have
none. -/
theorem fill_fill (e : Expr) :
    fill k' (fill k e) = fill (fun n => (k n).or (k' n)) e := by
  induction e with
  | ref n =>
      cases hn : k n with
      | none => simp [fill, hn]
      | some q => simp [fill, hn]
  | const p => rfl
  | op o l r ihl ihr => rw [fill, fill, fill, ihl, ihr]
  | cond c t e ihc iht ihe => rw [fill, fill, fill, ihc, iht, ihe]
  | applicable c v ihc ihv => rw [fill, fill, fill, ihc, ihv]
  | notApplicable c v ihc ihv => rw [fill, fill, fill, ihc, ihv]
  | all es ih | any es ih =>
      rw [fill, fill, fill, fillMembers_eq, fillMembers_eq, fillMembers_eq, List.map_map]
      exact congrArg _ (List.map_congr_left ih)
  | contextual e os ihe ihos =>
      rw [fill, fill, fill, ihe, fillOverrides_eq, fillOverrides_eq, fillOverrides_eq,
        List.map_map]
      congr 1
      refine List.map_congr_left ?_
      intro o ho
      rw [Function.comp_apply, ihos o ho]

/-- A constant that is substituted after others were filled in could have been one of them. -/
theorem subst_fill (target : Name) (q : Quantity) (e : Expr) :
    subst target (const q) (fill k e) = fill (k.assign target q) e := by
  rw [subst_const_eq_fill, fill_fill]
  rfl

/-! ## What filling in leaves -/

/-- Only the constants of names that the expression refers to matter. -/
theorem fill_congr {e : Expr} (h : ∀ n ∈ e.references, k n = k' n) : fill k e = fill k' e := by
  induction e with
  | ref n => rw [fill, fill, h n (List.mem_singleton_self n)]
  | const q => rfl
  | op o l r ihl ihr =>
      rw [references, List.forall_mem_append] at h
      rw [fill, fill, ihl h.1, ihr h.2]
  | cond c t e ihc iht ihe =>
      rw [references, List.forall_mem_append, List.forall_mem_append] at h
      rw [fill, fill, ihc h.1.1, iht h.1.2, ihe h.2]
  | applicable c v ihc ihv | notApplicable c v ihc ihv =>
      rw [references, List.forall_mem_append] at h
      rw [fill, fill, ihc h.1, ihv h.2]
  | all es ih | any es ih =>
      rw [references, memberReferences_eq] at h
      rw [fill, fill, fillMembers_eq, fillMembers_eq]
      refine congrArg _ (List.map_congr_left ?_)
      intro e he
      exact ih e he fun n hn => h n (List.mem_flatMap.mpr ⟨e, he, hn⟩)
  | contextual e os ihe ihos =>
      rw [references, overrideReferences_eq, List.forall_mem_append] at h
      rw [fill, fill, ihe h.1, fillOverrides_eq, fillOverrides_eq]
      congr 1
      refine List.map_congr_left ?_
      intro o ho
      rw [ihos o ho fun n hn => h.2 n (List.mem_flatMap.mpr ⟨o, ho, hn⟩)]

theorem fill_none (e : Expr) : fill (fun _ => none) e = e := by
  induction e with
  | ref n => rfl
  | const q => rfl
  | op o l r ihl ihr => rw [fill, ihl, ihr]
  | cond c t e ihc iht ihe => rw [fill, ihc, iht, ihe]
  | applicable c v ihc ihv => rw [fill, ihc, ihv]
  | notApplicable c v ihc ihv => rw [fill, ihc, ihv]
  | all es ih | any es ih =>
      rw [fill, fillMembers_eq, List.map_congr_left ih, List.map_id']
  | contextual e os ihe ihos =>
      rw [fill, ihe, fillOverrides_eq]
      congr 1
      refine (List.map_congr_left ?_).trans (List.map_id' os)
      intro o ho
      rw [ihos o ho]

/-- The references that stay are those without a constant. -/
theorem references_fill (e : Expr) :
    (fill k e).references = e.references.filter fun n => (k n).isNone := by
  induction e with
  | ref n =>
      cases hn : k n with
      | none => simp [fill, references, hn]
      | some q => simp [fill, references, hn]
  | const q => rfl
  | op o l r ihl ihr => simp only [fill, references, List.filter_append, ihl, ihr]
  | cond c t e ihc iht ihe => simp only [fill, references, List.filter_append, ihc, iht, ihe]
  | applicable c v ihc ihv => simp only [fill, references, List.filter_append, ihc, ihv]
  | notApplicable c v ihc ihv => simp only [fill, references, List.filter_append, ihc, ihv]
  | all es ih | any es ih =>
      rw [fill, references, references, memberReferences_eq, memberReferences_eq, fillMembers_eq,
        List.flatMap_map, List.filter_flatMap]
      exact List.flatMap_congr ih
  | contextual e os ihe ihos =>
      rw [fill, references, references, ihe, overrideReferences_eq, overrideReferences_eq,
        fillOverrides_eq, List.flatMap_map, List.filter_append, List.filter_flatMap]
      exact congrArg _ (List.flatMap_congr ihos)

/-- Filling in leaves all blocks, and the names that they override. -/
theorem blocks_fill (e : Expr) : (fill k e).blocks = e.blocks := by
  induction e with
  | ref n =>
      cases hn : k n with
      | none => simp [fill, hn]
      | some q => simp [fill, blocks, hn]
  | const q => rfl
  | op o l r ihl ihr => simp only [fill, blocks, ihl, ihr]
  | cond c t e ihc iht ihe => simp only [fill, blocks, ihc, iht, ihe]
  | applicable c v ihc ihv => simp only [fill, blocks, ihc, ihv]
  | notApplicable c v ihc ihv => simp only [fill, blocks, ihc, ihv]
  | all es ih | any es ih =>
      rw [fill, blocks, blocks, memberBlocks_eq, memberBlocks_eq, fillMembers_eq, List.flatMap_map]
      exact List.flatMap_congr ih
  | contextual e os ihe ihos =>
      rw [fill, blocks, blocks, ihe, overrideBlocks_eq, overrideBlocks_eq, fillOverrides_eq,
        List.flatMap_map, List.flatMap_congr ihos, List.map_map]
      rfl

/-- An expression with constants filled in depends on the references that have none, and still on
what it overrides. -/
theorem mem_dependencies_fill {e : Expr} {n : Name} :
    n ∈ (fill k e).dependencies ↔ n ∈ e.references ∧ k n = none ∨ n ∈ e.overrides := by
  rw [mem_dependencies, references_fill, List.mem_filter, Option.isNone_iff_eq_none, overrides,
    blocks_fill, overrides]

/-- Filling in constants neither makes nor removes a block at the root. -/
theorem isContextual_fill (e : Expr) : (fill k e).isContextual = e.isContextual := by
  cases e with
  | ref n =>
      cases hn : k n with
      | none => simp [fill, hn]
      | some q => simp [fill, isContextual, hn]
  | _ => rfl

theorem rootOverrides_fill (e : Expr) : (fill k e).rootOverrides = e.rootOverrides := by
  cases e with
  | ref n =>
      cases hn : k n with
      | none => simp [fill, hn]
      | some q => simp [fill, rootOverrides, hn]
  | contextual e os =>
      rw [fill, rootOverrides, rootOverrides, fillOverrides_eq, List.map_map]
      rfl
  | _ => rfl

end Expr

namespace Rule

variable {k k' : Constants} {r : Rule}

/-- The rule with every reference that has a constant replaced by it, folded at least partially if
there is one. -/
def fill (r : Rule) (k : Constants) : Rule :=
  { r with
    expr := r.expr.map (Expr.fill k)
    default := r.default.map (Expr.fill k)
    status :=
      if r.status = .unset ∧ ∃ n ∈ r.references, (k n).isSome = true then .partially
      else r.status }

/-- Only the constants of names that a rule refers to matter. -/
theorem fill_congr (h : ∀ n ∈ r.references, k n = k' n) : r.fill k = r.fill k' := by
  have hexprs : ∀ e ∈ r.exprs, Expr.fill k e = Expr.fill k' e := fun e he =>
    Expr.fill_congr fun n hn => h n (List.mem_flatMap.mpr ⟨e, he, hn⟩)
  have hexpr : r.expr.map (Expr.fill k) = r.expr.map (Expr.fill k') :=
    Option.map_congr fun e he =>
      hexprs e (List.mem_append_left _ (Option.mem_toList.mpr he))
  have hdefault : r.default.map (Expr.fill k) = r.default.map (Expr.fill k') :=
    Option.map_congr fun e he =>
      hexprs e (List.mem_append_right _ (Option.mem_toList.mpr he))
  have hstatus : (∃ n ∈ r.references, (k n).isSome = true) ↔
      ∃ n ∈ r.references, (k' n).isSome = true := by
    refine exists_congr fun n => and_congr_right fun hn => ?_
    rw [h n hn]
  simp only [fill, hexpr, hdefault, hstatus]

/-- Without constants for its references, a rule stays as it is. -/
theorem fill_of_none (h : ∀ n ∈ r.references, k n = none) : r.fill k = r := by
  have hfill : Expr.fill (fun _ => none) = id := funext Expr.fill_none
  have hnone : r.fill k = r.fill fun _ => none := fill_congr h
  rw [hnone, fill, hfill]
  simp

/-- A rule with constants filled in refers to the names that have none. -/
theorem references_fill : (r.fill k).references = r.references.filter fun n => (k n).isNone := by
  simp only [references, exprs, fill, List.flatMap_append, List.filter_append]
  cases r.expr with
  | none =>
      cases r.default with
      | none => rfl
      | some e => simp [Expr.references_fill]
  | some d =>
      cases r.default with
      | none => simp [Expr.references_fill]
      | some e => simp [Expr.references_fill]

theorem mem_references_fill {n : Name} :
    n ∈ (r.fill k).references ↔ n ∈ r.references ∧ k n = none := by
  rw [references_fill, List.mem_filter, Option.isNone_iff_eq_none]

/-- A name without a constant stays a dependency of a filled rule. -/
theorem mem_dependencies_fill {n : Name} (hn : k n = none) (h : n ∈ r.dependencies) :
    n ∈ (r.fill k).dependencies := by
  have hfill : ∀ e, n ∈ e.dependencies → n ∈ (Expr.fill k e).dependencies := by
    intro e he
    refine Expr.mem_dependencies_fill.mpr ?_
    exact (Expr.mem_dependencies.mp he).imp_left fun hr => ⟨hr, hn⟩
  obtain ⟨e, he, hne⟩ := List.mem_flatMap.mp h
  refine List.mem_flatMap.mpr ⟨Expr.fill k e, ?_, hfill e hne⟩
  rcases List.mem_append.mp he with he | he
  · refine List.mem_append_left _ (Option.mem_toList.mpr ?_)
    exact Option.map_eq_some_iff.mpr ⟨e, Option.mem_toList.mp he, rfl⟩
  · refine List.mem_append_right _ (Option.mem_toList.mpr ?_)
    exact Option.map_eq_some_iff.mpr ⟨e, Option.mem_toList.mp he, rfl⟩

theorem isInput_fill : (r.fill k).isInput = r.isInput := by
  simp [isInput, fill]

theorem isContextual_fill : (r.fill k).isContextual = r.isContextual := by
  rw [isContextual, isContextual, fill, Option.any_map]
  simp only [Expr.isContextual_fill]

/-- A rule with constants filled in overrides what it did before. -/
theorem overridden_fill : (r.fill k).overridden = r.overridden := by
  rw [overridden, overridden, fill, Option.map_map]
  simp only [Function.comp_def, Expr.rootOverrides_fill]

/-- Filling in constants does not make a rule fully folded. -/
theorem status_fill_eq_fully : (r.fill k).status = .fully ↔ r.status = .fully := by
  show (if _ then _ else _) = _ ↔ _
  split
  · rename_i h
    simp [h.1]
  · exact Iff.rfl

/-- One more constant is filled in where there was one before, or where a reference to its name
was left. -/
theorem exists_isSome_assign {n : Name} {q : Quantity} :
    (∃ m ∈ r.references, (k.assign n q m).isSome = true) ↔
      (∃ m ∈ r.references, (k m).isSome = true) ∨ n ∈ (r.fill k).references := by
  simp only [Constants.isSome_assign, mem_references_fill]
  constructor
  · rintro ⟨m, hm, hk | rfl⟩
    · exact Or.inl ⟨m, hm, hk⟩
    · cases hk : k m with
      | none => exact Or.inr ⟨hm, rfl⟩
      | some p => exact Or.inl ⟨m, hm, by rw [hk]; rfl⟩
  · rintro (⟨m, hm, hk⟩ | ⟨hn, -⟩)
    · exact ⟨m, hm, Or.inl hk⟩
    · exact ⟨n, hn, Or.inr rfl⟩

/-- One more constant leads to the status that filling in all of them leads to. -/
theorem status_fill_subst (r : Rule) (k : Constants) (n : Name) (q : Quantity) :
    (((r.fill k).subst n (.const q)).markReplaced ((r.fill k).references.count n)).status =
      (r.fill (k.assign n q)).status := by
  by_cases hunset : r.status = .unset
  · by_cases hsome : ∃ m ∈ r.references, (k m).isSome = true
    · have hk : (r.fill k).status = .partially := if_pos ⟨hunset, hsome⟩
      have hk' : (r.fill (k.assign n q)).status = .partially :=
        if_pos ⟨hunset, exists_isSome_assign.mpr (Or.inl hsome)⟩
      simp [markReplaced, subst, hk, hk']
    · have hk : (r.fill k).status = .unset := (if_neg fun h => hsome h.2).trans hunset
      by_cases hnew : n ∈ (r.fill k).references
      · have hk' : (r.fill (k.assign n q)).status = .partially :=
          if_pos ⟨hunset, exists_isSome_assign.mpr (Or.inr hnew)⟩
        simp [markReplaced, subst, hk, hk', List.count_pos_iff.mpr hnew]
      · have hk' : (r.fill (k.assign n q)).status = .unset :=
          (if_neg fun h => (exists_isSome_assign.mp h.2).elim hsome hnew).trans hunset
        simp [markReplaced, subst, hk, hk', List.count_eq_zero.mpr hnew]
  · have hk : ∀ k : Constants, (r.fill k).status = r.status := fun k =>
      if_neg fun h => hunset h.1
    simp [markReplaced, subst, hk, hunset]

/-- Replacing the references to one more name in a filled rule fills in one more constant. -/
theorem fill_subst (r : Rule) (k : Constants) (n : Name) (q : Quantity) :
    ((r.fill k).subst n (.const q)).markReplaced ((r.fill k).references.count n) =
      r.fill (k.assign n q) := by
  have hstatus := r.status_fill_subst k n q
  have hexpr : ((r.fill k).subst n (.const q)).expr = (r.fill (k.assign n q)).expr := by
    simp only [fill, subst, Option.map_map, Function.comp_def, Expr.subst_fill]
  have hdefault : ((r.fill k).subst n (.const q)).default = (r.fill (k.assign n q)).default := by
    simp only [fill, subst, Option.map_map, Function.comp_def, Expr.subst_fill]
  obtain ⟨status, hmark⟩ := ((r.fill k).subst n (.const q)).markReplaced_eq
    ((r.fill k).references.count n)
  rw [hmark] at hstatus ⊢
  obtain rfl : status = _ := hstatus
  show Rule.mk .. = Rule.mk ..
  rw [hexpr, hdefault]
  rfl

/-- Replacing the references to one name is filling in its constant alone. -/
theorem markReplaced_subst (r : Rule) (n : Name) (q : Quantity) :
    (r.subst n (.const q)).markReplaced (r.references.count n) =
      r.fill fun m => if m = n then some q else none := by
  have h := r.fill_subst (fun _ => none) n q
  rwa [fill_of_none fun _ _ => rfl] at h

end Rule

end RuleGraph
