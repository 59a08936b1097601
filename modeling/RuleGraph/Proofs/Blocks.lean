import RuleGraph.Graph

/-! # Contextual blocks

    Where contextual blocks stand in an expression, and which names they
    override.  An expression depends on its references and on the names that
    its blocks override, and on nothing else (`mem_dependencies`).  A rule is
    shallow if a contextual block stands at most at the root of its value: then
    the names overridden anywhere in the rule are those of `Rule.overridden`.

    Expressions nest through lists of members and overrides; `Expr.induction`
    is the induction that hands out a hypothesis for each of them. -/

namespace RuleGraph

namespace Expr

/-- Induction over expressions, with a hypothesis for every member of a conjunction or disjunction
and for every override of a contextual block. -/
@[elab_as_elim, induction_eliminator]
theorem induction {motive : Expr → Prop}
    (ref : ∀ n, motive (ref n))
    (const : ∀ q, motive (const q))
    (op : ∀ o l r, motive l → motive r → motive (op o l r))
    (cond : ∀ c t e, motive c → motive t → motive e → motive (cond c t e))
    (applicable : ∀ c v, motive c → motive v → motive (applicable c v))
    (notApplicable : ∀ c v, motive c → motive v → motive (notApplicable c v))
    (all : ∀ es, (∀ e ∈ es, motive e) → motive (all es))
    (any : ∀ es, (∀ e ∈ es, motive e) → motive (any es))
    (contextual : ∀ e os, motive e → (∀ o ∈ os, motive o.2) → motive (contextual e os))
    (e : Expr) : motive e := by
  refine @Expr.rec motive (fun es => ∀ e ∈ es, motive e) (fun os => ∀ o ∈ os, motive o.2)
    (fun o => motive o.2) ref const op cond applicable notApplicable all any contextual
    ?_ ?_ ?_ ?_ ?_ e
  · exact fun _ h => nomatch h
  · exact fun _ _ he hes => List.forall_mem_cons.mpr ⟨he, hes⟩
  · exact fun _ h => nomatch h
  · exact fun _ _ ho hos => List.forall_mem_cons.mpr ⟨ho, hos⟩
  · exact fun _ _ he => he

/-! ## Lists of members and overrides -/

theorem memberDependencies_eq (es : List Expr) :
    memberDependencies es = es.flatMap dependencies := by
  induction es with
  | nil => rfl
  | cons e es ih => rw [memberDependencies, ih, List.flatMap_cons]

/-- Of each override the name comes first, and then what its value depends on. -/
theorem overrideDependencies_eq (os : List (Name × Expr)) :
    overrideDependencies os = os.flatMap fun o => o.1 :: o.2.dependencies := by
  induction os with
  | nil => rfl
  | cons o os ih =>
      obtain ⟨n, e⟩ := o
      rw [overrideDependencies, ih, List.flatMap_cons]

theorem memberReferences_eq (es : List Expr) :
    memberReferences es = es.flatMap references := by
  induction es with
  | nil => rfl
  | cons e es ih => rw [memberReferences, ih, List.flatMap_cons]

/-- Overrides refer to what their values refer to; their names are no references. -/
theorem overrideReferences_eq (os : List (Name × Expr)) :
    overrideReferences os = os.flatMap fun o => o.2.references := by
  induction os with
  | nil => rfl
  | cons o os ih =>
      obtain ⟨n, e⟩ := o
      rw [overrideReferences, ih, List.flatMap_cons]

theorem membersHaveReferences_eq (es : List Expr) :
    membersHaveReferences es = es.any hasReferences := by
  induction es with
  | nil => rfl
  | cons e es ih => rw [membersHaveReferences, ih, List.any_cons]

theorem overridesHaveReferences_eq (os : List (Name × Expr)) :
    overridesHaveReferences os = os.any fun o => o.2.hasReferences := by
  induction os with
  | nil => rfl
  | cons o os ih =>
      obtain ⟨n, e⟩ := o
      rw [overridesHaveReferences, ih, List.any_cons]

/-- The search for a reference node finds none exactly if no references are listed. -/
theorem hasReferences_eq_false {e : Expr} : e.hasReferences = false ↔ e.references = [] := by
  induction e with
  | ref n => simp [hasReferences, references]
  | const q => simp [hasReferences, references]
  | op o l r ihl ihr =>
      rw [hasReferences, references, Bool.or_eq_false_iff, List.append_eq_nil_iff, ihl, ihr]
  | cond c t e ihc iht ihe =>
      rw [hasReferences, references, Bool.or_eq_false_iff, Bool.or_eq_false_iff,
        List.append_eq_nil_iff, List.append_eq_nil_iff, ihc, iht, ihe]
  | applicable c v ihc ihv | notApplicable c v ihc ihv =>
      rw [hasReferences, references, Bool.or_eq_false_iff, List.append_eq_nil_iff, ihc, ihv]
  | all es ih | any es ih =>
      rw [hasReferences, references, membersHaveReferences_eq, memberReferences_eq,
        List.any_eq_false, List.flatMap_eq_nil_iff]
      simp only [Bool.not_eq_true]
      exact forall₂_congr ih
  | contextual e os ihe ihos =>
      rw [hasReferences, references, overridesHaveReferences_eq, overrideReferences_eq,
        Bool.or_eq_false_iff, List.append_eq_nil_iff, ihe, List.any_eq_false,
        List.flatMap_eq_nil_iff]
      simp only [Bool.not_eq_true]
      exact and_congr_right fun _ => forall₂_congr ihos

/-! ## The blocks of an expression -/

mutual

/-- The names that each contextual block overrides, for all blocks at any depth. -/
def blocks : Expr → List (List Name)
  | ref _ => []
  | const _ => []
  | op _ l r => l.blocks ++ r.blocks
  | cond c t e => c.blocks ++ t.blocks ++ e.blocks
  | applicable c v => c.blocks ++ v.blocks
  | notApplicable c v => c.blocks ++ v.blocks
  | all es => memberBlocks es
  | any es => memberBlocks es
  | contextual e os => os.map Prod.fst :: (overrideBlocks os ++ e.blocks)

def memberBlocks : List Expr → List (List Name)
  | [] => []
  | e :: es => e.blocks ++ memberBlocks es

def overrideBlocks : List (Name × Expr) → List (List Name)
  | [] => []
  | (_, e) :: os => e.blocks ++ overrideBlocks os

end

theorem memberBlocks_eq (es : List Expr) : memberBlocks es = es.flatMap blocks := by
  induction es with
  | nil => rfl
  | cons e es ih => rw [memberBlocks, ih, List.flatMap_cons]

theorem overrideBlocks_eq (os : List (Name × Expr)) :
    overrideBlocks os = os.flatMap fun o => o.2.blocks := by
  induction os with
  | nil => rfl
  | cons o os ih =>
      obtain ⟨n, e⟩ := o
      rw [overrideBlocks, ih, List.flatMap_cons]

/-- The names that are overridden anywhere in an expression. -/
def overrides (e : Expr) : List Name := e.blocks.flatten

/-- A conjunction overrides what its members override. -/
theorem mem_overrides_all {es : List Expr} {n : Name} :
    n ∈ (all es).overrides ↔ ∃ e ∈ es, n ∈ e.overrides := by
  simp only [overrides, blocks, memberBlocks_eq, List.mem_flatten, List.mem_flatMap]
  constructor
  · rintro ⟨names, ⟨e, he, hnames⟩, hn⟩
    exact ⟨e, he, names, hnames, hn⟩
  · rintro ⟨e, he, names, hnames, hn⟩
    exact ⟨names, ⟨e, he, hnames⟩, hn⟩

/-- A contextual block overrides the names of its overrides, and what their values and the inner
expression override. -/
theorem mem_overrides_contextual {e : Expr} {os : List (Name × Expr)} {n : Name} :
    n ∈ (contextual e os).overrides ↔
      n ∈ os.map Prod.fst ∨ (∃ o ∈ os, n ∈ o.2.overrides) ∨ n ∈ e.overrides := by
  simp only [overrides, blocks, overrideBlocks_eq, List.flatten_cons, List.flatten_append,
    List.mem_append]
  refine or_congr_right (or_congr_left ?_)
  simp only [List.mem_flatten, List.mem_flatMap]
  constructor
  · rintro ⟨names, ⟨o, ho, hnames⟩, hn⟩
    exact ⟨o, ho, names, hnames, hn⟩
  · rintro ⟨o, ho, names, hnames, hn⟩
    exact ⟨names, ⟨o, ho, hnames⟩, hn⟩

/-- The dependencies of an expression are its references and the names it overrides. -/
theorem mem_dependencies {e : Expr} {n : Name} :
    n ∈ e.dependencies ↔ n ∈ e.references ∨ n ∈ e.overrides := by
  -- what the two sides of a node depend on, sorted by kind
  have hpair : ∀ {d d' r r' : List Name} {b b' : List (List Name)},
      (n ∈ d ↔ n ∈ r ∨ n ∈ b.flatten) → (n ∈ d' ↔ n ∈ r' ∨ n ∈ b'.flatten) →
      (n ∈ d ++ d' ↔ n ∈ r ++ r' ∨ n ∈ (b ++ b').flatten) := by
    intro d d' r r' b b' h h'
    rw [List.mem_append, List.mem_append, List.flatten_append, List.mem_append, h, h',
      or_or_or_comm]
  have hmembers : ∀ {es : List Expr},
      (∀ e ∈ es, n ∈ e.dependencies ↔ n ∈ e.references ∨ n ∈ e.overrides) →
      (n ∈ es.flatMap dependencies ↔
        n ∈ es.flatMap references ∨ ∃ e ∈ es, n ∈ e.overrides) := by
    intro es ih
    simp only [List.mem_flatMap]
    constructor
    · rintro ⟨e, he, hn⟩
      rcases (ih e he).mp hn with hn | hn
      · exact Or.inl ⟨e, he, hn⟩
      · exact Or.inr ⟨e, he, hn⟩
    · rintro (⟨e, he, hn⟩ | ⟨e, he, hn⟩)
      · exact ⟨e, he, (ih e he).mpr (Or.inl hn)⟩
      · exact ⟨e, he, (ih e he).mpr (Or.inr hn)⟩
  induction e with
  | ref m => simp [dependencies, references, overrides, blocks]
  | const q => simp [dependencies, references, overrides, blocks]
  | op o l r ihl ihr => exact hpair ihl ihr
  | cond c t e ihc iht ihe => exact hpair (hpair ihc iht) ihe
  | applicable c v ihc ihv => exact hpair ihc ihv
  | notApplicable c v ihc ihv => exact hpair ihc ihv
  | all es ih =>
      rw [dependencies, references, memberDependencies_eq, memberReferences_eq, mem_overrides_all]
      exact hmembers ih
  | any es ih =>
      rw [dependencies, references, memberDependencies_eq, memberReferences_eq]
      exact (hmembers ih).trans (or_congr_right mem_overrides_all.symm)
  | contextual e os ihe ihos =>
      rw [dependencies, references, overrideDependencies_eq, overrideReferences_eq,
        mem_overrides_contextual]
      simp only [List.mem_append, List.mem_flatMap, List.mem_cons, List.mem_map]
      constructor
      · rintro (⟨o, ho, rfl | hn⟩ | hn)
        · exact Or.inr (Or.inl ⟨o, ho, rfl⟩)
        · rcases (ihos o ho).mp hn with hn | hn
          · exact Or.inl (Or.inr ⟨o, ho, hn⟩)
          · exact Or.inr (Or.inr (Or.inl ⟨o, ho, hn⟩))
        · rcases ihe.mp hn with hn | hn
          · exact Or.inl (Or.inl hn)
          · exact Or.inr (Or.inr (Or.inr hn))
      · rintro ((hn | ⟨o, ho, hn⟩) | ⟨o, ho, rfl⟩ | ⟨o, ho, hn⟩ | hn)
        · exact Or.inr (ihe.mpr (Or.inl hn))
        · exact Or.inl ⟨o, ho, Or.inr ((ihos o ho).mpr (Or.inl hn))⟩
        · exact Or.inl ⟨o, ho, Or.inl rfl⟩
        · exact Or.inl ⟨o, ho, Or.inr ((ihos o ho).mpr (Or.inr hn))⟩
        · exact Or.inr (ihe.mpr (Or.inr hn))

/-- Does a contextual block stand at most at the root of the expression? -/
def isShallow : Expr → Bool
  | contextual e os => e.blocks.isEmpty && (overrideBlocks os).isEmpty
  | e => e.blocks.isEmpty

/-- If a block stands at most at the root, nothing is overridden but what it overrides. -/
theorem overrides_of_isShallow {e : Expr} (h : e.isShallow = true) :
    e.overrides = e.rootOverrides := by
  cases e with
  | contextual e os =>
      obtain ⟨he, hos⟩ := Bool.and_eq_true_iff.mp h
      rw [overrides, blocks, List.isEmpty_iff.mp he, List.isEmpty_iff.mp hos]
      simp [rootOverrides]
  | _ => simp_all [isShallow, overrides, rootOverrides]

end Expr

namespace Rule

/-- Does a contextual block stand at most at the root of the value of the rule? -/
def isShallow (r : Rule) : Bool :=
  r.expr.all Expr.isShallow && r.default.all fun e => e.blocks.isEmpty

end Rule

namespace Graph

/-- Do contextual blocks stand only at the root of values? -/
def isShallow (g : Graph) : Bool := g.rules.all Rule.isShallow

end Graph

end RuleGraph
