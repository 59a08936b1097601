import Mathlib.Data.List.Perm.Basic
import RuleGraph.Proofs.Substitution

/-! # Replacing references is exact

    Three traversals of an expression have to agree: the one that replaces
    references, the one that lists what the expression depends on, and the one
    that lists its references.  They visit contextual blocks in different
    orders, and only the second one looks at the names that blocks override.

    The dependencies of an expression do not tell a reference from an override
    of the same name.  `Expr.occurrences` lists the same names with this
    difference kept.  Then substituting a value for a name expands each
    reference to it into the dependencies of the value, where it stands, and
    keeps all other occurrences (`dependencies_subst`). -/

namespace RuleGraph

/-- A name that occurs in an expression, as a reference or because a contextual block overrides
it. -/
inductive Occurrence where
  | reference (name : Name)
  | override (name : Name)
deriving DecidableEq, Repr

namespace Occurrence

def name : Occurrence → Name
  | reference n => n
  | override n => n

/-- The name, if it occurs as a reference. -/
def reference? : Occurrence → Option Name
  | reference n => some n
  | override _ => none

/-- What the occurrence becomes if references to `target` are replaced by something that depends on
`names`. -/
def expand (target : Name) (names : List Name) : Occurrence → List Name
  | reference n => if n = target then names else [n]
  | override n => [n]

end Occurrence

namespace Expr

mutual

/-- The occurrences of names in an expression, in the order of its dependencies. -/
@[simp]
def occurrences : Expr → List Occurrence
  | ref n => [.reference n]
  | const _ => []
  | op _ l r => l.occurrences ++ r.occurrences
  | cond c t e => c.occurrences ++ t.occurrences ++ e.occurrences
  | applicable c v => c.occurrences ++ v.occurrences
  | notApplicable c v => c.occurrences ++ v.occurrences
  | all es => memberOccurrences es
  | any es => memberOccurrences es
  | contextual e os => overrideOccurrences os ++ e.occurrences

@[simp]
def memberOccurrences : List Expr → List Occurrence
  | [] => []
  | e :: es => e.occurrences ++ memberOccurrences es

@[simp]
def overrideOccurrences : List (Name × Expr) → List Occurrence
  | [] => []
  | (n, e) :: os => .override n :: e.occurrences ++ overrideOccurrences os

end

theorem memberOccurrences_eq (es : List Expr) :
    memberOccurrences es = es.flatMap occurrences := by
  induction es with
  | nil => rfl
  | cons e es ih => rw [memberOccurrences, ih, List.flatMap_cons]

theorem overrideOccurrences_eq (os : List (Name × Expr)) :
    overrideOccurrences os = os.flatMap fun o => .override o.1 :: o.2.occurrences := by
  induction os with
  | nil => rfl
  | cons o os ih =>
      obtain ⟨n, e⟩ := o
      rw [overrideOccurrences, ih, List.flatMap_cons]

/-! ## Occurrences, dependencies and references -/

/-- The dependencies of an expression are the names that occur in it, in the same order. -/
theorem dependencies_eq_map (e : Expr) : e.dependencies = e.occurrences.map Occurrence.name := by
  induction e with
  | ref n => rfl
  | const q => rfl
  | op o l r ihl ihr => rw [dependencies, occurrences, List.map_append, ihl, ihr]
  | cond c t e ihc iht ihe =>
      rw [dependencies, occurrences, List.map_append, List.map_append, ihc, iht, ihe]
  | applicable c v ihc ihv | notApplicable c v ihc ihv =>
      rw [dependencies, occurrences, List.map_append, ihc, ihv]
  | all es ih | any es ih =>
      rw [dependencies, occurrences, memberDependencies_eq, memberOccurrences_eq, List.map_flatMap]
      exact List.flatMap_congr ih
  | contextual e os ihe ihos =>
      rw [dependencies, occurrences, overrideDependencies_eq, overrideOccurrences_eq,
        List.map_append, List.map_flatMap, ihe]
      congr 1
      refine List.flatMap_congr ?_
      intro o ho
      rw [ihos o ho, List.map_cons, Occurrence.name]

/-- The occurrences as references are the references, up to order: in a contextual block the
references list the inner expression first. -/
theorem references_perm (e : Expr) :
    (e.occurrences.filterMap Occurrence.reference?).Perm e.references := by
  induction e with
  | ref n => exact List.Perm.refl _
  | const q => exact List.Perm.refl _
  | op o l r ihl ihr =>
      rw [occurrences, references, List.filterMap_append]
      exact ihl.append ihr
  | cond c t e ihc iht ihe =>
      rw [occurrences, references, List.filterMap_append, List.filterMap_append]
      exact (ihc.append iht).append ihe
  | applicable c v ihc ihv | notApplicable c v ihc ihv =>
      rw [occurrences, references, List.filterMap_append]
      exact ihc.append ihv
  | all es ih | any es ih =>
      rw [occurrences, references, memberOccurrences_eq, memberReferences_eq,
        List.filterMap_flatMap]
      exact List.Perm.flatMap_left es ih
  | contextual e os ihe ihos =>
      rw [occurrences, references, overrideOccurrences_eq, overrideReferences_eq,
        List.filterMap_append, List.filterMap_flatMap]
      refine List.perm_append_comm.trans (ihe.append (List.Perm.flatMap_left os ?_))
      intro o ho
      rw [List.filterMap_cons_none rfl]
      exact ihos o ho

/-! ## What replacing does -/

variable {target : Name} {value : Expr}

/-- Substitution expands the references to the target, and nothing else. -/
theorem dependencies_subst (e : Expr) :
    (subst target value e).dependencies =
      e.occurrences.flatMap (Occurrence.expand target value.dependencies) := by
  induction e with
  | ref n =>
      by_cases hn : n = target
      · simp [subst, Occurrence.expand, hn]
      · simp [subst, Occurrence.expand, dependencies, hn]
  | const q => rfl
  | op o l r ihl ihr => rw [subst, dependencies, occurrences, List.flatMap_append, ihl, ihr]
  | cond c t e ihc iht ihe =>
      rw [subst, dependencies, occurrences, List.flatMap_append, List.flatMap_append, ihc, iht, ihe]
  | applicable c v ihc ihv | notApplicable c v ihc ihv =>
      rw [subst, dependencies, occurrences, List.flatMap_append, ihc, ihv]
  | all es ih | any es ih =>
      rw [subst, dependencies, occurrences, memberDependencies_eq, memberOccurrences_eq,
        substMembers_eq, List.flatMap_map, List.flatMap_assoc]
      exact List.flatMap_congr ih
  | contextual e os ihe ihos =>
      rw [subst, dependencies, occurrences, overrideDependencies_eq, overrideOccurrences_eq,
        substOverrides_eq, List.flatMap_map, List.flatMap_append, List.flatMap_assoc, ihe]
      congr 1
      refine List.flatMap_congr ?_
      intro o ho
      rw [ihos o ho, List.flatMap_cons]
      rfl

/-- A value without references leaves the references that do not name the target. -/
theorem references_subst_of_closed (hvalue : value.references = []) (e : Expr) :
    (subst target value e).references = e.references.filter (· ≠ target) := by
  rw [references_subst, hvalue]
  induction e.references with
  | nil => rfl
  | cons n refs ih =>
      by_cases hn : n = target
      · simp [hn, ih]
      · simp [hn, ih]

/-- Replacing stops if and only if some reference has the text of the target and another
identity. -/
theorem replace_eq_error_iff (e : Expr) {stop : AmbiguousReference} :
    (e.replace target value).2 = .error stop ↔
      stop = ⟨target.text⟩ ∧ ∃ n ∈ e.references, n.text = target.text ∧ n ≠ target := by
  by_cases hclear : Clear target e.references
  · rw [replace_of_clear hclear]
    constructor
    · intro h
      cases h
    · rintro ⟨-, n, hn, htext, hne⟩
      exact absurd (hclear n hn htext) hne
  · obtain ⟨e', he'⟩ := replace_of_not_clear hclear value
    rw [he']
    constructor
    · rintro ⟨⟩
      refine ⟨rfl, ?_⟩
      simpa [Clear] using hclear
    · rintro ⟨rfl, -⟩
      rfl

/-- Replacing that does not stop replaces all references to the target, and counts them. -/
theorem replace_eq_ok {e e' : Expr} {count : Nat} (h : e.replace target value = (e', .ok count)) :
    e' = subst target value e ∧ count = e.references.count target := by
  by_cases hclear : Clear target e.references
  · rw [replace_of_clear hclear] at h
    cases h
    exact ⟨rfl, rfl⟩
  · obtain ⟨e₁, he₁⟩ := replace_of_not_clear hclear value
    rw [he₁] at h
    cases h

/-- Replacing references is exact.  It fails, and reports the text of the target, if and only if
some reference has this text and is not the target.  Otherwise it counts the references to the
target and substitutes the value for them and for nothing else.  Then the dependencies are those of
the expression, one by one, where the references to the target are expanded to the dependencies of
the value and overrides stay.  If the value has no references, none to the target is left, and none
at all if there were no others. -/
theorem replacement_exact (e : Expr) (target : Name) (value : Expr) :
    (∀ stop, (e.replace target value).2 = .error stop ↔
      stop = ⟨target.text⟩ ∧ ∃ n ∈ e.references, n.text = target.text ∧ n ≠ target) ∧
    e.dependencies = e.occurrences.map Occurrence.name ∧
    (e.occurrences.filterMap Occurrence.reference?).Perm e.references ∧
    ∀ e' count, e.replace target value = (e', .ok count) →
      count = e.references.count target ∧ e' = subst target value e ∧
      e'.dependencies = e.occurrences.flatMap (Occurrence.expand target value.dependencies) ∧
      (value.references = [] →
        target ∉ e'.references ∧
        (e'.hasReferences = false ↔ ∀ n ∈ e.references, n = target)) := by
  refine ⟨fun stop => replace_eq_error_iff e, dependencies_eq_map e, references_perm e, ?_⟩
  intro e' count h
  obtain ⟨rfl, rfl⟩ := replace_eq_ok h
  refine ⟨rfl, rfl, dependencies_subst e, ?_⟩
  intro hvalue
  rw [hasReferences_eq_false, references_subst_of_closed hvalue e]
  constructor
  · simp
  · simp [List.filter_eq_nil_iff]

/-- A block that overrides `fee` and refers to it both in the value of the override and inside. -/
def quote : Expr :=
  .contextual (.all [.ref ⟨"fee", 1⟩, .ref ⟨"member", 2⟩])
    [(⟨"fee", 1⟩, .op .add (.ref ⟨"fee", 1⟩) (.ref ⟨"fee", 1⟩))]

/-- A value that has no references, and depends on the name that its block overrides. -/
def quote.flat : Expr := .contextual (.const { value := .bool true }) [(⟨"zone", 3⟩, .const {})]

/-- All three references to `fee` are replaced, its override stays, and `zone` stands in the
dependencies once for each reference. -/
theorem replacement_exact_quote :
    (quote.replace ⟨"fee", 1⟩ quote.flat).2 = .ok 3 ∧
    quote.dependencies =
      [⟨"fee", 1⟩, ⟨"fee", 1⟩, ⟨"fee", 1⟩, ⟨"fee", 1⟩, ⟨"member", 2⟩] ∧
    (quote.replace ⟨"fee", 1⟩ quote.flat).1.dependencies =
      [⟨"fee", 1⟩, ⟨"zone", 3⟩, ⟨"zone", 3⟩, ⟨"zone", 3⟩, ⟨"member", 2⟩] ∧
    ⟨"fee", 1⟩ ∉ (quote.replace ⟨"fee", 1⟩ quote.flat).1.references ∧
    (quote.replace ⟨"fee", 1⟩ quote.flat).1.hasReferences = true := by
  obtain ⟨-, hnames, -, hok⟩ := replacement_exact quote ⟨"fee", 1⟩ quote.flat
  have hreplace : quote.replace ⟨"fee", 1⟩ quote.flat =
      ((quote.replace ⟨"fee", 1⟩ quote.flat).1, .ok 3) := rfl
  obtain ⟨-, -, hdeps, hclosed⟩ := hok _ _ hreplace
  obtain ⟨hgone, hleft⟩ := hclosed (by decide)
  refine ⟨rfl, hnames.trans (by decide), hdeps.trans (by decide), hgone, ?_⟩
  rw [← Bool.not_eq_false, hleft]
  decide

end Expr

end RuleGraph
