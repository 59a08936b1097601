import RuleGraph.Proofs.Taint

/-! # What does not depend on the order of enumeration

    The index of a graph and the taint of a pass are computed by going through
    rules, links and waiting names, one after the other.  The results are maps
    and sets, so it should not matter in which order that happens.  This module
    says so for each of these loops:

    * links that are added one by one, in any order and with any repetitions
      (`Links.ofPairs`, `Links.Tidy.ext`), or removed (`Links.detach_comm`);
    * a worklist from which any name may be taken next (`Links.Collects`);
    * the index of a graph (`References.Indexes`), and the references that are
      forgotten with a rule (`References.eraseIn`);
    * the taint of a graph (`Taint.Enumerates`). -/

namespace RuleGraph

namespace Links

variable {l l' : Links} {a b : Name}

/-! ## Adding links -/

/-- Two maps without empty entries are the same if they hold the same links. -/
theorem Tidy.ext (h : l.Tidy) (h' : l'.Tidy)
    (hmem : ∀ a b, b ∈ l.targets a ↔ b ∈ l'.targets a) : l = l' := by
  refine Std.ExtTreeMap.ext_getElem? fun n => ?_
  have hiff : n ∈ l ↔ n ∈ l' := by
    rw [h.mem_iff, h'.mem_iff]
    exact exists_congr (hmem n)
  have htargets : l.targets n = l'.targets n := Std.ExtTreeSet.ext_mem (hmem n)
  rw [Std.ExtTreeMap.mem_iff_isSome_getElem?, Std.ExtTreeMap.mem_iff_isSome_getElem?] at hiff
  rw [targets, targets, Std.ExtTreeMap.getD_eq_getD_getElem?,
    Std.ExtTreeMap.getD_eq_getD_getElem?] at htargets
  cases hl : l[n]? with
  | none =>
      cases hl' : l'[n]? with
      | none => rfl
      | some ts => simp [hl, hl'] at hiff
  | some ts =>
      cases hl' : l'[n]? with
      | none => simp [hl, hl'] at hiff
      | some ts' =>
          rw [hl, hl'] at htargets
          exact congrArg some htargets

/-- The links of a list of pairs, added one by one. -/
def ofPairs (pairs : List (Name × Name)) : Links := pairs.foldl (fun l e => l.attach e.1 e.2) ∅

/-- A list of pairs gives the links that it lists, and no others. -/
theorem mem_targets_ofPairs {pairs : List (Name × Name)} :
    b ∈ (ofPairs pairs).targets a ↔ (a, b) ∈ pairs := by
  have hfold : ∀ (pairs : List (Name × Name)) (l : Links),
      b ∈ (pairs.foldl (fun l e => l.attach e.1 e.2) l).targets a ↔
        (a, b) ∈ pairs ∨ b ∈ l.targets a := by
    intro pairs
    induction pairs with
    | nil => simp
    | cons e pairs ih =>
        intro l
        obtain ⟨s, t⟩ := e
        rw [List.foldl_cons, ih, mem_targets_attach, List.mem_cons, Prod.mk.injEq, ← or_assoc,
          or_comm (a := (a, b) ∈ pairs)]
  rw [ofPairs, hfold, or_iff_left not_mem_targets_empty]

theorem tidy_ofPairs (pairs : List (Name × Name)) : (ofPairs pairs).Tidy :=
  tidy_empty.foldl (fun _ e h => h.attach e.1 e.2) pairs

/-! ## Removing links -/

/-- Removing a link leaves the entries of other names alone. -/
theorem getElem?_detach_of_ne {s t n : Name} (h : n ≠ s) : (l.detach s t)[n]? = l[n]? := by
  rw [detach]
  split
  · rfl
  · dsimp only
    split
    · simp [Std.ExtTreeMap.getElem?_erase, Ne.symm h]
    · simp [Std.ExtTreeMap.getElem?_insert, Ne.symm h]

/-- What removing a link leaves of an entry depends on that entry alone. -/
theorem getElem?_detach_self (s t : Name) :
    (l.detach s t)[s]? =
      l[s]?.bind fun ts => if (ts.erase t).isEmpty then none else some (ts.erase t) := by
  rw [detach]
  split
  · rename_i hs
    rw [hs]
    rfl
  · rename_i ts hs
    rw [hs, Option.bind_some]
    dsimp only
    split
    · exact Std.ExtTreeMap.getElem?_erase_self
    · exact Std.ExtTreeMap.getElem?_insert_self

/-- Two links to the same target can be removed in either order. -/
theorem detach_comm (l : Links) (a b t : Name) :
    (l.detach a t).detach b t = (l.detach b t).detach a t := by
  by_cases hab : a = b
  · rw [hab]
  refine Std.ExtTreeMap.ext_getElem? fun n => ?_
  by_cases hb : n = b
  · subst hb
    rw [getElem?_detach_self, getElem?_detach_of_ne (Ne.symm hab),
      getElem?_detach_of_ne (Ne.symm hab), getElem?_detach_self]
  · rw [getElem?_detach_of_ne hb]
    by_cases ha : n = a
    · subst ha
      rw [getElem?_detach_self, getElem?_detach_self, getElem?_detach_of_ne hab]
    · rw [getElem?_detach_of_ne ha, getElem?_detach_of_ne ha, getElem?_detach_of_ne hb]

/-! ## Following links -/

/-- A worklist comes to an end with the names that it has seen.  Which of the waiting names is taken
next, and in which order its links are added to them, is left open. -/
inductive Collects (l : Links) : List Name → NameSet → NameSet → Prop where
  | done {seen : NameSet} : Collects l [] seen seen
  | skip {n : Name} {waiting rest : List Name} {seen out : NameSet} :
      waiting.Perm (n :: rest) → n ∈ seen → Collects l rest seen out →
      Collects l waiting seen out
  | visit {n : Name} {waiting rest next : List Name} {seen out : NameSet} :
      waiting.Perm (n :: rest) → n ∉ seen → next.Perm ((l.targets n).toList ++ rest) →
      Collects l next (seen.insert n) out → Collects l waiting seen out

/-- A name that was seen leads to names seen, or to where waiting names lead. -/
theorem Leads.of_seen {waiting : List Name} {seen : NameSet}
    (hseen : ∀ a ∈ seen, ∀ b ∈ l.targets a, b ∈ seen ∨ b ∈ waiting) {n : Name} (hab : l.Leads a n)
    (ha : a ∈ seen) : n ∈ seen ∨ ∃ w ∈ waiting, l.Leads w n := by
  induction hab using Relation.ReflTransGen.head_induction_on with
  | refl => exact Or.inl ha
  | @head a b hstep hbn ih =>
      rcases hseen a ha b hstep with hb | hb
      · exact ih hb
      · exact Or.inr ⟨b, hb, hbn⟩

/-- If links lead from the names seen only to names seen or waiting, then the worklist ends with what
was seen and all that the waiting names lead to. -/
theorem Collects.mem_iff {waiting : List Name} {seen out : NameSet}
    (h : l.Collects waiting seen out)
    (hseen : ∀ a ∈ seen, ∀ b ∈ l.targets a, b ∈ seen ∨ b ∈ waiting) {n : Name} :
    n ∈ out ↔ n ∈ seen ∨ ∃ w ∈ waiting, l.Leads w n := by
  induction h with
  | done => simp
  | @skip m waiting rest seen out hperm hm _ ih =>
      simp only [hperm.mem_iff, List.mem_cons] at hseen ⊢
      -- the name that is skipped was seen, so nothing is lost with it
      have hrest : ∀ a ∈ seen, ∀ b ∈ l.targets a, b ∈ seen ∨ b ∈ rest := by
        intro a ha b hb
        rcases hseen a ha b hb with hb | rfl | hb
        · exact Or.inl hb
        · exact Or.inl hm
        · exact Or.inr hb
      rw [ih hrest]
      constructor
      · rintro (hn | ⟨w, hw, hwn⟩)
        · exact Or.inl hn
        · exact Or.inr ⟨w, Or.inr hw, hwn⟩
      · rintro (hn | ⟨w, rfl | hw, hwn⟩)
        · exact Or.inl hn
        · exact hwn.of_seen hrest hm
        · exact Or.inr ⟨w, hw, hwn⟩
  | @visit m waiting rest next seen out hperm _ hnext _ ih =>
      simp only [hperm.mem_iff, List.mem_cons] at hseen ⊢
      have hinsert : ∀ {x}, x ∈ seen.insert m ↔ x = m ∨ x ∈ seen := by
        intro x
        rw [Std.ExtTreeSet.mem_insert, Std.LawfulEqCmp.compare_eq_iff_eq, eq_comm]
      have hmem : ∀ {x}, x ∈ next ↔ x ∈ l.targets m ∨ x ∈ rest := by
        intro x
        rw [hnext.mem_iff, List.mem_append, Std.ExtTreeSet.mem_toList]
      have hclosed : ∀ a ∈ seen.insert m, ∀ b ∈ l.targets a, b ∈ seen.insert m ∨ b ∈ next := by
        intro a ha b hb
        rw [hinsert, hmem]
        rcases hinsert.mp ha with rfl | ha
        · exact Or.inr (Or.inl hb)
        · rcases hseen a ha b hb with hb | hb | hb
          · exact Or.inl (Or.inr hb)
          · exact Or.inl (Or.inl hb)
          · exact Or.inr (Or.inr hb)
      rw [ih hclosed]
      simp only [hinsert, hmem]
      constructor
      · rintro ((rfl | hn) | ⟨w, hw | hw, hwn⟩)
        · exact Or.inr ⟨n, Or.inl rfl, Relation.ReflTransGen.refl⟩
        · exact Or.inl hn
        · exact Or.inr ⟨m, Or.inl rfl, Relation.ReflTransGen.head hw hwn⟩
        · exact Or.inr ⟨w, Or.inr hw, hwn⟩
      · rintro (hn | ⟨w, rfl | hw, hwn⟩)
        · exact Or.inl (Or.inr hn)
        · rcases hwn.cases_head with rfl | ⟨b, hb, hbn⟩
          · exact Or.inl (Or.inl rfl)
          · exact Or.inr ⟨b, Or.inl hb, hbn⟩
        · exact Or.inr ⟨w, Or.inr hw, hwn⟩

/-- Whatever the order, a worklist collects the closure of its sources. -/
theorem Collects.eq_closure {sources sources' : List Name} {out : NameSet}
    (h : l.Collects sources ∅ out) (hsources : ∀ n, n ∈ sources ↔ n ∈ sources') :
    out = l.closure sources' := by
  refine Std.ExtTreeSet.ext_mem fun n => ?_
  rw [h.mem_iff fun a ha => absurd ha Std.ExtTreeSet.not_mem_empty, mem_closure,
    or_iff_right Std.ExtTreeSet.not_mem_empty]
  simp only [hsources]

end Links

/-! ## The index -/

namespace References

variable {refs refs' : References} {g : Graph}

/-- The parents of a sound index are determined by its children. -/
theorem Sound.ext (h : refs.Sound) (h' : refs'.Sound) (hchildren : refs.children = refs'.children) :
    refs = refs' := by
  have hparents : refs.parents = refs'.parents := by
    refine h.tidy.ext h'.tidy fun c p => ?_
    rw [h.transposed, h'.transposed, hchildren]
  cases refs
  cases refs'
  cases hchildren
  cases hparents
  rfl

/-- The index is made by going through the rules of the graph in some order, and then through the
links that were found. -/
structure Indexes (refs : References) (g : Graph) : Prop where
  children : ∃ rules : List Rule, rules.Perm g.rules ∧
    refs.children = rules.foldl (fun l r => l.insert r.name r.links) ∅
  parents : ∃ pairs : List (Name × Name),
    (∀ p c, (c, p) ∈ pairs ↔ c ∈ refs.children.targets p) ∧ refs.parents = .ofPairs pairs

/-- An index is sound, in whatever order it was made. -/
theorem Indexes.sound (h : refs.Indexes g) : refs.Sound := by
  obtain ⟨-, pairs, hpairs, hparents⟩ := h
  refine ⟨?_, ?_⟩
  · intro p c
    rw [hparents, Links.mem_targets_ofPairs, hpairs]
  · rw [hparents]
    exact Links.tidy_ofPairs pairs

/-- There is only one index of a graph. -/
theorem Indexes.eq_ofGraph (h : refs.Indexes g) : refs = ofGraph g := by
  refine h.sound.ext (sound_ofGraph g) ?_
  obtain ⟨⟨rules, hperm, hchildren⟩, -⟩ := h
  rw [hchildren]
  refine hperm.foldl_eq' ?_ ∅
  -- two rules of one name are the same rule, and entries for different names do not meet
  intro r hr t ht l
  by_cases hname : r.name = t.name
  · have hrt : g.get? r.name = g.get? t.name := congrArg g.get? hname
    rw [Graph.get?_name_of_mem (hperm.mem_iff.mp hr), Graph.get?_name_of_mem (hperm.mem_iff.mp ht)]
      at hrt
    cases hrt
    rfl
  · refine Std.ExtTreeMap.ext_getElem? fun n => ?_
    simp only [Std.ExtTreeMap.getElem?_insert, Std.LawfulEqCmp.compare_eq_iff_eq]
    by_cases hr : r.name = n
    · have ht : t.name ≠ n := fun ht => hname (hr.trans ht.symm)
      simp only [if_neg ht, if_pos hr]
    · simp only [if_neg hr]

theorem indexes_ofGraph (g : Graph) : (ofGraph g).Indexes g where
  children := ⟨g.rules, .refl _, rfl⟩
  parents := by
    let pairs := (ofGraph g).children.toList.flatMap fun e => e.2.toList.map fun c => (c, e.1)
    have hpairs : ∀ p c, (c, p) ∈ pairs ↔ c ∈ (ofGraph g).children.targets p := by
      intro p c
      simp only [pairs, Links.mem_targets_iff, List.mem_flatMap, List.mem_map, Prod.mk.injEq,
        Std.ExtTreeSet.mem_toList]
      constructor
      · rintro ⟨⟨p', ts⟩, hts, c', hc, rfl, rfl⟩
        exact ⟨ts, hts, hc⟩
      · rintro ⟨ts, hts, hc⟩
        exact ⟨(p, ts), hts, c, hc, rfl, rfl⟩
    refine ⟨pairs, hpairs, ?_⟩
    refine (sound_ofGraph g).tidy.ext (Links.tidy_ofPairs pairs) fun c p => ?_
    rw [(sound_ofGraph g).transposed, Links.mem_targets_ofPairs, hpairs]

/-- Forget all references that a rule makes, going through its children in the order of a list. -/
def eraseIn (refs : References) (n : Name) (children : List Name) : References where
  children := refs.children.erase n
  parents := children.foldl (fun parents child => parents.detach child n) refs.parents

/-- The references of a rule can be forgotten in any order. -/
theorem eraseIn_eq_erase {n : Name} {children : List Name}
    (h : children.Perm (refs.childrenOf n)) : refs.eraseIn n children = refs.erase n := by
  have hparents : children.foldl (fun parents child => parents.detach child n) refs.parents =
      (refs.childrenOf n).foldl (fun parents child => parents.detach child n) refs.parents :=
    h.foldl_eq' (fun a _ b _ l => Links.detach_comm l a b n) refs.parents
  rw [eraseIn, hparents]
  rfl

end References

/-! ## The taint -/

namespace Taint

variable {t : Taint} {g : Graph} {refs : References} {unfoldable : NameSet}
  {accessible : Name → Bool}

/-- The taint is computed by going through the overrides, the blocked rules and the rules of the
graph in some order. -/
structure Enumerates (g : Graph) (refs : References) (unfoldable : NameSet)
    (accessible : Name → Bool) (t : Taint) : Prop where
  overriders : ∃ pairs : List (Name × Name),
    (∀ p c, (c, p) ∈ pairs ↔ g.Overrides p c) ∧ t.overriders = .ofPairs pairs
  tainted : ∃ sources : List Name,
    (∀ n, n ∈ sources ↔ n ∈ unfoldable ∨ n ∈ t.overriders) ∧
      refs.parents.Collects sources ∅ t.tainted
  inaccessible : ∃ names : List Name,
    (∀ n, n ∈ names ↔ n ∈ g.names) ∧ t.inaccessible = .ofList (names.filter fun n => !accessible n)

/-- There is only one taint of a graph. -/
theorem Enumerates.eq_ofGraph (h : Enumerates g refs unfoldable accessible t) :
    t = ofGraph g refs unfoldable accessible := by
  obtain ⟨⟨pairs, hpairs, hoverriders⟩, ⟨sources, hsources, htainted⟩, ⟨names, hnames,
    hinaccessible⟩⟩ := h
  have heq : t.overriders = overridersIn g := by
    rw [hoverriders]
    refine (Links.tidy_ofPairs pairs).ext (tidy_overridersIn g) fun c p => ?_
    rw [Links.mem_targets_ofPairs, hpairs, mem_targets_overridersIn]
  rw [heq] at hsources
  have htainted : t.tainted = refs.parents.closure (unfoldable.toList ++ (overridersIn g).keys) := by
    refine htainted.eq_closure fun n => ?_
    rw [hsources, List.mem_append, Std.ExtTreeSet.mem_toList, Std.ExtTreeMap.mem_keys]
  have hinaccessible : t.inaccessible = .ofList (g.names.filter fun n => !accessible n) := by
    rw [hinaccessible]
    refine Std.ExtTreeSet.ext_mem fun n => ?_
    simp [hnames]
  cases t
  cases heq
  cases htainted
  cases hinaccessible
  rfl

end Taint

end RuleGraph
