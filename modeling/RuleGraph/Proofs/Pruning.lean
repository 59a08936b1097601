import RuleGraph.Proofs.Enumeration
import RuleGraph.Proofs.Faithful

/-! # Pruning in any order

    After a rule was folded, its children are unlinked one after the other,
    sorted by text, and deleted where nothing else needs them.  At most one of
    several children of the same text is in the graph, and the others are only
    unlinked.  So the order among namesakes could matter in one way: a link that
    is still there may lead the one in the graph to a blocked namesake.

    `foldl_pruneChild_eq` says that it does not matter, as long as none of two
    namesakes is unfoldable or overridden: such a name blocks nothing
    (`reachesBlocking_unlink`), hence unlinking it may be put off or brought
    forward (`pruneChild_unlink`). -/

namespace RuleGraph

/-! ## Lists of names sorted by text -/

namespace Name

/-- The names are sorted by their texts; names of one text may come in any order. -/
def Sorted (ns : List Name) : Prop := ns.Pairwise fun a b => a.text ≤ b.text

theorem text_le_of_compare_eq_lt {a b : Name} (h : compare a b = .lt) : a.text ≤ b.text := by
  refine String.not_lt.mp fun hlt => ?_
  have hgt : compare a.text b.text = .gt := by
    show compareOfLessAndEq a.text b.text = .gt
    rw [compareOfLessAndEq, if_neg (String.lt_asymm hlt), if_neg fun heq => String.ne_of_lt hlt heq.symm]
  change (compare a.text b.text).then (compare a.id b.id) = .lt at h
  rw [hgt] at h
  cases h

/-- A set of names lists them sorted by text. -/
theorem sorted_toList (s : NameSet) : Sorted s.toList :=
  Std.ExtTreeSet.ordered_toList.imp text_le_of_compare_eq_lt

variable {ns ns' : List Name}

/-- If no two names share a text, there is only one way to sort them. -/
theorem eq_of_sorted (hsorted : Sorted ns) (hsorted' : Sorted ns') (hperm : ns'.Perm ns)
    (htexts : ∀ a ∈ ns, ∀ b ∈ ns, a.text = b.text → a = b) : ns' = ns := by
  refine List.Perm.eq_of_pairwise ?_ hsorted' hsorted hperm
  intro a b ha hb hab hba
  exact htexts a (hperm.mem_iff.mp ha) b hb (String.le_antisymm hab hba)

variable {α : Type} {step : α → Name → α} {P : α → Prop}

/-- A step can be made before those for other names of the same text, if two such steps commute. -/
theorem foldl_step_comm (hP : ∀ x, P x → ∀ c ∈ ns, P (step x c)) {c : Name}
    (hcomm : ∀ x, P x → ∀ a ∈ ns, step (step x a) c = step (step x c) a) {x : α} (hx : P x) :
    step (ns.foldl step x) c = ns.foldl step (step x c) := by
  induction ns generalizing x with
  | nil => rfl
  | cons a ns ih =>
      rw [List.foldl_cons, List.foldl_cons, ← hcomm x hx a (List.mem_cons_self ..)]
      refine ih ?_ ?_ (hP x hx a (List.mem_cons_self ..))
      · exact fun y hy d hd => hP y hy d (List.mem_cons_of_mem a hd)
      · exact fun y hy d hd => hcomm y hy d (List.mem_cons_of_mem a hd)

/-- A loop over names sorted by text does not depend on the order of namesakes, if steps for
namesakes commute in all states that it can come to. -/
theorem foldl_eq_of_sorted {all : List Name} (hP : ∀ x, P x → ∀ c ∈ all, P (step x c))
    (hcomm : ∀ x, P x → ∀ a ∈ all, ∀ b ∈ all, a.text = b.text →
      step (step x a) b = step (step x b) a)
    (hall : ∀ c ∈ ns, c ∈ all) (hsorted : Sorted ns) (hsorted' : Sorted ns')
    (hperm : ns'.Perm ns) {x : α} (hx : P x) : ns'.foldl step x = ns.foldl step x := by
  induction ns generalizing ns' x with
  | nil => rw [hperm.eq_nil]
  | cons c ns ih =>
      obtain ⟨before, after, rfl⟩ := List.append_of_mem (hperm.mem_iff.mpr (List.mem_cons_self ..))
      have hrest : (before ++ after).Perm ns := (List.perm_middle.symm.trans hperm).cons_inv
      obtain ⟨hfirst, hsorted⟩ := List.pairwise_cons.mp hsorted
      obtain ⟨hbefore, hafter, hcross⟩ := List.pairwise_append.mp hsorted'
      -- the names before the smallest one have its text
      have htext : ∀ a ∈ before, a ∈ all ∧ a.text = c.text := by
        intro a ha
        have hmem : a ∈ ns := hrest.mem_iff.mp (List.mem_append_left after ha)
        exact ⟨hall a (List.mem_cons_of_mem c hmem),
          String.le_antisymm (hcross a ha c (List.mem_cons_self ..)) (hfirst a hmem)⟩
      have hc : c ∈ all := hall c (List.mem_cons_self ..)
      have hfront : step (before.foldl step x) c = before.foldl step (step x c) := by
        refine foldl_step_comm (fun y hy a ha => hP y hy a (htext a ha).1) ?_ hx
        exact fun y hy a ha => hcomm y hy a (htext a ha).1 c hc (htext a ha).2
      have hsorted' : Sorted (before ++ after) :=
        List.Pairwise.sublist (List.Sublist.append_left (List.sublist_cons_self c after) before)
          hsorted'
      rw [List.foldl_append, List.foldl_cons, hfront, ← List.foldl_append, List.foldl_cons]
      exact ih (fun d hd => hall d (List.mem_cons_of_mem c hd)) hsorted hsorted' hrest (hP x hx c hc)

end Name

/-! ## Unlinking and erasing commute -/

namespace References

variable {refs : References} {n a b : Name}

/-- Two links of one rule can be dropped in either order. -/
theorem unlink_comm (h : refs.Sound) (n a b : Name) :
    (refs.unlink n a).unlink n b = (refs.unlink n b).unlink n a := by
  refine ((h.unlink n a).unlink n b).ext ((h.unlink n b).unlink n a) ?_
  have hcomm : ∀ ts : NameSet, (ts.erase a).erase b = (ts.erase b).erase a := by
    intro ts
    refine Std.ExtTreeSet.ext_mem fun c => ?_
    simp only [Std.ExtTreeSet.mem_erase]
    exact and_left_comm
  refine Std.ExtTreeMap.ext_getElem? fun k => ?_
  show ((refs.children.modify n (·.erase a)).modify n (·.erase b))[k]? =
    ((refs.children.modify n (·.erase b)).modify n (·.erase a))[k]?
  simp only [Std.ExtTreeMap.getElem?_modify, Std.LawfulEqCmp.compare_eq_iff_eq, if_true,
    Option.map_map, Function.comp_def, hcomm]
  by_cases hk : n = k
  · simp only [if_pos hk]
  · simp only [if_neg hk]

/-- Dropping a link of a rule and forgetting another rule can be done in either order. -/
theorem erase_unlink (h : refs.Sound) (hne : a ≠ n) (b : Name) :
    (refs.unlink n b).erase a = (refs.erase a).unlink n b := by
  refine ((h.unlink n b).erase a).ext ((h.erase a).unlink n b) ?_
  refine Std.ExtTreeMap.ext_getElem? fun k => ?_
  show ((refs.children.modify n (·.erase b)).erase a)[k]? =
    ((refs.children.erase a).modify n (·.erase b))[k]?
  simp only [Std.ExtTreeMap.getElem?_modify, Std.ExtTreeMap.getElem?_erase,
    Std.LawfulEqCmp.compare_eq_iff_eq, if_neg hne]
  by_cases hk : n = k
  · have ha : a ≠ k := hk ▸ hne
    simp only [if_pos hk, if_neg ha]
  · simp only [if_neg hk]

end References

namespace Folding

variable {σ : Type} {opts : Options} {f : Folding σ} {n a b root : Name}

theorem unlink_comm (h : f.refs.Sound) (n a b : Name) :
    (f.unlink n a).unlink n b = (f.unlink n b).unlink n a := by
  show { f with refs := (f.refs.unlink n a).unlink n b } =
    { f with refs := (f.refs.unlink n b).unlink n a }
  rw [References.unlink_comm h]

/-- Dropping a link of a rule and taking out another rule can be done in either order. -/
theorem drop_unlink (h : f.refs.Sound) (hne : a ≠ n) (b : Name) :
    (f.unlink n b).drop a = (f.drop a).unlink n b := by
  show emit { f with graph := f.graph.erase a, refs := (f.refs.unlink n b).erase a } (.deleted a) =
    emit { f with graph := f.graph.erase a, refs := (f.refs.erase a).unlink n b } (.deleted a)
  rw [References.erase_unlink h hne]

/-! ## Names that block nothing -/

/-- A path to another name does not lead through one that has no links. -/
theorem leads_unlink {c : Name} (hchildless : ∀ c, c ∉ f.refs.children.targets b)
    (h : f.refs.children.Leads root c) (hc : c ≠ b) :
    (f.unlink n b).refs.children.Leads root c := by
  induction h with
  | refl => exact Relation.ReflTransGen.refl
  | @tail d c _ hdc ih =>
      have hd : d ≠ b := by
        rintro rfl
        exact hchildless c hdc
      refine Relation.ReflTransGen.tail (ih hd) ?_
      exact References.mem_children_unlink.mpr ⟨hdc, fun heq => hc heq.2⟩

/-- Whether a rule depends on a blocked one does not change when a name is unlinked that is not
blocked itself and has no links. -/
theorem reachesBlocking_unlink (hchildless : ∀ c, c ∉ f.refs.children.targets b)
    (hfree : f.blocks root b = false) :
    (f.unlink n b).reachesBlocking root = f.reachesBlocking root := by
  rw [Bool.eq_iff_iff, reachesBlocking_iff, reachesBlocking_iff]
  constructor
  · rintro ⟨c, hleads, hblocks⟩
    exact ⟨c, hleads.mono fun _ _ hd => (References.mem_children_unlink.mp hd).1, hblocks⟩
  · rintro ⟨c, hleads, hblocks⟩
    have hc : c ≠ b := by
      rintro rfl
      rw [hfree] at hblocks
      cases hblocks
    exact ⟨c, leads_unlink hchildless hleads hc, hblocks⟩

/-- So it may be deleted after that if and only if it could be before. -/
theorem delete?_unlink (h : f.refs.Sound) (hne : a ≠ n) (hab : a ≠ b)
    (hchildless : ∀ c, c ∉ f.refs.children.targets b) (hfree : f.blocks a b = false) :
    (f.unlink n b).delete? opts a = (f.delete? opts a).map fun f' => f'.unlink n b := by
  have hparents : (f.unlink n b).refs.hasParents a = f.refs.hasParents a := by
    show (f.refs.unlink n b).hasParents a = _
    rw [Bool.eq_iff_iff, (h.unlink n b).hasParents_iff, h.hasParents_iff]
    refine exists_congr fun p => ?_
    rw [References.mem_children_unlink, and_iff_left fun heq => hab heq.2]
  have hfoldable : (f.unlink n b).isFoldable opts a = f.isFoldable opts a := by
    rw [Bool.eq_iff_iff, isFoldable_iff, isFoldable_iff, reachesBlocking_unlink hchildless hfree]
    rfl
  have hdeletable : (f.unlink n b).isDeletable opts a = f.isDeletable opts a := by
    rw [isDeletable, isDeletable, hparents, hfoldable]
    rfl
  rw [delete?, delete?, hdeletable]
  split
  · rw [drop_unlink h hne, Option.map_some]
  · rfl

/-! ## Pruning children of one text -/

/-- Of a child that is no rule, pruning only drops the link. -/
theorem pruneChild_of_get?_eq_none (h : f.graph.get? b = none) :
    f.pruneChild opts n b = f.unlink n b := by
  have hfoldable : (f.unlink n b).isFoldable opts b = false := by
    refine Bool.eq_false_iff.mpr fun htrue => ?_
    obtain ⟨r, hr, -⟩ := isFoldable_iff.mp htrue
    change f.graph.get? b = some r at hr
    rw [h] at hr
    cases hr
  rw [pruneChild, delete?, isDeletable, hfoldable, Bool.and_false]
  rfl

theorem get?_pruneChild_eq_none (h : f.graph.get? b = none) :
    (f.pruneChild opts n a).graph.get? b = none := by
  rcases pruneChild_eq opts f n a with heq | heq
  · rw [heq]
    exact h
  · rw [heq]
    refine Option.eq_none_iff_forall_ne_some.mpr fun r hr => ?_
    have hget : f.graph.get? b = some r := (Graph.get?_erase_eq_some.mp hr).2
    rw [h] at hget
    cases hget

/-- Unlinking a name that blocks nothing may be put off until another child was pruned. -/
theorem pruneChild_unlink (h : f.refs.Sound) (hne : a ≠ n) (hab : a ≠ b)
    (hchildless : ∀ c, c ∉ f.refs.children.targets b) (hfree : f.blocks a b = false) :
    (f.unlink n b).pruneChild opts n a = (f.pruneChild opts n a).unlink n b := by
  have hchildless' : ∀ c, c ∉ (f.unlink n a).refs.children.targets b :=
    fun c hc => hchildless c (References.mem_children_unlink.mp hc).1
  rw [pruneChild, pruneChild, unlink_comm h,
    delete?_unlink (f := f.unlink n a) (h.unlink n a) hne hab hchildless' hfree]
  cases (f.unlink n a).delete? opts a with
  | none => rfl
  | some f' => rfl

/-- A folded rule and the children that it had, while they are pruned.  The index is behind for the
rule itself only, and of two children of one text neither is blocked. -/
structure Prunable (n : Name) (children : List Name) (f : Folding σ) : Prop where
  tracks : f.refs.Tracks f.graph (some n)
  unlinked : ∀ c, ¬f.graph.HasLink n c
  ne : ∀ c ∈ children, c ≠ n
  free : ∀ a ∈ children, ∀ b ∈ children, a.text = b.text → a ≠ b → ∀ root, f.blocks root b = false

namespace Prunable

variable {children : List Name} {c : Name}

/-- Children are as prunable as before once one of them was pruned. -/
theorem pruneChild (h : Prunable n children f) (c : Name) :
    Prunable n children (f.pruneChild opts n c) := by
  have htracks : (f.unlink n c).refs.Tracks f.graph (some n) := h.tracks.unlink (h.unlinked c)
  rcases pruneChild_eq opts f n c with heq | heq
  · rw [heq]
    exact ⟨htracks, h.unlinked, h.ne, h.free⟩
  · rw [heq]
    refine ⟨htracks.erase c, ?_, h.ne, h.free⟩
    exact fun d hd => h.unlinked d (Graph.hasLink_erase.mp hd).2

/-- A child that is not in the graph has no links in the index. -/
theorem not_mem_children (h : Prunable n children f) (hb : b ∈ children)
    (hnone : f.graph.get? b = none) (c : Name) : c ∉ f.refs.children.targets b := by
  intro hc
  obtain ⟨r, hr, -⟩ := h.tracks.exact hc fun heq => h.ne b hb (Option.some.inj heq).symm
  rw [hnone] at hr
  cases hr

/-- Of two children of one text, the second is not in the graph: it may come first as well. -/
theorem comm_of_get?_eq_none (h : Prunable n children f) (ha : a ∈ children) (hb : b ∈ children)
    (htext : a.text = b.text) (hab : a ≠ b) (hnone : f.graph.get? b = none) :
    (f.pruneChild opts n a).pruneChild opts n b = (f.pruneChild opts n b).pruneChild opts n a := by
  rw [pruneChild_of_get?_eq_none hnone, pruneChild_of_get?_eq_none (get?_pruneChild_eq_none hnone),
    pruneChild_unlink h.tracks.sound (h.ne a ha) hab (h.not_mem_children hb hnone)
      (h.free a ha b hb htext hab a)]

/-- Two children of one text may be pruned in either order. -/
theorem comm (h : Prunable n children f) (ha : a ∈ children) (hb : b ∈ children)
    (htext : a.text = b.text) :
    (f.pruneChild opts n a).pruneChild opts n b = (f.pruneChild opts n b).pruneChild opts n a := by
  by_cases hab : a = b
  · rw [hab]
  cases hb' : f.graph.get? b with
  | none => exact h.comm_of_get?_eq_none ha hb htext hab hb'
  | some r =>
      cases ha' : f.graph.get? a with
      | none => exact (h.comm_of_get?_eq_none hb ha htext.symm (Ne.symm hab) ha').symm
      | some t =>
          -- the graph has one rule of a text at most
          exact absurd (Graph.eq_of_text_eq (Graph.mem_names_of_get? ha')
            (Graph.mem_names_of_get? hb') htext) hab

end Prunable

/-- The children of a folded rule may be pruned in any order that is sorted by text. -/
theorem foldl_pruneChild_eq {children : List Name} (h : Prunable n (f.refs.childrenOf n) f)
    (hsorted : Name.Sorted children) (hperm : children.Perm (f.refs.childrenOf n)) :
    children.foldl (pruneChild opts n) f = (f.refs.childrenOf n).foldl (pruneChild opts n) f :=
  Name.foldl_eq_of_sorted (P := Prunable n (f.refs.childrenOf n))
    (fun _ hx c _ => hx.pruneChild c) (fun _ hx _ ha _ hb => hx.comm ha hb) (fun _ hc => hc)
    (Name.sorted_toList _) hsorted hperm h

end Folding

end RuleGraph
