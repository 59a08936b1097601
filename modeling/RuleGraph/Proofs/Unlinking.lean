import Mathlib.Data.List.Induction
import RuleGraph.Proofs.ReferenceIndex

/-! # The index under any changes

    Whoever holds an index may drop links and remove rules in any order, also
    links that do not exist and names that no rule has.  Both directions stay
    in step all the same.  What the index must hold is said without its maps:
    the references of the graph, as long as no change has dropped them
    (`Graph.LinkLeft`).

    The two directions are not alike.  A rule keeps its entry among the
    children when its last link goes, but a name must lose its entry among the
    parents, since that entry alone tells that the name is still referred to.
    `References.Holds` therefore carries `Sound` along with the links that are
    left.  Each change preserves it (`Holds.change`), hence every run of
    changes does (`holds_changeAll`), and a run goes through exactly if no
    removal in it finds a link left (`exists_changeAll_iff`). -/

namespace RuleGraph

namespace References

/-- A change of an index. -/
inductive Change where
  | unlink (parent child : Name)
  | remove (n : Name)
deriving DecidableEq, Repr

/-- Make a change; a rule can only be removed if it has no parents. -/
def change (refs : References) : Change → Except Error References
  | .unlink parent child => .ok (refs.unlink parent child)
  | .remove n => refs.remove n

/-- Make changes one after the other, up to the first that fails. -/
def changeAll (refs : References) (changes : List Change) : Except Error References :=
  changes.foldlM change refs

end References

open References (Change)

/-- A reference of the graph, to another name that is not internal, which no change has dropped:
it was not unlinked, and the rule that makes it was not removed. -/
structure Graph.LinkLeft (g : Graph) (changes : List Change) (p c : Name) : Prop where
  refers : ∃ r, g.get? p = some r ∧ c ∈ r.dependencies
  ne : c ≠ p
  external : c.isInternal = false
  not_unlinked : .unlink p c ∉ changes
  not_removed : .remove p ∉ changes

/-- One more change leaves the links that it neither unlinks nor removes along with their rule. -/
theorem Graph.linkLeft_concat {g : Graph} {changes : List Change} {x : Change} {p c : Name} :
    g.LinkLeft (changes ++ [x]) p c ↔
      g.LinkLeft changes p c ∧ x ≠ .unlink p c ∧ x ≠ .remove p := by
  constructor
  · rintro ⟨hrefers, hne, hexternal, hunlinked, hremoved⟩
    rw [List.mem_append, List.mem_singleton, not_or] at hunlinked hremoved
    exact ⟨⟨hrefers, hne, hexternal, hunlinked.1, hremoved.1⟩, Ne.symm hunlinked.2,
      Ne.symm hremoved.2⟩
  · rintro ⟨⟨hrefers, hne, hexternal, hunlinked, hremoved⟩, hxunlinked, hxremoved⟩
    refine ⟨hrefers, hne, hexternal, ?_, ?_⟩
    · rw [List.mem_append, List.mem_singleton, not_or]
      exact ⟨hunlinked, Ne.symm hxunlinked⟩
    · rw [List.mem_append, List.mem_singleton, not_or]
      exact ⟨hremoved, Ne.symm hxremoved⟩

namespace References

variable {refs refs' : References} {g : Graph} {changes : List Change} {x : Change} {n : Name}

/-- The index holds the links that the changes have left, in both directions. -/
structure Holds (refs : References) (g : Graph) (changes : List Change) : Prop where
  sound : refs.Sound
  children : ∀ p c, c ∈ refs.children.targets p ↔ g.LinkLeft changes p c

/-- A new index holds all links of its graph. -/
theorem holds_ofGraph (g : Graph) : (ofGraph g).Holds g [] where
  sound := sound_ofGraph g
  children p c := by
    rw [mem_children_ofGraph]
    constructor
    · rintro ⟨r, hr, hc⟩
      obtain ⟨hc, hne, hexternal⟩ := Rule.mem_links.mp hc
      rw [Graph.name_of_get? hr] at hne
      exact ⟨⟨r, hr, hc⟩, hne, hexternal, List.not_mem_nil, List.not_mem_nil⟩
    · rintro ⟨⟨r, hr, hc⟩, hne, hexternal, -, -⟩
      rw [← Graph.name_of_get? hr] at hne
      exact ⟨r, hr, Rule.mem_links.mpr ⟨hc, hne, hexternal⟩⟩

/-! ## One change -/

/-- Once a link was dropped, the index holds what this leaves. -/
theorem Holds.unlink (h : refs.Holds g changes) (parent child : Name) :
    (refs.unlink parent child).Holds g (changes ++ [.unlink parent child]) where
  sound := h.sound.unlink parent child
  children p c := by
    rw [mem_children_unlink, h.children, Graph.linkLeft_concat]
    simp [eq_comm]

/-- Once a rule was forgotten, the index holds what this leaves. -/
theorem Holds.erase (h : refs.Holds g changes) (n : Name) :
    (refs.erase n).Holds g (changes ++ [.remove n]) where
  sound := h.sound.erase n
  children p c := by
    rw [mem_children_erase, h.children, Graph.linkLeft_concat, and_comm]
    simp [eq_comm]

/-- A name has parents as long as a link to it is left. -/
theorem Holds.hasParents_iff (h : refs.Holds g changes) :
    refs.hasParents n = true ↔ ∃ p, g.LinkLeft changes p n := by
  rw [h.sound.hasParents_iff]
  exact exists_congr fun p => h.children p n

/-- A rule can be removed if and only if it has no parents, and then it is forgotten. -/
theorem remove_eq_ok_iff :
    refs.remove n = .ok refs' ↔ refs.hasParents n = false ∧ refs.erase n = refs' := by
  rw [remove]
  cases refs.hasParents n with
  | true => simp
  | false => simp

/-- A removal fails exactly if a link to the rule is left, and then says so. -/
theorem Holds.remove_eq_error_iff (h : refs.Holds g changes) {e : Error} :
    refs.remove n = .error e ↔ e = .stillReferenced n ∧ ∃ p, g.LinkLeft changes p n := by
  rw [← h.hasParents_iff, remove]
  cases refs.hasParents n with
  | true => simp [eq_comm]
  | false => simp

/-- A change that succeeds leaves an index that holds the links left. -/
theorem Holds.change (h : refs.Holds g changes) (hx : refs.change x = .ok refs') :
    refs'.Holds g (changes ++ [x]) := by
  cases x with
  | unlink parent child =>
      cases hx
      exact h.unlink parent child
  | remove n =>
      obtain ⟨-, rfl⟩ := remove_eq_ok_iff.mp hx
      exact h.erase n

/-- A change goes through unless it removes a rule to which a link is left. -/
theorem Holds.exists_change_iff (h : refs.Holds g changes) :
    (∃ refs', refs.change x = .ok refs') ↔ ∀ n, x = .remove n → ¬∃ p, g.LinkLeft changes p n := by
  cases x with
  | unlink parent child => simp [References.change]
  | remove n =>
      constructor
      · rintro ⟨refs', hremove⟩ m heq hleft
        cases heq
        have hparents := h.hasParents_iff.mpr hleft
        rw [(remove_eq_ok_iff.mp hremove).1] at hparents
        cases hparents
      · intro hnone
        have hparents : refs.hasParents n = false := by
          rw [← Bool.not_eq_true, h.hasParents_iff]
          exact hnone n rfl
        exact ⟨_, remove_eq_ok_iff.mpr ⟨hparents, rfl⟩⟩

/-! ## Any number of changes -/

theorem changeAll_concat_eq_ok_iff :
    refs.changeAll (changes ++ [x]) = .ok refs' ↔
      ∃ refs₁, refs.changeAll changes = .ok refs₁ ∧ refs₁.change x = .ok refs' := by
  rw [changeAll, changeAll, List.foldlM_append]
  cases changes.foldlM References.change refs with
  | error e =>
      constructor
      · intro h
        cases h
      · rintro ⟨refs₁, h, -⟩
        cases h
  | ok refs₁ =>
      show [x].foldlM References.change refs₁ = .ok refs' ↔ _
      simp

/-- Changes to a new index that all succeed leave one that holds the links left. -/
theorem holds_changeAll (h : (ofGraph g).changeAll changes = .ok refs) : refs.Holds g changes := by
  induction changes using List.reverseRecOn generalizing refs with
  | nil =>
      cases h
      exact holds_ofGraph g
  | append_singleton changes x ih =>
      obtain ⟨refs₁, hchanges, hx⟩ := changeAll_concat_eq_ok_iff.mp h
      exact (ih hchanges).change hx

/-- The changes go through if, whenever one of them is to remove a rule, the changes before it have
left no link to this rule. -/
theorem exists_changeAll_iff :
    (∃ refs, (ofGraph g).changeAll changes = .ok refs) ↔
      ∀ before n, before ++ [.remove n] <+: changes → ¬∃ p, g.LinkLeft before p n := by
  induction changes using List.reverseRecOn with
  | nil =>
      refine ⟨fun _ before n hbefore => ?_, fun _ => ⟨ofGraph g, rfl⟩⟩
      simp at hbefore
  | append_singleton changes x ih =>
      constructor
      · rintro ⟨refs', h⟩ before n hbefore
        obtain ⟨refs, hchanges, hx⟩ := changeAll_concat_eq_ok_iff.mp h
        rcases List.prefix_concat_iff.mp hbefore with heq | hbefore
        · obtain ⟨rfl, rfl⟩ := List.append_singleton_inj.mp heq
          exact (holds_changeAll hchanges).exists_change_iff.mp ⟨refs', hx⟩ n rfl
        · exact ih.mp ⟨refs, hchanges⟩ before n hbefore
      · intro h
        obtain ⟨refs, hchanges⟩ := ih.mpr fun before n hbefore =>
          h before n (hbefore.trans (List.prefix_append changes [x]))
        have hx : ∀ n, x = .remove n → ¬∃ p, g.LinkLeft changes p n := by
          rintro n rfl
          exact h changes n List.prefix_rfl
        obtain ⟨refs', hx⟩ := (holds_changeAll hchanges).exists_change_iff.mpr hx
        exact ⟨refs', changeAll_concat_eq_ok_iff.mpr ⟨refs, hchanges, hx⟩⟩

/-- Both directions of an index stay in step, whatever links are dropped and whatever rules are
removed.  The changes go through exactly if none of them removes a name to which the changes before
it have left a link, and otherwise a removal fails.  As long as none does, the links in either
direction are the references of the graph that are left, the directions are transposes of each
other, no entry of the parents is empty, and a name has parents if and only if it is a child of
some rule. -/
theorem directions_stay_in_step (g : Graph) (changes : List Change) :
    ((∃ refs, (ofGraph g).changeAll changes = .ok refs) ↔
      ∀ before n, before ++ [.remove n] <+: changes → ¬∃ p, g.LinkLeft before p n) ∧
    ∀ refs, (ofGraph g).changeAll changes = .ok refs →
      (∀ n e, refs.remove n = .error e ↔
        e = .stillReferenced n ∧ ∃ p, g.LinkLeft changes p n) ∧
      (∀ p c, c ∈ refs.childrenOf p ↔ g.LinkLeft changes p c) ∧
      (∀ p c, p ∈ refs.parentsOf c ↔ g.LinkLeft changes p c) ∧
      refs.isTransposed = true ∧
      (∀ (c : Name) (ps : NameSet), refs.parents[c]? = some ps → ps.isEmpty = false) ∧
      ∀ n, refs.hasParents n = true ↔ ∃ p, n ∈ refs.childrenOf p := by
  refine ⟨exists_changeAll_iff, ?_⟩
  intro refs hchanges
  have h : refs.Holds g changes := holds_changeAll hchanges
  refine ⟨fun n e => h.remove_eq_error_iff, ?_, ?_, h.sound.isTransposed, ?_, ?_⟩
  · intro p c
    rw [mem_childrenOf, h.children]
  · intro p c
    rw [mem_parentsOf, h.sound.transposed, h.children]
  · exact fun c ps => h.sound.tidy.isEmpty_eq_false
  · intro n
    rw [h.sound.hasParents_iff]
    exact exists_congr fun p => mem_childrenOf.symm

/-- A crop that depends on the apples and the pears, and pears that also depend on themselves and
on an internal name. -/
def orchard : Graph where
  rules := [
    { name := ⟨"apples", 0⟩, expr := some (.const { value := .bool true }) },
    { name := ⟨"crop", 1⟩, expr := some (.op .eq (.ref ⟨"apples", 0⟩) (.ref ⟨"pears", 2⟩)) },
    { name := ⟨"pears", 2⟩,
      expr := some (.all [.ref ⟨"apples", 0⟩, .ref ⟨"pears", 2⟩, .ref ⟨"pears . $frost", 3⟩]) }]
  increasing := by decide

/-- In the orchard, the link from the crop to the pears is dropped, then one that does not exist,
and the crop is removed.  The apples are still a child of the pears, so that they cannot be removed,
but the pears can. -/
theorem directions_stay_in_step_orchard :
    ∃ refs, (ofGraph orchard).changeAll [.unlink ⟨"crop", 1⟩ ⟨"pears", 2⟩,
        .unlink ⟨"apples", 0⟩ ⟨"plums", 4⟩, .remove ⟨"crop", 1⟩] = .ok refs ∧
      refs.isTransposed = true ∧
      ⟨"pears", 2⟩ ∈ refs.parentsOf ⟨"apples", 0⟩ ∧
      refs.remove ⟨"apples", 0⟩ = .error (.stillReferenced ⟨"apples", 0⟩) ∧
      ∀ e, refs.remove ⟨"pears", 2⟩ ≠ .error e := by
  generalize hchanges : [Change.unlink ⟨"crop", 1⟩ ⟨"pears", 2⟩,
    .unlink ⟨"apples", 0⟩ ⟨"plums", 4⟩, .remove ⟨"crop", 1⟩] = changes
  obtain ⟨-, hlinks⟩ := directions_stay_in_step orchard changes
  have hleft : orchard.LinkLeft changes ⟨"pears", 2⟩ ⟨"apples", 0⟩ := by
    rw [← hchanges]
    exact ⟨⟨_, rfl, by decide⟩, by decide, by decide +kernel, by decide, by decide⟩
  have hnone : ¬∃ p, orchard.LinkLeft changes p ⟨"pears", 2⟩ := by
    rw [← hchanges]
    rintro ⟨p, ⟨r, hr, hc⟩, hne, -, -, hremoved⟩
    obtain ⟨hmem, rfl⟩ := Graph.get?_eq_some_iff.mp hr
    simp only [orchard, List.mem_cons, List.not_mem_nil, or_false] at hmem
    rcases hmem with rfl | rfl | rfl
    · exact absurd hc List.not_mem_nil
    · exact absurd (by decide) hremoved
    · exact absurd rfl hne
  have hok : ((ofGraph orchard).changeAll changes).toOption.isSome = true := by
    rw [← hchanges]
    decide +kernel
  cases hrun : (ofGraph orchard).changeAll changes with
  | error e =>
      rw [hrun] at hok
      cases hok
  | ok refs =>
      obtain ⟨hremove, -, hparents, htransposed, -, -⟩ := hlinks refs hrun
      refine ⟨refs, rfl, htransposed, (hparents _ _).mpr hleft, ?_, ?_⟩
      · exact (hremove _ _).mpr ⟨rfl, _, hleft⟩
      · exact fun e he => hnone ((hremove _ e).mp he).2

end References

end RuleGraph
