import Std.Data.ExtTreeMap
import RuleGraph.Name

/-! # Links between names

A link map gives every name the set of names it is linked to.  `closure`
collects what can be reached from some names by following links.  It visits
every name once: a visited name hands on its links at most one time, so the
names waiting and the links not yet handed on get fewer with every step. -/

namespace RuleGraph

/-- The names that a name is linked to, for every name that has an entry. -/
abbrev Links := Std.ExtTreeMap Name NameSet

namespace Links

/-- The names that a name is linked to. -/
def targets (l : Links) (n : Name) : NameSet := l.getD n ∅

/-- Is there a link between two names? -/
def linked (l : Links) (source target : Name) : Bool := (l.targets source).contains target

/-- Add a link. -/
def attach (l : Links) (source target : Name) : Links :=
  l.insert source ((l.targets source).insert target)

/-- Remove a link, and the entry of its source if that becomes empty. -/
def detach (l : Links) (source target : Name) : Links :=
  match l[source]? with
  | none => l
  | some ts =>
    let rest := ts.erase target
    if rest.isEmpty then l.erase source else l.insert source rest

/-- The same links in the opposite direction. -/
def transpose (l : Links) : Links :=
  l.foldl (fun back source ts => ts.foldl (fun back target => back.attach target source) back) ∅

/-- Does every link of `l` occur in `back`, in the opposite direction? -/
def reversedIn (l back : Links) : Bool :=
  l.toList.all fun (source, ts) => ts.toList.all fun target => back.linked target source

/-! ## Reachability -/

/-- The number of links that the names of a list hand on, not counting names already seen. -/
def linksLeft (l : Links) (seen : NameSet) : List Name → Nat
  | [] => 0
  | n :: ns => (if n ∈ seen then 0 else (l.targets n).toList.length) + linksLeft l seen ns

/-- Seeing a name leaves no more links to be handed on. -/
theorem linksLeft_insert_le (l : Links) (seen : NameSet) (n : Name) (ns : List Name) :
    linksLeft l (seen.insert n) ns ≤ linksLeft l seen ns := by
  induction ns with
  | nil => exact Nat.le_refl _
  | cons m ns ih =>
    rw [linksLeft, linksLeft]
    have hm : m ∈ seen → m ∈ seen.insert n := fun h =>
      Std.ExtTreeSet.mem_insert.mpr (Or.inr h)
    by_cases hs : m ∈ seen
    · rw [if_pos hs, if_pos (hm hs)]
      exact Nat.add_le_add_left ih _
    · rw [if_neg hs]
      split
      · omega
      · omega

/-- Once a new name of the list is seen, its own links are no longer to be handed on. -/
theorem linksLeft_insert_of_mem {l : Links} {seen : NameSet} {n : Name} {ns : List Name}
    (hn : n ∈ ns) (hs : n ∉ seen) :
    linksLeft l (seen.insert n) ns + (l.targets n).toList.length ≤ linksLeft l seen ns := by
  induction ns with
  | nil => exact nomatch hn
  | cons m ns ih =>
    rw [linksLeft, linksLeft]
    by_cases hm : m = n
    · subst hm
      rw [if_neg hs, if_pos Std.ExtTreeSet.mem_insert_self]
      have := linksLeft_insert_le l seen m ns
      omega
    · have ih := ih ((List.mem_cons.mp hn).resolve_left (Ne.symm hm))
      have hmem : m ∈ seen.insert n ↔ m ∈ seen := by
        rw [Std.ExtTreeSet.mem_insert]
        constructor
        · rintro (h | h)
          · exact absurd (Std.LawfulEqOrd.eq_of_compare h).symm hm
          · exact h
        · exact Or.inr
      simp only [hmem]
      omega

/-- A name without an entry is linked to nothing. -/
theorem targets_eq_empty_of_not_mem {l : Links} {n : Name} (h : n ∉ l.keys) :
    l.targets n = ∅ :=
  Std.ExtTreeMap.getD_eq_fallback fun hn => h (Std.ExtTreeMap.mem_keys.mpr hn)

/-- Visiting a new name leaves fewer names waiting and links not handed on. -/
theorem visit_decreases {l : Links} {seen : NameSet} {n : Name} (hs : n ∉ seen)
    (waiting : Nat) :
    (l.targets n).toList.length + waiting + linksLeft l (seen.insert n) l.keys
      < waiting + 1 + linksLeft l seen l.keys := by
  by_cases hn : n ∈ l.keys
  · have := linksLeft_insert_of_mem (l := l) hn hs
    omega
  · have hlen : (l.targets n).toList.length = 0 := by
      rw [targets_eq_empty_of_not_mem hn]
      rfl
    have := linksLeft_insert_le l seen n l.keys
    omega

/-- Visit the waiting names and all names they lead to, skipping those seen already. -/
def visit (l : Links) : List Name → NameSet → NameSet
  | [], seen => seen
  | n :: waiting, seen =>
    if n ∈ seen then visit l waiting seen
    else visit l ((l.targets n).toList ++ waiting) (seen.insert n)
termination_by waiting seen => waiting.length + linksLeft l seen l.keys
decreasing_by
  · rw [List.length_cons]
    omega
  · rw [List.length_cons, List.length_append]
    exact visit_decreases ‹_› _

/-- The names that can be reached from the given ones along zero or more links. -/
def closure (l : Links) (sources : List Name) : NameSet := visit l sources ∅

end Links

end RuleGraph
