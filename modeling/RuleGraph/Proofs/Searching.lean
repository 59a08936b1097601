import RuleGraph.Proofs.Taint

/-! # The two searches for blocked rules

    Whether a rule is blocked is found out in two ways.  The taint of a pass is
    spread from all blocking names to their parents, and a contextual rule is
    followed to its children until a name turns up that blocks it.  Both are
    searches with a list of names that wait and a set of names that were seen
    (`Links.Search`); the second one stops as soon as it meets a wanted name.

    * Every round leaves fewer names that wait and links that were not handed
      on, so a search ends (`Search.wellFounded_round`), also along cycles.
    * What was seen or waits can be reached, and what was seen is wanted by
      nobody and leads only to names that were seen or wait
      (`Search.Explores`).  This is kept by every round, in whatever order
      links are handed on, and tells at the end what was found
      (`Search.Explores.answer_iff`).

    As both directions of the index hold the same links, the two searches look
    at the same paths from their opposite ends. -/

namespace RuleGraph

namespace Links

/-! ## Searching along links -/

/-- A search along links: the names that wait, the next one first, and the names seen. -/
structure Search where
  waiting : List Name
  seen : NameSet := ∅

namespace Search

variable {l : Links} {wanted : Name → Bool} {sources : List Name} {s s' : Search} {n : Name}

/-- One round of a search whose next name is not wanted.  A name that was seen is skipped; any other
one is noted as seen and hands on its links, in some order. -/
inductive Round (l : Links) (wanted : Name → Bool) : Search → Search → Prop where
  | skip {n : Name} {waiting : List Name} {seen : NameSet} :
      wanted n = false → n ∈ seen → Round l wanted ⟨n :: waiting, seen⟩ ⟨waiting, seen⟩
  | visit {n : Name} {waiting handed : List Name} {seen : NameSet} :
      wanted n = false → n ∉ seen → handed.Perm (l.targets n).toList →
      Round l wanted ⟨n :: waiting, seen⟩ ⟨handed ++ waiting, seen.insert n⟩

/-- The search is over if no name waits, or if the next one is wanted. -/
def answer? (wanted : Name → Bool) (s : Search) : Option Bool :=
  match s.waiting with
  | [] => some false
  | n :: _ => if wanted n then some true else none

/-- As long as there is no answer, there is another round. -/
theorem exists_round (h : s.answer? wanted = none) : ∃ s', Round l wanted s s' := by
  obtain ⟨waiting, seen⟩ := s
  cases waiting with
  | nil => cases h
  | cons n waiting =>
      have hn : wanted n = false := by
        simpa [answer?] using h
      by_cases hseen : n ∈ seen
      · exact ⟨_, .skip hn hseen⟩
      · exact ⟨_, .visit hn hseen (.refl _)⟩

/-- No search goes on for ever. -/
theorem wellFounded_round (l : Links) (wanted : Name → Bool) :
    WellFounded fun s' s => Round l wanted s s' := by
  refine Subrelation.wf ?_
    (measure fun s : Search => s.waiting.length + linksLeft l s.seen l.keys).wf
  intro s' s h
  cases h with
  | @skip n waiting seen =>
      show waiting.length + _ < (n :: waiting).length + _
      exact Nat.add_lt_add_right (Nat.lt_succ_self _) _
  | @visit n waiting handed seen _ hn hperm =>
      show (handed ++ waiting).length + _ < (n :: waiting).length + _
      rw [List.length_append, List.length_cons, hperm.length_eq]
      exact visit_decreases hn _

/-! ## What a search knows -/

/-- What is seen or waits is what the sources lead to, as far as it was explored; nothing of it was
wanted. -/
structure Explores (l : Links) (wanted : Name → Bool) (sources : List Name) (s : Search) :
    Prop where
  start : ∀ n ∈ sources, n ∈ s.seen ∨ n ∈ s.waiting
  links : ∀ a ∈ s.seen, ∀ b ∈ l.targets a, b ∈ s.seen ∨ b ∈ s.waiting
  reached : ∀ n, n ∈ s.seen ∨ n ∈ s.waiting → ∃ a ∈ sources, l.Leads a n
  unwanted : ∀ n ∈ s.seen, wanted n = false

/-- At the start, the sources wait and nothing was seen. -/
theorem explores_start (l : Links) (wanted : Name → Bool) (sources : List Name) :
    Explores l wanted sources ⟨sources, ∅⟩ where
  start _ hn := Or.inr hn
  links _ ha := absurd ha Std.ExtTreeSet.not_mem_empty
  reached n hn := ⟨n, hn.resolve_left Std.ExtTreeSet.not_mem_empty, Relation.ReflTransGen.refl⟩
  unwanted _ hn := absurd hn Std.ExtTreeSet.not_mem_empty

/-- One round explores one more name, and loses none. -/
theorem Explores.round (h : Explores l wanted sources s) (hround : Round l wanted s s') :
    Explores l wanted sources s' := by
  cases hround with
  | @skip n waiting seen hn hseen =>
      -- the name that is skipped was seen, so nothing is lost with it
      have hkeep : ∀ {m}, m ∈ seen ∨ m ∈ n :: waiting → m ∈ seen ∨ m ∈ waiting := by
        rintro m (hm | hm)
        · exact Or.inl hm
        · rcases List.mem_cons.mp hm with rfl | hm
          · exact Or.inl hseen
          · exact Or.inr hm
      exact ⟨fun m hm => hkeep (h.start m hm), fun a ha b hb => hkeep (h.links a ha b hb),
        fun m hm => h.reached m (hm.imp_right (List.mem_cons_of_mem n)), h.unwanted⟩
  | @visit n waiting handed seen hn hseen hperm =>
      have hhanded : ∀ {m}, m ∈ handed ↔ m ∈ l.targets n := by
        intro m
        rw [hperm.mem_iff, Std.ExtTreeSet.mem_toList]
      have hinsert : ∀ {m}, m ∈ seen.insert n ↔ m = n ∨ m ∈ seen := by
        intro m
        rw [Std.ExtTreeSet.mem_insert, Std.LawfulEqCmp.compare_eq_iff_eq, eq_comm]
      have hkeep : ∀ {m}, m ∈ seen ∨ m ∈ n :: waiting →
          m ∈ seen.insert n ∨ m ∈ handed ++ waiting := by
        rintro m (hm | hm)
        · exact Or.inl (hinsert.mpr (Or.inr hm))
        · rcases List.mem_cons.mp hm with hm | hm
          · exact Or.inl (hinsert.mpr (Or.inl hm))
          · exact Or.inr (List.mem_append_right _ hm)
      refine ⟨fun m hm => hkeep (h.start m hm), ?_, ?_, ?_⟩
      · intro a ha b hb
        rcases hinsert.mp ha with rfl | ha
        · exact Or.inr (List.mem_append_left _ (hhanded.mpr hb))
        · exact hkeep (h.links a ha b hb)
      · rintro m (hm | hm)
        · rcases hinsert.mp hm with rfl | hm
          · exact h.reached m (Or.inr (List.mem_cons_self ..))
          · exact h.reached m (Or.inl hm)
        · rcases List.mem_append.mp hm with hm | hm
          · obtain ⟨a, ha, hleads⟩ := h.reached n (Or.inr (List.mem_cons_self ..))
            exact ⟨a, ha, hleads.tail (hhanded.mp hm)⟩
          · exact h.reached m (Or.inr (List.mem_cons_of_mem n hm))
      · intro m hm
        rcases hinsert.mp hm with rfl | hm
        · exact hn
        · exact h.unwanted m hm

/-- After any number of rounds, what a search has seen was explored. -/
theorem explores_of_rounds
    (h : Relation.ReflTransGen (Round l wanted) ⟨sources, ∅⟩ s) : Explores l wanted sources s := by
  induction h with
  | refl => exact explores_start l wanted sources
  | tail _ hround ih => exact ih.round hround

/-- When no name waits any more, what was seen is what the sources lead to. -/
theorem Explores.mem_seen (h : Explores l wanted sources s) (hend : s.waiting = []) :
    n ∈ s.seen ↔ ∃ a ∈ sources, l.Leads a n := by
  have hwaits : ∀ m, m ∉ s.waiting := by
    intro m
    rw [hend]
    exact List.not_mem_nil
  constructor
  · exact fun hn => h.reached n (Or.inl hn)
  · rintro ⟨a, ha, hleads⟩
    induction hleads with
    | refl => exact (h.start a ha).resolve_right (hwaits a)
    | tail _ hstep ih => exact (h.links _ ih _ hstep).resolve_right (hwaits _)

/-- The answer of a search is whether its sources lead to a wanted name. -/
theorem Explores.answer_iff (h : Explores l wanted sources s) {found : Bool}
    (hanswer : s.answer? wanted = some found) :
    found = true ↔ ∃ a ∈ sources, ∃ n, l.Leads a n ∧ wanted n = true := by
  cases hwaiting : s.waiting with
  | nil =>
      have hfound : found = false := by
        simpa [answer?, hwaiting, eq_comm] using hanswer
      rw [hfound]
      refine iff_of_false Bool.false_ne_true ?_
      rintro ⟨a, ha, n, hleads, hn⟩
      have hunwanted := h.unwanted n ((h.mem_seen hwaiting).mpr ⟨a, ha, hleads⟩)
      rw [hn] at hunwanted
      cases hunwanted
  | cons n waiting =>
      have hanswer : wanted n = true ∧ true = found := by
        simpa [answer?, hwaiting] using hanswer
      obtain ⟨hn, rfl⟩ := hanswer
      refine iff_of_true rfl ?_
      have hmem : n ∈ s.waiting := by
        rw [hwaiting]
        exact List.mem_cons_self ..
      obtain ⟨a, ha, hleads⟩ := h.reached n (Or.inr hmem)
      exact ⟨a, ha, n, hleads, hn⟩

end Search

/-- A search from these names ends, in whatever order links are handed on: it cannot make rounds for
ever, and where there is no other round, it has an answer and has seen names as described. -/
def SearchEnds (l : Links) (wanted : Name → Bool) (sources : List Name)
    (result : Bool → NameSet → Prop) : Prop :=
  Acc (fun s' s => Search.Round l wanted s s') ⟨sources, ∅⟩ ∧
    ∀ s, Relation.ReflTransGen (Search.Round l wanted) ⟨sources, ∅⟩ s →
      (∃ s', Search.Round l wanted s s') ∨
        ∃ found, s.answer? wanted = some found ∧ result found s.seen

/-- For a search to end as described, it is enough that its last state is. -/
theorem searchEnds {l : Links} {wanted : Name → Bool} {sources : List Name}
    {result : Bool → NameSet → Prop}
    (h : ∀ s found, Search.Explores l wanted sources s → s.answer? wanted = some found →
      result found s.seen) : l.SearchEnds wanted sources result := by
  refine ⟨(Search.wellFounded_round l wanted).apply _, ?_⟩
  intro s hs
  cases hanswer : s.answer? wanted with
  | none => exact Or.inl (Search.exists_round hanswer)
  | some found => exact Or.inr ⟨found, rfl, h s found (Search.explores_of_rounds hs) hanswer⟩

end Links

/-! ## Blocked rules -/

namespace Folding

variable {σ : Type} {ev : Evaluator σ} {f : Folding σ} {n root : Name}

/-- A new taint has the rules that lead to an unfoldable or overridden one. -/
theorem isTainted_refreshTaint (h : f.refs.isTransposed = true) :
    (f.refreshTaint ev).taint.isTainted n = true ↔
      ∃ c, f.refs.children.Leads n c ∧ (c ∈ f.unfoldable ∨ ∃ p, f.graph.Overrides p c) := by
  rw [Taint.isTainted, Std.ExtTreeSet.contains_iff_mem]
  refine Taint.mem_tainted_ofGraph.trans (exists_congr fun c => ?_)
  rw [References.leads_parents_iff h, Taint.mem_overridersIn, and_comm]

/-- With a new taint, a contextual rule is blocked by unfoldable rules and by what other rules
override. -/
theorem blocks_refreshTaint {c : Name} :
    (f.refreshTaint ev).blocks root c = true ↔
      c ∈ f.unfoldable ∨ ∃ p, p ≠ root ∧ f.graph.Overrides p c := by
  rw [blocks, Bool.or_eq_true_iff]
  refine or_congr Std.ExtTreeSet.contains_iff_mem ?_
  rw [Taint.isOverriddenExcept, List.any_eq_true]
  refine exists_congr fun p => ?_
  rw [Std.ExtTreeSet.mem_toList, decide_eq_true_eq, and_comm]
  exact and_congr_right fun _ => Taint.mem_targets_overridersIn

/-- With a new taint, a contextual rule is blocked if it leads to a rule that blocks it. -/
theorem reachesBlocking_refreshTaint :
    (f.refreshTaint ev).reachesBlocking root = true ↔
      ∃ c, f.refs.children.Leads root c ∧
        (c ∈ f.unfoldable ∨ ∃ p, p ≠ root ∧ f.graph.Overrides p c) := by
  rw [reachesBlocking_iff]
  exact exists_congr fun c => and_congr_right fun _ => blocks_refreshTaint

/-- The two searches for blocked rules are exact and agree, if both directions of the index hold the
same links, be there cycles or not.  Both end, in whatever order they go.  The search from the
blocking names along the parents collects the tainted rules: those from which a name can be reached
along the children that is unfoldable or overridden.  The search from a rule along the children
finds out whether a name can be reached that is unfoldable or overridden by another rule.  So a rule
that is blocked is tainted. -/
theorem taint_searches_exact (ev : Evaluator σ) (f : Folding σ)
    (htransposed : f.refs.isTransposed = true) :
    (∀ sources : List Name,
      (∀ n, n ∈ sources ↔ n ∈ f.unfoldable ∨ ∃ p, f.graph.Overrides p n) →
      f.refs.parents.SearchEnds (fun _ => false) sources
        fun _ seen => seen = (f.refreshTaint ev).taint.tainted) ∧
    (∀ n, (f.refreshTaint ev).taint.isTainted n = true ↔
      ∃ c, f.refs.children.Leads n c ∧ (c ∈ f.unfoldable ∨ ∃ p, f.graph.Overrides p c)) ∧
    (∀ root, f.refs.children.SearchEnds ((f.refreshTaint ev).blocks root) [root]
      fun found _ => found = (f.refreshTaint ev).reachesBlocking root) ∧
    (∀ root, (f.refreshTaint ev).reachesBlocking root = true ↔
      ∃ c, f.refs.children.Leads root c ∧
        (c ∈ f.unfoldable ∨ ∃ p, p ≠ root ∧ f.graph.Overrides p c)) ∧
    ∀ root, (f.refreshTaint ev).reachesBlocking root = true →
      (f.refreshTaint ev).taint.isTainted root = true := by
  refine ⟨?_, fun n => isTainted_refreshTaint htransposed, ?_,
    fun root => reachesBlocking_refreshTaint, ?_⟩
  · intro sources hsources
    refine Links.searchEnds fun s found hs hanswer => Std.ExtTreeSet.ext_mem fun n => ?_
    have hend : s.waiting = [] := by
      cases hwaiting : s.waiting with
      | nil => rfl
      | cons m waiting => simp [Links.Search.answer?, hwaiting] at hanswer
    rw [hs.mem_seen hend]
    refine Iff.trans (exists_congr fun c => ?_) Taint.mem_tainted_ofGraph.symm
    rw [hsources, Taint.mem_overridersIn]
  · intro root
    refine Links.searchEnds fun s found hs hanswer => ?_
    rw [Bool.eq_iff_iff, hs.answer_iff hanswer, reachesBlocking_iff]
    simp only [List.mem_singleton, exists_eq_left]
    rfl
  · intro root hblocked
    obtain ⟨c, hleads, hc⟩ := reachesBlocking_refreshTaint.mp hblocked
    refine (isTainted_refreshTaint htransposed).mpr ⟨c, hleads, hc.imp_right ?_⟩
    rintro ⟨p, -, hp⟩
    exact ⟨p, hp⟩

/-- Two contextual rules, both over a route and a tide that depend on each other. -/
def ferry : Folding Unit :=
  let graph : Graph := {
    rules := [
      { name := ⟨"fare", 0⟩,
        expr := some (.contextual (.ref ⟨"route", 1⟩)
          [(⟨"season", 2⟩, .const { value := .bool true })]) },
      { name := ⟨"route", 1⟩, expr := some (.all [.ref ⟨"tide", 3⟩]) },
      { name := ⟨"season", 2⟩, expr := some (.const { value := .bool false }) },
      { name := ⟨"tide", 3⟩, expr := some (.any [.ref ⟨"route", 1⟩, .ref ⟨"season", 2⟩]) },
      { name := ⟨"trip", 4⟩,
        expr := some (.contextual (.ref ⟨"route", 1⟩)
          [(⟨"wind", 5⟩, .const { value := .bool true })]) }]
    increasing := by decide }
  { state := (), graph, refs := .ofGraph graph, unfoldable := ∅ }

/-- The fare and the trip of the ferry are both tainted by the season.  It does not block the fare,
which overrides it, but the trip, which leads there through the cycle of route and tide. -/
theorem taint_searches_exact_ferry :
    ferry.refs.isTransposed = true ∧
    (ferry.refreshTaint .interpreter).taint.isTainted ⟨"fare", 0⟩ = true ∧
    (ferry.refreshTaint .interpreter).reachesBlocking ⟨"fare", 0⟩ = false ∧
    ferry.refs.children.SearchEnds
      ((ferry.refreshTaint .interpreter).blocks ⟨"fare", 0⟩) [⟨"fare", 0⟩] (fun found _ => !found) ∧
    (ferry.refreshTaint .interpreter).reachesBlocking ⟨"trip", 4⟩ = true ∧
    (ferry.refreshTaint .interpreter).taint.isTainted ⟨"trip", 4⟩ = true := by
  have htransposed : ferry.refs.isTransposed = true := by decide +kernel
  obtain ⟨-, htainted, hends, hblocked, hagree⟩ :=
    taint_searches_exact .interpreter ferry htransposed
  have hfare : (ferry.refreshTaint .interpreter).reachesBlocking ⟨"fare", 0⟩ = false := by
    decide +kernel
  have hseason : ferry.graph.Overrides ⟨"fare", 0⟩ ⟨"season", 2⟩ := ⟨_, rfl, by decide⟩
  have htrip : (ferry.refreshTaint .interpreter).reachesBlocking ⟨"trip", 4⟩ = true := by
    refine (hblocked _).mpr ⟨⟨"season", 2⟩, ?_, Or.inr ⟨⟨"fare", 0⟩, by decide, hseason⟩⟩
    have hroute : ⟨"route", 1⟩ ∈ ferry.refs.children.targets ⟨"trip", 4⟩ := by decide +kernel
    have htide : ⟨"tide", 3⟩ ∈ ferry.refs.children.targets ⟨"route", 1⟩ := by decide +kernel
    have hend : ⟨"season", 2⟩ ∈ ferry.refs.children.targets ⟨"tide", 3⟩ := by decide +kernel
    exact .head hroute (.head htide (.single hend))
  refine ⟨htransposed, (htainted _).mpr ?_, hfare, ?_, htrip, hagree _ htrip⟩
  · have hlink : ⟨"season", 2⟩ ∈ ferry.refs.children.targets ⟨"fare", 0⟩ := by decide +kernel
    exact ⟨⟨"season", 2⟩, .single hlink, Or.inr ⟨_, hseason⟩⟩
  · have h := hends ⟨"fare", 0⟩
    rw [hfare] at h
    simpa using h

end Folding

end RuleGraph
