import RuleGraph.Proofs.Changes
import RuleGraph.Proofs.Filling

/-! # The history of a run

    Which rules a run has folded, and to which constants, shows in the stages
    that it has gone through.  `Graph.Records` keeps this history along the
    steps, and `Graph.Accounts` says how far it explains the graph: a rule that
    was not folded is the one that the run began with, with constants of folded
    rules filled in, and a folded rule is its constant (`Rule.Stems`).

    No rule is folded twice, because a rule that was folded and is still there
    is marked as such before the next one is looked at. -/

namespace RuleGraph

/-! ## Constants of a history -/

namespace Constants

/-- The constants that rules were folded to. -/
def ofList (folds : List (Name × Quantity)) : Constants := fun n => folds.lookup n

/-- The constants that are copied into other rules: internal names are not indexed. -/
def external (k : Constants) : Constants := fun n => if n.isInternal then none else k n

variable {k k' : Constants} {n m : Name} {q : Quantity} {folds : List (Name × Quantity)}

/-- The rule that was folded last has its constant. -/
theorem ofList_cons_self : ofList ((n, q) :: folds) n = some q := by
  simp [ofList]

theorem ofList_cons_of_ne (h : m ≠ n) : ofList ((n, q) :: folds) m = ofList folds m := by
  have hne : (m == n) = false := beq_eq_false_iff_ne.mpr h
  rw [ofList, List.lookup_cons, hne, ofList]

/-- The rules without a constant are those that were not folded. -/
theorem ofList_eq_none : ofList folds n = none ↔ n ∉ folds.map Prod.fst := by
  rw [ofList, List.lookup_eq_none_iff]
  constructor
  · intro h hn
    obtain ⟨p, hp, rfl⟩ := List.mem_map.mp hn
    simpa using h p hp
  · intro h p hp
    refine bne_iff_ne.mpr fun hn => h ?_
    exact List.mem_map.mpr ⟨p, hp, hn.symm⟩

/-- A name that is folded for the first time changes no other constant. -/
theorem within_ofList_cons (h : ofList folds n = none) :
    (ofList folds).Within (ofList ((n, q) :: folds)) := by
  intro m p hm
  rw [ofList_cons_of_ne]
  · exact hm
  · rintro rfl
    rw [h] at hm
    cases hm

theorem external_of_not_isInternal (h : n.isInternal = false) : k.external n = k n := by
  rw [external, h]
  rfl

/-- The constants that are copied are those of names that are not internal. -/
theorem external_eq_some : k.external n = some q ↔ n.isInternal = false ∧ k n = some q := by
  rw [external]
  cases n.isInternal with
  | false => simp
  | true => simp

theorem external_ofList_cons_of_ne (h : m ≠ n) :
    (ofList ((n, q) :: folds)).external m = (ofList folds).external m := by
  rw [external, ofList_cons_of_ne h, external]

theorem external_eq_none (h : k n = none) : k.external n = none := by
  rw [external, h, ite_self]

theorem Within.external (h : k.Within k') : k.external.Within k'.external := by
  intro m p hm
  obtain ⟨hinternal, hm⟩ := external_eq_some.mp hm
  exact external_eq_some.mpr ⟨hinternal, h hm⟩

end Constants

/-! ## What becomes of a rule -/

namespace Rule

/-- A constant rule that is no input has no references. -/
theorem references_const {r : Rule} {q : Quantity} {status : Status} (h : r.isInput = false) :
    references { r with expr := some (.const q), status } = [] := by
  show ((some (Expr.const q)).toList ++ r.default.toList).flatMap Expr.references = []
  rw [default_eq_none h]
  rfl

/-- A rule keeps the links to names that have no constant. -/
theorem mem_links_fill {r : Rule} {k : Constants} {n : Name} (hk : k n = none) (h : n ∈ r.links) :
    n ∈ (r.fill k).links := by
  obtain ⟨hdep, hself, hinternal⟩ := mem_links.mp h
  exact mem_links.mpr ⟨mem_dependencies_fill hk hdep, hself, hinternal⟩

/-- The second rule differs from the first one in its expressions and its status at most. -/
structure Frames (r r' : Rule) : Prop where
  name : r'.name = r.name
  declared : r'.declared = r.declared
  question : r'.question = r.question
  replacements : r'.replacements = r.replacements
  enumeration : r'.enumeration = r.enumeration
  isPrivate : r'.isPrivate = r.isPrivate

/-- What a rule is after rules were folded to the constants `k`: a rule that was not folded has
some of them filled in, and a folded rule is its constant. -/
inductive Stems (k : Constants) (r : Rule) : Rule → Prop where
  | filled {k' : Constants} (within : k'.Within k.external) (unfolded : k r.name = none) :
      Stems k r (r.fill k')
  | constant {q : Quantity} {status : Status} (folded : k r.name = some q)
      (isInput : r.isInput = false) :
      Stems k r { r with expr := some (.const q), status }

namespace Stems

variable {k k' : Constants} {r r' : Rule} {n : Name} {q : Quantity}

/-- A rule that was not folded stems from itself. -/
theorem refl (h : k r.name = none) : Stems k r r := by
  have hfill : r.fill (fun _ => none) = r := fill_of_none fun _ _ => rfl
  have hstems : Stems k r (r.fill fun _ => none) := filled (fun hn => nomatch hn) h
  rwa [hfill] at hstems

theorem isInput (h : Stems k r r') : r'.isInput = r.isInput := by
  cases h with
  | filled => exact isInput_fill
  | constant => rfl

/-- What stems from a rule has its name and all that is declared about it. -/
theorem frames (h : Stems k r r') : r.Frames r' := by
  cases h with
  | filled | constant => exact ⟨rfl, rfl, rfl, rfl, rfl, rfl⟩

/-- More rules were folded meanwhile, but not this one. -/
theorem mono (h : Stems k r r') (hk : k.Within k') (hr : k' r.name = k r.name) :
    Stems k' r r' := by
  cases h with
  | filled within unfolded =>
      exact filled (within.trans hk.external) (hr.trans unfolded)
  | constant folded isInput => exact constant (hr.trans folded) isInput

/-- The rule itself is folded. -/
theorem fold (h : Stems k r r') (hr : k r.name = none) (hinput : r'.isInput = false)
    (hq : k' r.name = some q) : Stems k' r { r' with expr := some (.const q) } := by
  rw [h.isInput] at hinput
  cases h with
  | @filled k₁ =>
      have hdefault : (r.fill k₁).default = r.default := by
        show r.default.map (Expr.fill k₁) = r.default
        rw [default_eq_none hinput, Option.map_none]
      have hrule : { r.fill k₁ with expr := some (.const q) } =
          { r with expr := some (.const q), status := (r.fill k₁).status } := by
        show Rule.mk .. = Rule.mk ..
        rw [hdefault]
        rfl
      rw [hrule]
      exact constant hq hinput
  | constant folded =>
      rw [hr] at folded
      cases folded

/-- The constant of another rule is copied into the rule. -/
theorem copy (h : Stems k r r') (hq : k.external n = some q) :
    Stems k r ((r'.subst n (.const q)).markReplaced (r'.references.count n)) := by
  cases h with
  | @filled k₁ within unfolded =>
      rw [fill_subst]
      exact filled (within.assign hq) unfolded
  | @constant p status folded hinput =>
      -- a constant has no references to replace
      have hrefs : references { r with expr := some (.const p), status } = [] :=
        references_const hinput
      rw [markReplaced_subst, fill_of_none fun m hm => nomatch hrefs ▸ hm]
      exact constant folded hinput

/-- A folded rule is marked. -/
theorem mark (h : Stems k r r') (hk : (k r.name).isSome = true) (status : Status) :
    Stems k r { r' with status } := by
  cases h with
  | filled _ unfolded =>
      rw [unfolded] at hk
      cases hk
  | constant folded hinput => exact constant folded hinput

end Stems

end Rule

namespace Folding

variable {σ : Type} {ev : Evaluator σ} {opts : Options}

/-! ## Keeping the history -/

/-- A run that stands at the first moment comes to the second one, and on its way folds these rules
to these constants, the last one first. -/
inductive Records (ev : Evaluator σ) (opts : Options) (m : Stage × Folding σ) :
    List (Name × Quantity) → Stage × Folding σ → Prop where
  | refl : Records ev opts m [] m
  | tail {folds : List (Name × Quantity)} {m₁ m₂ : Stage × Folding σ} :
      Records ev opts m folds m₁ → Step ev opts m₁ m₂ →
      Records ev opts m (m₁.1.folds m₂.1 ++ folds) m₂

/-- Every run has a history. -/
theorem Reaches.records {m m' : Stage × Folding σ} (h : Reaches ev opts m m') :
    ∃ folds, Records ev opts m folds m' := by
  induction h with
  | refl => exact ⟨[], .refl⟩
  | tail _ hstep ih =>
      obtain ⟨folds, hrecords⟩ := ih
      exact ⟨_, hrecords.tail hstep⟩

theorem Records.reaches {m m' : Stage × Folding σ} {folds : List (Name × Quantity)}
    (h : Records ev opts m folds m') : Reaches ev opts m m' := by
  induction h with
  | refl => exact Relation.ReflTransGen.refl
  | tail _ hstep ih => exact Relation.ReflTransGen.tail ih hstep

end Folding

namespace Graph

open RuleGraph.Folding (Stage Step Change)

variable {σ : Type} {ev : Evaluator σ} {opts : Options} {g : Graph} {s : Session σ}
  {folds : List (Name × Quantity)} {st : Stage} {f : Folding σ}

/-- Folding the graph comes to this stage, in this state, and has folded these rules to these
constants by then, the last one first. -/
def Records (ev : Evaluator σ) (opts : Options) (g : Graph) (s : Session σ)
    (folds : List (Name × Quantity)) (st : Stage) (f : Folding σ) : Prop :=
  ∃ u s', (g.restoreStatus opts.marker).unfoldable ev s = .ok u s' ∧
    Folding.Records ev opts (.sweep, Folding.start s' (g.restoreStatus opts.marker) u) folds
      (st, f)

theorem Records.passes (h : g.Records ev opts s folds st f) : g.Passes ev opts s st f := by
  obtain ⟨u, s', hu, h⟩ := h
  exact ⟨u, s', hu, h.reaches⟩

/-- Wherever folding comes to, it has a history by then. -/
theorem Passes.records (h : g.Passes ev opts s st f) :
    ∃ folds, g.Records ev opts s folds st f := by
  obtain ⟨u, s', hu, h⟩ := h
  obtain ⟨folds, h⟩ := h.records
  exact ⟨folds, u, s', hu, h⟩

/-- What holds at the start and is kept by every step holds at all moments of folding a graph, with
the history up to then. -/
theorem Records.invariant {P : List (Name × Quantity) → Stage → Folding σ → Prop}
    (h : g.Records ev opts s folds st f)
    (init : ∀ {u s'}, (g.restoreStatus opts.marker).unfoldable ev s = .ok u s' →
      P [] .sweep (Folding.start s' (g.restoreStatus opts.marker) u))
    (step : ∀ {folds st₁ f₁ st₂ f₂}, g.Records ev opts s folds st₁ f₁ →
      Step ev opts (st₁, f₁) (st₂, f₂) → P folds st₁ f₁ →
      P (st₁.folds st₂ ++ folds) st₂ f₂) :
    P folds st f := by
  obtain ⟨u, s', hu, h⟩ := h
  have hall : ∀ folds m, Folding.Records ev opts
      (.sweep, Folding.start s' (g.restoreStatus opts.marker) u) folds m → P folds m.1 m.2 := by
    intro folds m hm
    induction hm with
    | refl => exact init hu
    | tail hm hstep ih => exact step ⟨u, s', hu, hm⟩ hstep ih
  exact hall folds (st, f) h

/-! ## Accounting for every rule -/

/-- The history of a run explains the graph `g'` that it has come to: every rule stems from one of
`g`, and the rules that were folded are marked, except for the one that is being folded.  Its
constant is the one that is copied. -/
structure Accounts (g : Graph) (folds : List (Name × Quantity)) (st : Stage) (g' : Graph) :
    Prop where
  nodup : (folds.map Prod.fst).Nodup
  stems : ∀ {n : Name} {r' : Rule}, g'.get? n = some r' →
    ∃ r, g.get? n = some r ∧ r.Stems (.ofList folds) r'
  fully : ∀ {n : Name} {r' : Rule}, g'.get? n = some r' →
    (Constants.ofList folds n).isSome = true → st.target = some n ∨ r'.status = .fully
  target : ∀ {n : Name}, st.target = some n → (Constants.ofList folds n).isSome = true
  copies : ∀ {pass : Folding.Pass} {n p : Name} {q : Quantity} {ps : List Name},
    p ∈ st.parents → st = .substitute pass n q ps → (Constants.ofList folds).external n = some q

namespace Accounts

variable {g' : Graph} {st' : Stage} {pass : Folding.Pass} {n p : Name} {q : Quantity}
  {ps : List Name}

/-- At the start, every rule stems from itself and nothing was folded. -/
theorem start (g : Graph) : g.Accounts [] .sweep g where
  nodup := List.nodup_nil
  stems {_ r'} hr' := ⟨r', hr', Rule.Stems.refl rfl⟩
  fully _ hn := nomatch hn
  target hn := nomatch hn
  copies hp := nomatch hp

/-- A rule that is not marked was not folded, unless it is being folded. -/
theorem eq_none_of_status (h : g.Accounts folds st g') (htarget : st.target = none) {r' : Rule}
    (hr' : g'.get? n = some r') (hstatus : r'.status ≠ .fully) :
    Constants.ofList folds n = none := by
  refine Option.not_isSome_iff_eq_none.mp fun hsome => ?_
  rcases h.fully hr' hsome with hn | hfully
  · rw [htarget] at hn
    cases hn
  · exact hstatus hfully

/-- Between stages that copy nothing, a history goes on explaining the graph. -/
theorem rest (h : g.Accounts folds st g') (rests : st.Rests st')
    (target : st'.target = st.target) : g.Accounts folds st' g' where
  nodup := h.nodup
  stems := h.stems
  fully hr' hn := by
    rw [target]
    exact h.fully hr' hn
  target hn := h.target (target.symm.trans hn)
  copies hp := by
    rw [rests.parents'] at hp
    cases hp

/-- A rule that is not marked yet is folded; it has no parents if its name is internal. -/
theorem constant (h : g.Accounts folds st g') (htarget : st.target = none) {r : Rule}
    (hr : g'.get? n = some r) (hstatus : r.status ≠ .fully) (hinput : r.isInput = false)
    (hps : ∀ p ∈ ps, n.isInternal = false) :
    g.Accounts ((n, q) :: folds) (.substitute pass n q ps)
      (g'.modify n fun r => { r with expr := some (.const q) }) := by
  have hnone := h.eq_none_of_status htarget hr hstatus
  refine ⟨?_, ?_, ?_, ?_, ?_⟩
  · rw [List.map_cons]
    exact List.nodup_cons.mpr ⟨Constants.ofList_eq_none.mp hnone, h.nodup⟩
  · intro m r' hr'
    rcases of_get?_modify hr' (fun _ h => h) with ⟨rfl, r₁, hr₁, rfl⟩ | ⟨hm, hr'⟩
    · obtain rfl : r = r₁ := Option.some.inj (hr.symm.trans hr₁)
      obtain ⟨r₀, hr₀, hstems⟩ := h.stems hr
      obtain rfl := name_of_get? hr₀
      exact ⟨r₀, hr₀, hstems.fold hnone hinput Constants.ofList_cons_self⟩
    · obtain ⟨r₀, hr₀, hstems⟩ := h.stems hr'
      obtain rfl := name_of_get? hr₀
      exact ⟨r₀, hr₀, hstems.mono (Constants.within_ofList_cons hnone)
        (Constants.ofList_cons_of_ne hm)⟩
  · intro m r' hr' hsome
    rcases of_get?_modify hr' (fun _ h => h) with ⟨rfl, -⟩ | ⟨hm, hr'⟩
    · exact Or.inl rfl
    · rw [Constants.ofList_cons_of_ne hm] at hsome
      refine Or.inr ((h.fully hr' hsome).resolve_left ?_)
      rw [htarget]
      nofun
  · intro m hm
    obtain rfl : n = m := Option.some.inj hm
    rw [Constants.ofList_cons_self]
    rfl
  · intro _ _ _ _ _ hp hst
    cases hst
    rw [Constants.external_of_not_isInternal (hps _ hp)]
    exact Constants.ofList_cons_self

/-- A parent may be passed over, so that a constant is not copied into it. -/
theorem leave (h : g.Accounts folds (.substitute pass n q (p :: ps)) g') :
    g.Accounts folds (.substitute pass n q ps) g' where
  nodup := h.nodup
  stems := h.stems
  fully := h.fully
  target := h.target
  copies hp hst := by
    cases hst
    exact h.copies (List.mem_cons_of_mem _ hp) rfl

/-- The constant of the rule that is being folded is copied into another one. -/
theorem copy (h : g.Accounts folds (.substitute pass n q (p :: ps)) g') {r : Rule}
    (hr : g'.get? p = some r) :
    g.Accounts folds (.substitute pass n q ps) (g'.modify p fun _ =>
      (r.subst n (.const q)).markReplaced (r.references.count n)) := by
  have hq := h.copies (List.mem_cons_self ..) rfl
  have hname : ((r.subst n (.const q)).markReplaced (r.references.count n)).name = p :=
    (Rule.name_markReplaced_subst ..).trans (name_of_get? hr)
  refine ⟨h.nodup, ?_, ?_, h.target, h.leave.copies⟩
  · intro m r' hr'
    rcases of_get?_modify hr' (fun _ _ => hname) with ⟨rfl, _, _, rfl⟩ | ⟨_, hr'⟩
    · obtain ⟨r₀, hr₀, hstems⟩ := h.stems hr
      exact ⟨r₀, hr₀, hstems.copy hq⟩
    · exact h.stems hr'
  · intro m r' hr' hsome
    rcases of_get?_modify hr' (fun _ _ => hname) with ⟨rfl, _, _, rfl⟩ | ⟨_, hr'⟩
    · exact (h.fully hr hsome).imp_right (Rule.status_markReplaced _ _).mpr
    · exact h.fully hr' hsome

/-- Removing a rule leaves the rest of the graph explained. -/
theorem remove (h : g.Accounts folds st g') (rests : st.Rests st')
    (target : st'.target = st.target ∨ st.target = some n ∧ st'.target = none) :
    g.Accounts folds st' (g'.erase n) := by
  refine ⟨h.nodup, ?_, ?_, ?_, ?_⟩
  · intro m r' hr'
    exact h.stems (get?_erase_eq_some.mp hr').2
  · intro m r' hr' hsome
    obtain ⟨hm, hr'⟩ := get?_erase_eq_some.mp hr'
    refine (h.fully hr' hsome).imp_left ?_
    intro hst
    rcases target with hst' | ⟨hn, -⟩
    · exact hst'.trans hst
    · exact absurd (Option.some.inj (hst.symm.trans hn)) hm
  · intro m hm
    rcases target with hst' | ⟨-, hst'⟩
    · exact h.target (hst'.symm.trans hm)
    · rw [hst'] at hm
      cases hm
  · intro _ _ _ _ _ hp
    rw [rests.parents'] at hp
    cases hp

/-- The rule that was being folded is marked. -/
theorem mark (h : g.Accounts folds (.prune pass n []) g') :
    g.Accounts folds (.visit pass.succ) (g'.modify n fun r => { r with status := .fully }) := by
  refine ⟨h.nodup, ?_, ?_, nofun, nofun⟩
  · intro m r' hr'
    rcases of_get?_modify hr' (fun _ h => h) with ⟨rfl, r, hr, rfl⟩ | ⟨_, hr'⟩
    · obtain ⟨r₀, hr₀, hstems⟩ := h.stems hr
      obtain rfl := name_of_get? hr₀
      exact ⟨r₀, hr₀, hstems.mark (h.target rfl) .fully⟩
    · exact h.stems hr'
  · intro m r' hr' hsome
    rcases of_get?_modify hr' (fun _ h => h) with ⟨rfl, r, hr, rfl⟩ | ⟨hm, hr'⟩
    · exact Or.inr rfl
    · refine Or.inr ((h.fully hr' hsome).resolve_left ?_)
      exact fun hn => hm (Option.some.inj hn).symm

/-- Every change is accounted for. -/
theorem change (h : g.Accounts folds st f.graph) (hchange : Change ev opts f st st' g') :
    g.Accounts (st.folds st' ++ folds) st' g' := by
  cases hchange with
  | same rests target =>
      rw [rests.folds]
      exact h.rest rests target
  | constant hf hdue _ _ =>
      obtain ⟨r, hr, -, hinput, -⟩ := Folding.isFoldable_iff.mp hdue.2
      refine h.constant rfl hr ?_ hinput ?_
      · obtain ⟨r₁, hr₁, hstatus⟩ := Folding.hasOpen_of_not_isDone hdue.1
        obtain rfl : r = r₁ := Option.some.inj (hr.symm.trans hr₁)
        exact hstatus
      · intro p hp
        rw [References.mem_parentsOf, hf.tracks.sound.transposed] at hp
        obtain ⟨r₁, -, hlink⟩ := hf.tracks.exact hp nofun
        exact (Rule.mem_links.mp hlink).2.2
  | leave _ => exact h.leave
  | copy _ _ _ hr _ => exact h.copy hr
  | remove rests target _ _ _ _ =>
      rw [rests.folds]
      exact h.remove rests target
  | mark => exact h.mark

end Accounts

/-- Every rule that a run has come to differs from a rule of the graph in its expressions and its
status at most. -/
theorem Accounts.frames {marker : String} {g' : Graph} {n : Name} {r' : Rule}
    (h : (g.restoreStatus marker).Accounts folds st g') (hr' : g'.get? n = some r') :
    ∃ r, g.get? n = some r ∧ r.Frames r' := by
  obtain ⟨r₀, hr₀, hstems⟩ := h.stems hr'
  rw [get?_restoreStatus, Option.map_eq_some_iff] at hr₀
  obtain ⟨r, hr, rfl⟩ := hr₀
  exact ⟨r, hr, hstems.frames.name, hstems.frames.declared, hstems.frames.question,
    hstems.frames.replacements, hstems.frames.enumeration, hstems.frames.isPrivate⟩

/-- At every moment of folding a graph, the history explains the graph. -/
theorem Records.accounts (h : g.Records ev opts s folds st f) :
    (g.restoreStatus opts.marker).Accounts folds st f.graph := by
  refine h.invariant (P := fun folds st f => Accounts _ folds st f.graph) ?_ ?_
  · exact fun _ => Accounts.start _
  · intro folds st₁ f₁ st₂ f₂ hrecords hstep h
    exact h.change (hstep.change hrecords.passes.consistent)

end Graph

end RuleGraph
