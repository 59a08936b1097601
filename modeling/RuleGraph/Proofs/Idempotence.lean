import RuleGraph.Proofs.Protection
import RuleGraph.Proofs.Quiescence

/-! # Folding twice

    A second run works on the graph that the first one left behind, and finds out
    anew which rules are unfoldable.  If these are still all that were so in the
    first run, the graph is at rest for it, and the second run changes nothing.

    What makes rules unfoldable is there for the second run, except in one case.
    Rules that replace others, and contextual rules whose value depends on the
    situation, are unfoldable themselves, so they are spared, and the values that
    count stay the same (`Passes.keepsUnfoldable`).  But the rule that lists the
    members of an enumeration can be folded and deleted, and then its members are
    unfoldable no more. -/

namespace RuleGraph

/-! ## Which rules are unfoldable -/

namespace Graph

variable {σ : Type} {ev : Evaluator σ} {oracle : Oracle} {g : Graph} {found u : NameSet}
  {r : Rule} {s s' : Session σ}

/-- The rule makes a name unfoldable: by what it declares, or because it is contextual and its value
depends on the situation. -/
inductive Vetoes (oracle : Oracle) (g : Graph) (r : Rule) (c : Name) : Prop where
  | pinned (mem : c ∈ r.pinned)
  | varies {y : Evaluation} (mem : c ∈ r.name :: r.overridden) (contextual : r.isContextual = true)
      (value : oracle.value g r.name = .ok y) (varies : y.isConstant = false)

/-- A rule whose value is constant, or is not asked for, makes the names unfoldable that it pins. -/
theorem vetoes_iff_pinned {c : Name}
    (h : r.isContextual = true → ∃ y, oracle.value g r.name = .ok y ∧ y.isConstant = true) :
    g.Vetoes oracle r c ↔ c ∈ r.pinned := by
  constructor
  · intro hvetoes
    cases hvetoes with
    | pinned hmem => exact hmem
    | varies _ hcontextual hvalue hvaries =>
        obtain ⟨y, hy, hconst⟩ := h hcontextual
        rw [hvalue] at hy
        cases hy
        rw [hvaries] at hconst
        cases hconst
  · exact .pinned

/-- A contextual rule whose value depends on the situation adds itself and what it overrides. -/
theorem vetoes_iff_of_varies {c : Name} {y : Evaluation} (hcontextual : r.isContextual = true)
    (hvalue : oracle.value g r.name = .ok y) (hvaries : y.isConstant = false) :
    g.Vetoes oracle r c ↔ c ∈ r.pinned ∨ c ∈ r.name :: r.overridden := by
  constructor
  · intro hvetoes
    cases hvetoes with
    | pinned hmem => exact Or.inl hmem
    | varies hmem _ _ _ => exact Or.inr hmem
  · rintro (hmem | hmem)
    · exact .pinned hmem
    · exact .varies hmem hcontextual hvalue hvaries

theorem mem_insertMany {names : List Name} {c : Name} :
    c ∈ found.insertMany names ↔ c ∈ found ∨ c ∈ names := by
  rw [Std.ExtTreeSet.mem_insertMany_list, List.contains_iff_mem]

/-- What a rule adds depends on its value if it is contextual. -/
theorem addUnfoldable_eq_ok (h : addUnfoldable ev g found r s = .ok u s') :
    (r.isContextual = false ∧ u = found.insertMany r.pinned) ∨
      ∃ y s₁, r.isContextual = true ∧ ev.ask g r.name s = .ok y s₁ ∧
        ((y.isConstant = true ∧ u = found.insertMany r.pinned) ∨
          (y.isConstant = false ∧
            u = (found.insertMany r.pinned).insertMany (r.name :: r.overridden))) := by
  rw [addUnfoldable] at h
  split at h
  · rename_i hcontextual
    change EStateM.bind (ev.ask g r.name) _ s = _ at h
    rw [EStateM.bind] at h
    cases hask : ev.ask g r.name s with
    | error e s₁ =>
        rw [hask] at h
        cases h
    | ok y s₁ =>
        rw [hask] at h
        dsimp only at h
        refine Or.inr ⟨y, s₁, hcontextual, rfl, ?_⟩
        split at h
        · rename_i hconst
          cases h
          exact Or.inl ⟨hconst, rfl⟩
        · rename_i hvaries
          cases h
          exact Or.inr ⟨Bool.eq_false_iff.mpr hvaries, rfl⟩
  · rename_i hcontextual
    cases h
    exact Or.inl ⟨Bool.eq_false_iff.mpr hcontextual, rfl⟩

/-- A rule adds the names that it makes unfoldable, and it has a value if it is contextual. -/
theorem of_addUnfoldable (hev : ev.Consults oracle)
    (h : addUnfoldable ev g found r s = .ok u s') :
    (∀ c, c ∈ u ↔ c ∈ found ∨ g.Vetoes oracle r c) ∧
      (r.isContextual = true → ∃ y, oracle.value g r.name = .ok y) := by
  rcases addUnfoldable_eq_ok h with ⟨hfalse, rfl⟩ | ⟨y, s₁, hcontextual, hask, hu⟩
  · have hnot : ¬r.isContextual = true := Bool.eq_false_iff.mp hfalse
    refine ⟨fun c => ?_, fun htrue => absurd htrue hnot⟩
    rw [mem_insertMany, vetoes_iff_pinned fun htrue => absurd htrue hnot]
  · have hy := hev.value_of_ask hask
    refine ⟨fun c => ?_, fun _ => ⟨y, hy⟩⟩
    rcases hu with ⟨hconst, rfl⟩ | ⟨hvaries, rfl⟩
    · rw [mem_insertMany, vetoes_iff_pinned fun _ => ⟨y, hy, hconst⟩]
    · rw [mem_insertMany, mem_insertMany, or_assoc, vetoes_iff_of_varies hcontextual hy hvaries]

/-- The unfoldable names are those that a rule makes so, and every contextual rule has a value. -/
theorem of_unfoldable (hev : ev.Consults oracle) (h : g.unfoldable ev s = .ok u s') :
    (∀ c, c ∈ u ↔ ∃ r ∈ g.rules, g.Vetoes oracle r c) ∧
      ∀ r ∈ g.rules, r.isContextual = true → ∃ y, oracle.value g r.name = .ok y := by
  have hall : ∀ (rules : List Rule) (found : NameSet) (s : Session σ),
      rules.foldlM (addUnfoldable ev g) found s = .ok u s' →
      (∀ c, c ∈ u ↔ c ∈ found ∨ ∃ r ∈ rules, g.Vetoes oracle r c) ∧
        ∀ r ∈ rules, r.isContextual = true → ∃ y, oracle.value g r.name = .ok y := by
    intro rules
    induction rules with
    | nil =>
        intro found s h
        cases h
        simp
    | cons r rules ih =>
        intro found s h
        rw [List.foldlM_cons] at h
        change EStateM.bind (addUnfoldable ev g found r) _ s = _ at h
        rw [EStateM.bind] at h
        cases hadd : addUnfoldable ev g found r s with
        | error e s₁ =>
            rw [hadd] at h
            cases h
        | ok found' s₁ =>
            rw [hadd] at h
            obtain ⟨hmem, hvalue⟩ := of_addUnfoldable hev hadd
            obtain ⟨hmems, hvalues⟩ := ih found' s₁ h
            refine ⟨fun c => ?_, List.forall_mem_cons.mpr ⟨hvalue, hvalues⟩⟩
            rw [hmems, hmem, or_assoc, List.exists_mem_cons_iff]
  obtain ⟨hmem, hvalues⟩ := hall g.rules ∅ s h
  refine ⟨fun c => ?_, hvalues⟩
  rw [hmem, or_iff_right Std.ExtTreeSet.not_mem_empty]

/-- If every contextual rule has a value, the unfoldable rules can be told. -/
theorem exists_unfoldable (hev : ev.Consults oracle) (s : Session σ)
    (h : ∀ r ∈ g.rules, r.isContextual = true → ∃ y, oracle.value g r.name = .ok y) :
    ∃ u s', g.unfoldable ev s = .ok u s' := by
  cases hu : g.unfoldable ev s with
  | ok u s' => exact ⟨u, s', rfl⟩
  | error e s' =>
      obtain ⟨r, hr, hcontextual, s₁, s₂, hask⟩ := ask_of_unfoldable hu
      obtain ⟨y, hy⟩ := h r hr hcontextual
      rw [hev.value_of_ask_eq_error hask] at hy
      cases hy

end Graph

/-! ## What stays unfoldable -/

namespace Rule

/-- A rule that pins others pins itself, unless they are members of its enumeration. -/
theorem name_mem_pinned_or {r : Rule} {c : Name} (h : c ∈ r.pinned) :
    r.name ∈ r.pinned ∨ c ∈ r.enumeration.getD [] := by
  rcases List.mem_append.mp h with hreplaces | hmember
  · refine Or.inl (List.mem_append_left _ ?_)
    by_cases hempty : r.replacements.isEmpty = true
    · rw [if_pos hempty] at hreplaces
      cases hreplaces
    · rw [if_neg hempty]
      exact List.mem_cons_self ..
  · exact Or.inr hmember

/-- Only a contextual rule becomes a contextual one. -/
theorem Stems.isContextual {k : Constants} {r r' : Rule} (h : Stems k r r')
    (hr' : r'.isContextual = true) : r.isContextual = true := by
  cases h with
  | filled _ _ => rwa [isContextual_fill] at hr'
  | constant _ _ => cases hr'

end Rule

namespace Graph

variable {opts : Options} {g g' : Graph} {s : Session Unit} {folds : List (Name × Quantity)}
  {st : Folding.Stage} {f : Folding Unit}

/-- The members of all enumerations. -/
def members (g : Graph) : List Name := g.rules.flatMap fun r => r.enumeration.getD []

/-- The interpreter finds all rules unfoldable in `g'` that it finds so in `g`. -/
def KeepsUnfoldable (g g' : Graph) : Prop :=
  ∃ u u' s s', g.unfoldable .interpreter { state := () } = .ok u s ∧
    g'.unfoldable .interpreter { state := () } = .ok u' s' ∧ ∀ c ∈ u, c ∈ u'

/-- A rule that makes names unfoldable still does so in the graph that a run comes to, if it is
unfoldable itself. -/
theorem Records.vetoes {r : Rule} {c : Name}
    (h : g.Records .interpreter opts s folds st f) (hfolds : g.FoldsTo f.graph)
    (hrestore : g.restoreStatus opts.marker = g) (hr : r ∈ g.rules)
    (hself : r.name ∈ f.unfoldable) (hvetoes : g.Vetoes .interpreter r c) :
    ∃ r' ∈ f.graph.rules, f.graph.Vetoes .interpreter r' c := by
  have haccounts := h.accounts
  have hspared := h.spared_of_vetoed ⟨r.name, hself, Relation.ReflTransGen.refl⟩
  rw [hrestore] at haccounts hspared
  obtain ⟨k, -, hr'⟩ := haccounts.get?_of_spared hspared (get?_name_of_mem hr)
  refine ⟨r.fill k, mem_of_get? hr', ?_⟩
  cases hvetoes with
  | pinned hmem => exact .pinned hmem
  | varies hmem hcontextual hvalue hvaries =>
      refine .varies ?_ ?_ ?_ hvaries
      · rw [Rule.overridden_fill]
        exact hmem
      · rw [Rule.isContextual_fill]
        exact hcontextual
      · exact hfolds.evaluate (ofInputs_empty g) (mem_names_of_get? hr') hvalue

/-- Folding with the interpreter keeps what is unfoldable, if contextual blocks stand only at the
root of values, no rule has an internal name, and the members of enumerations are still members. -/
theorem Passes.keepsUnfoldable (h : g.Passes .interpreter opts { state := () } st f)
    (hshallow : g.isShallow = true) (hnames : ∀ n ∈ g.names, n.isInternal = false)
    (hrestore : g.restoreStatus opts.marker = g) (hmembers : ∀ m ∈ g.members, m ∈ f.graph.members) :
    g.KeepsUnfoldable f.graph := by
  have hev := Evaluator.consults_interpreter
  have hfolds := h.foldsTo hshallow hnames
  obtain ⟨s, hu⟩ := h.unfoldable
  rw [hrestore] at hu
  obtain ⟨hmem, hvalues⟩ := of_unfoldable hev hu
  obtain ⟨folds, hrecords⟩ := h.records
  have haccounts := hrecords.accounts
  rw [hrestore] at haccounts
  -- the contextual rules that are left were so before, and had values
  have hvalues' : ∀ r' ∈ f.graph.rules, r'.isContextual = true →
      ∃ y, Oracle.interpreter.value f.graph r'.name = .ok y := by
    intro r' hr' hcontextual
    obtain ⟨r, hr, hstems⟩ := haccounts.stems (get?_name_of_mem hr')
    obtain ⟨y, hy⟩ := hvalues r (mem_of_get? hr) (hstems.isContextual hcontextual)
    rw [name_of_get? hr] at hy
    exact ⟨y, hfolds.evaluate (ofInputs_empty g) (List.mem_map_of_mem hr') hy⟩
  obtain ⟨u', s', hu'⟩ := exists_unfoldable hev { state := () } hvalues'
  refine ⟨f.unfoldable, u', s, s', hu, hu', ?_⟩
  intro c hc
  rw [(of_unfoldable hev hu').1]
  obtain ⟨r, hr, hvetoes⟩ := (hmem c).mp hc
  by_cases hself : g.Vetoes .interpreter r r.name
  · exact hrecords.vetoes hfolds hrestore hr ((hmem _).mpr ⟨r, hr, hself⟩) hvetoes
  · -- only members of an enumeration are made unfoldable by a rule that is not so itself
    cases hvetoes with
    | varies _ hcontextual hvalue hvaries =>
        exact absurd (.varies (List.mem_cons_self ..) hcontextual hvalue hvaries) hself
    | pinned hpinned =>
        rcases Rule.name_mem_pinned_or hpinned with hname | hmember
        · exact absurd (.pinned hname) hself
        · obtain ⟨r', hr', hmember'⟩ :=
            List.mem_flatMap.mp (hmembers c (List.mem_flatMap.mpr ⟨r, hr, hmember⟩))
          exact ⟨r', hr', .pinned (List.mem_append_right _ hmember')⟩

/-! ## Idempotence -/

/-- If no declaration of the graph records a status, none does at any moment of a run. -/
theorem Passes.recordedStatus_eq_none (h : g.Passes .interpreter opts s st f)
    (hrecorded : ∀ r ∈ g.rules, r.recordedStatus opts.marker = none) :
    ∀ r ∈ f.graph.rules, r.recordedStatus opts.marker = none := by
  intro r' hr'
  obtain ⟨folds, hrecords⟩ := h.records
  obtain ⟨r, hr, hframes⟩ := hrecords.accounts.frames (get?_name_of_mem hr')
  rw [Rule.recordedStatus, hframes.declared]
  exact hrecorded r (mem_of_get? hr)

/-- Folding a folded graph gives the same graph, if what was unfoldable still is. -/
theorem Passes.fold_of_keepsUnfoldable (h : g.Passes .interpreter opts { state := () } .done f)
    (hrecorded : ∀ r ∈ g.rules, r.recordedStatus opts.marker = none)
    (hkeeps : g.KeepsUnfoldable f.graph) : f.graph.fold opts = .ok f.graph := by
  obtain ⟨u, u', s, s', hu, hu', hsub⟩ := hkeeps
  obtain ⟨s₁, hunfoldable⟩ := h.unfoldable
  rw [restoreStatus_eq_self hrecorded, hu] at hunfoldable
  obtain ⟨rfl, -⟩ := EStateM.Result.ok.inj hunfoldable
  have hrest := (h.atRest Evaluator.consults_interpreter).mono hsub
  obtain ⟨s₂, hwith⟩ := foldWith_of_atRest Evaluator.consults_interpreter
    (h.recordedStatus_eq_none hrecorded) hu' hrest
  rw [fold, hwith]

/-- Folding is idempotent, if no status was recorded and what was unfoldable still is when the graph
is folded again.  This holds if contextual blocks stand only at the root of values, no rule has an
internal name, and the members of enumerations are still members in the folded graph. -/
theorem fold_idempotent (hrecorded : ∀ r ∈ g.rules, r.recordedStatus opts.marker = none)
    (hfold : g.fold opts = .ok g') :
    (g.KeepsUnfoldable g' → g'.fold opts = .ok g') ∧
      (g.isShallow = true → (∀ n ∈ g.names, n.isInternal = false) →
        (∀ m ∈ g.members, m ∈ g'.members) → g'.fold opts = .ok g') := by
  obtain ⟨s, hwith⟩ := foldWith_of_fold hfold
  obtain ⟨f, hpasses, rfl⟩ := passes_of_foldWith hwith
  refine ⟨hpasses.fold_of_keepsUnfoldable hrecorded, ?_⟩
  intro hshallow hnames hmembers
  exact hpasses.fold_of_keepsUnfoldable hrecorded
    (hpasses.keepsUnfoldable hshallow hnames (restoreStatus_eq_self hrecorded) hmembers)

/-- The mixture is all that is kept of the palette, with what it depends on and the input.  Folding
again changes nothing. -/
theorem fold_idempotent_palette :
    ∃ g', palette.fold { keep := some fun r => r.name.text == "mixture" } = .ok g' ∧
      g'.names = [⟨"mixture", 1⟩, ⟨"paint", 2⟩, ⟨"paint . red", 3⟩] ∧
      g'.fold { keep := some fun r => r.name.text == "mixture" } = .ok g' := by
  have hrun : (palette.fold { keep := some fun r => r.name.text == "mixture" }).toOption.any
      (fun g' => g'.names = [⟨"mixture", 1⟩, ⟨"paint", 2⟩, ⟨"paint . red", 3⟩] ∧
        ∀ m ∈ palette.members, m ∈ g'.members) = true := by decide +kernel
  obtain ⟨g', hfold, hg'⟩ := exists_fold_of_any hrun
  obtain ⟨hnames, hmembers⟩ := of_decide_eq_true hg'
  refine ⟨g', hfold, hnames, ?_⟩
  exact (fold_idempotent (by decide +kernel) hfold).2 (by decide +kernel) (by decide +kernel)
    hmembers

/-- A dish with a value of its own, which lists a soup as its only member. -/
def menu : Graph where
  rules := [
    { name := ⟨"dish", 0⟩, expr := some (.const { value := .bool true }),
      enumeration := some [⟨"dish . soup", 1⟩] },
    { name := ⟨"dish . soup", 1⟩, expr := some (.const { value := .bool false }) }]
  increasing := by decide

/-- A plan for a trip in the rain, which is a block within another one. -/
def outing : Graph where
  rules := [
    { name := ⟨"plan", 0⟩,
      expr := some (.contextual
        (.contextual (.ref ⟨"trip", 3⟩) [(⟨"rain", 1⟩, .const { value := .bool true })])
        [(⟨"season", 2⟩, .const { value := .bool true })]) },
    { name := ⟨"rain", 1⟩, expr := some (.const { value := .bool false }) },
    { name := ⟨"season", 2⟩, expr := some (.const { value := .bool true }) },
    { name := ⟨"trip", 3⟩,
      expr := some (.cond (.ref ⟨"rain", 1⟩) (.ref ⟨"umbrella", 4⟩)
        (.const { value := .bool true })) },
    { name := ⟨"umbrella", 4⟩, question := some "Is there an umbrella?" }]
  increasing := by decide

/-- An offer in a season, which depends on an input and on a rule with an internal name. -/
def offers : Graph where
  rules := [
    { name := ⟨"$rate", 0⟩, expr := some (.const { value := .bool true }) },
    { name := ⟨"member", 1⟩, question := some "Is this a member?" },
    { name := ⟨"offer", 2⟩,
      expr := some (.contextual (.all [.ref ⟨"$rate", 0⟩, .ref ⟨"member", 1⟩])
        [(⟨"season", 3⟩, .const { value := .bool true })]) },
    { name := ⟨"season", 3⟩, expr := some (.const { value := .bool false }) }]
  increasing := by decide

/-- None of the conditions can be left out.  The dish of the menu is deleted, and then the soup is
no member any more.  The trip of the outing is folded as if it did not rain, and then the plan is
constant.  The rate of the offers is deleted, and then the offer has no value. -/
theorem fold_not_idempotent :
    (∃ g' g'', menu.fold {} = .ok g' ∧ g'.fold {} = .ok g'' ∧
      g'.names = [⟨"dish . soup", 1⟩] ∧ g''.names = []) ∧
    (∃ g' g'', outing.fold {} = .ok g' ∧ g'.fold {} = .ok g'' ∧
      ⟨"rain", 1⟩ ∈ g'.names ∧ ⟨"rain", 1⟩ ∉ g''.names) ∧
    ∃ g' e, offers.fold {} = .ok g' ∧ g'.fold {} = .error e := by
  have htwice : ∀ {g : Graph} {p : Graph → Graph → Bool},
      (g.fold {}).toOption.any (fun g' => (g'.fold {}).toOption.any (p g')) = true →
      ∃ g' g'', g.fold {} = .ok g' ∧ g'.fold {} = .ok g'' ∧ p g' g'' = true := by
    intro g p h
    obtain ⟨g', hfold, h⟩ := exists_fold_of_any h
    obtain ⟨g'', hfold', h⟩ := exists_fold_of_any h
    exact ⟨g', g'', hfold, hfold', h⟩
  refine ⟨?_, ?_, ?_⟩
  · obtain ⟨g', g'', h, h', hnames⟩ := htwice (g := menu) (p := fun g' g'' =>
      g'.names = [⟨"dish . soup", 1⟩] ∧ g''.names = []) (by decide +kernel)
    exact ⟨g', g'', h, h', of_decide_eq_true hnames⟩
  · obtain ⟨g', g'', h, h', hnames⟩ := htwice (g := outing) (p := fun g' g'' =>
      ⟨"rain", 1⟩ ∈ g'.names ∧ ⟨"rain", 1⟩ ∉ g''.names) (by decide +kernel)
    exact ⟨g', g'', h, h', of_decide_eq_true hnames⟩
  · have hrun : (offers.fold {}).toOption.any (fun g' => (g'.fold {}).toOption.isNone) = true := by
      decide +kernel
    obtain ⟨g', hfold, hnone⟩ := exists_fold_of_any hrun
    cases hfold' : g'.fold {} with
    | error e => exact ⟨g', e, hfold, hfold'⟩
    | ok g'' =>
        rw [hfold'] at hnone
        cases hnone

end Graph

end RuleGraph
