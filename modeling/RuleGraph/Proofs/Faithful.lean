import Mathlib.Data.List.Nodup
import RuleGraph.Proofs.Changes
import RuleGraph.Proofs.Preservation

/-! # Folding is faithful

    Folding with the interpreter neither changes what rules evaluate to nor
    fails where evaluation does not.  The heart of it is that a rule is folded
    only if its value does not depend on where it is evaluated: the rules it
    depends on are overridden by itself at most, so no scope that is open
    elsewhere can reach them, and a value that was found without missing inputs
    is that of every situation (`eq_of_meaning_of_isFoldable`).

    Along a run the rules of the graph descend from those it began with
    (`Graph.Descends`), and each change keeps what evaluates
    (`Folding.Change.evaluate`).  Since evaluation never fails on the way, and
    references to different rules have different texts, folding has no reason
    to fail either. -/

namespace RuleGraph

/-! ## Rules that descend from others -/

/-- The second rule is what folding can make of the first one. -/
structure Rule.Descends (r r' : Rule) : Prop where
  isAsked : r'.isAsked = r.isAsked
  dependencies : ∀ d ∈ r'.dependencies, d ∈ r.dependencies
  isShallow : r.isShallow = true → r'.isShallow = true

namespace Rule

theorem Descends.refl (r : Rule) : r.Descends r := ⟨rfl, fun _ => id, id⟩

theorem Descends.trans {r r' r'' : Rule} (h : r.Descends r') (h' : r'.Descends r'') :
    r.Descends r'' where
  isAsked := h'.isAsked.trans h.isAsked
  dependencies d hd := h.dependencies d (h'.dependencies d hd)
  isShallow hr := h'.isShallow (h.isShallow hr)

/-- A rule that the user is not asked for can become a constant. -/
theorem descends_setConstant {r : Rule} (h : r.isAsked = false) (q : Quantity) :
    r.Descends { r with expr := some (.const q) } where
  isAsked := by
    have hinput : r.isInput = false := (Bool.or_eq_false_iff.mp h).1
    rw [h]
    exact isAsked_eq_false hinput rfl
  dependencies _ := mem_dependencies_of_setConstant
  isShallow hr := (Bool.and_eq_true_iff.mp hr).2

/-- A constant can be filled into any rule. -/
theorem descends_subst (r : Rule) (target : Name) (q : Quantity) :
    r.Descends (r.subst target (.const q)) where
  isAsked := isAsked_subst r target (.const q)
  dependencies _ := mem_dependencies_of_subst
  isShallow hr := by
    obtain ⟨hexpr, hdefault⟩ := Bool.and_eq_true_iff.mp hr
    refine Bool.and_eq_true_iff.mpr ⟨?_, ?_⟩
    · show (r.expr.map (Expr.subst target (.const q))).all Expr.isShallow = true
      rw [Option.all_map]
      simpa only [Function.comp_def, Expr.isShallow_subst_const] using hexpr
    · have hblocks : ∀ e, (Expr.subst target (.const q) e).blocks = e.blocks :=
        Expr.blocks_subst rfl
      show (r.default.map (Expr.subst target (.const q))).all (fun e => e.blocks.isEmpty) = true
      rw [Option.all_map]
      simpa only [Function.comp_def, hblocks] using hdefault

end Rule

namespace Graph

variable {g g' g'' : Graph} {n : Name} {s : Situation}

/-- Every rule of the second graph descends from the rule of its name in the first one. -/
def Descends (g g' : Graph) : Prop :=
  ∀ (n : Name) (r' : Rule), g'.get? n = some r' → ∃ r, g.get? n = some r ∧ r.Descends r'

theorem Descends.refl (g : Graph) : g.Descends g := fun _ r hr => ⟨r, hr, Rule.Descends.refl r⟩

theorem Descends.trans (h : g.Descends g') (h' : g'.Descends g'') : g.Descends g'' := by
  intro n r'' hr''
  obtain ⟨r', hr', hdesc'⟩ := h' n r'' hr''
  obtain ⟨r, hr, hdesc⟩ := h n r' hr'
  exact ⟨r, hr, hdesc.trans hdesc'⟩

theorem descends_erase (g : Graph) (n : Name) : g.Descends (g.erase n) := fun _ r hr =>
  ⟨r, (get?_erase_eq_some.mp hr).2, Rule.Descends.refl r⟩

/-- Changing a rule to one that descends from it gives a graph that descends from the first one. -/
theorem descends_modify {f : Rule → Rule} (h : ∀ r, g.get? n = some r → r.Descends (f r)) :
    g.Descends (g.modify n f) := by
  intro p r' hr'
  obtain ⟨r, hr, rfl⟩ := get?_modify_eq_some.mp hr'
  refine ⟨r, hr, ?_⟩
  by_cases hp : p = n
  · subst hp
    rw [if_pos rfl]
    have hdesc := h r hr
    exact ⟨hdesc.isAsked, hdesc.dependencies, hdesc.isShallow⟩
  · rw [if_neg hp]
    exact Rule.Descends.refl r

/-- A situation of inputs stays one for the graphs that descend from a graph. -/
theorem Descends.ofInputs (h : g.Descends g') (hs : g.OfInputs s) : g'.OfInputs s := by
  intro n e he
  obtain ⟨hconst, hasked⟩ := hs n e he
  refine ⟨hconst, ?_⟩
  intro r' hr'
  obtain ⟨r, hr, hdesc⟩ := h n r' hr'
  rw [hdesc.isAsked]
  exact hasked r hr

/-- Blocks that stand at the root only still do so afterwards. -/
theorem Descends.isShallow (h : g.Descends g') (hshallow : g.isShallow = true) :
    g'.isShallow = true := by
  refine List.all_eq_true.mpr ?_
  intro r' hr'
  obtain ⟨r, hr, hdesc⟩ := h r'.name r' (get?_name_of_mem hr')
  exact hdesc.isShallow (isShallow_of_get? hshallow hr)

theorem Descends.mem_names (h : g.Descends g') (hn : n ∈ g'.names) : n ∈ g.names := by
  obtain ⟨r', hr'⟩ := mem_names_iff.mp hn
  obtain ⟨r, hr, -⟩ := h n r' hr'
  exact mem_names_of_get? hr

end Graph

/-! ## Values that hold everywhere -/

/-- A constant evaluation is its quantity, with nothing missing and null ruled out. -/
theorem Evaluation.eq_of_isConstant {y : Evaluation} (h : y.isConstant = true) :
    y = { y.toQuantity with } := by
  obtain ⟨hmissing, hnullable⟩ := Bool.and_eq_true_iff.mp h
  have hmissing : y.missing = ∅ := Std.ExtTreeSet.isEmpty_iff.mp hmissing
  have hnullable : y.nullable = false := by simpa using hnullable
  obtain ⟨q, missing, nullable⟩ := y
  cases hmissing
  cases hnullable
  rfl

/-- What a session is told is the answer of its evaluator. -/
theorem Evaluator.result_of_ask {σ : Type} {ev : Evaluator σ} {g : Graph} {n : Name}
    {y : Evaluation} {s s' : Session σ} (h : ev.ask g n s = .ok y s') :
    (ev.evaluate g n s.state).result = .ok y := by
  rw [Evaluator.ask] at h
  split at h
  · rename_i hresult
    cases h
    exact hresult
  · cases h

theorem Evaluator.result_of_ask_eq_error {σ : Type} {ev : Evaluator σ} {g : Graph} {n : Name}
    {e : EvalError} {s s' : Session σ} (h : ev.ask g n s = .error e s') :
    (ev.evaluate g n s.state).result = .error e := by
  rw [Evaluator.ask] at h
  split at h
  · cases h
  · rename_i hresult
    cases h
    exact hresult

/-- The interpreter answers with the value of the rule in the default situation. -/
theorem Evaluator.evaluate_of_ask {g : Graph} {n : Name} {y : Evaluation} {s s' : Session Unit}
    (h : Evaluator.interpreter.ask g n s = .ok y s') : g.evaluate n = .ok y :=
  result_of_ask h

theorem Evaluator.evaluate_of_ask_eq_error {g : Graph} {n : Name} {e : EvalError}
    {s s' : Session Unit} (h : Evaluator.interpreter.ask g n s = .error e s') :
    g.evaluate n = .error e :=
  result_of_ask_eq_error h

namespace Folding

variable {σ : Type} {opts : Options} {f : Folding σ} {n : Name} {s : Situation}

/-- What the body of a rule refers to can be reached along the index, as far as it is a rule. -/
theorem leads_of_active (hf : f.refs.Tracks f.graph none)
    (hnames : ∀ m ∈ f.graph.names, m.isInternal = false) {p d : Name} {e : Expr}
    (hp : f.refs.children.Leads n p) (he : f.graph.active ∅ p = some e) (hd : d ∈ e.references)
    (hbound : d ∈ f.graph.bound ∅) : f.refs.children.Leads n d := by
  have hd' : d ∈ f.graph.names := by simpa [Graph.bound] using hbound
  obtain ⟨r, hr, hbody⟩ : ∃ r, f.graph.get? p = some r ∧ r.body = some e := by
    simpa [Graph.active, Option.bind_eq_some_iff] using he
  by_cases hself : d = p
  · rw [hself]
    exact hp
  · refine Relation.ReflTransGen.tail hp (hf.complete ⟨r, hr, Rule.mem_links.mpr ⟨?_, ?_, ?_⟩⟩)
    · exact Rule.mem_dependencies_of_references (Rule.mem_references_of_body hbody hd)
    · rw [Graph.name_of_get? hr]
      exact hself
    · exact hnames d hd'

/-- The value of a foldable rule, if it was found without missing inputs, is that of the rule
wherever it evaluates. -/
theorem eq_of_meaning_of_isFoldable (hf : f.UpToDate none) (hfoldable : f.isFoldable opts n = true)
    (hnames : ∀ m ∈ f.graph.names, m.isInternal = false) (hs : f.graph.OfInputs s)
    {y z : Evaluation} (hy : f.graph.evaluate n = .ok y) (hconst : y.isConstant = true)
    {stack : List Name} {scope : Scope} (hstack : n ∉ stack) (hopen : f.graph.Opened stack scope)
    (hz : f.graph.meaning s stack scope n = .ok z) : z = y := by
  have hext : f.graph.Extends ∅ s :=
    ⟨fun m e he => absurd he (by simp), fun m e r _ he hr => (hs m e he).2 r hr⟩
  -- no scope that is open elsewhere reaches the rules that this one depends on
  have hscope : f.graph.ScopesAgree ∅ (f.refs.children.Leads n) ∅ scope := by
    refine ⟨fun c q hc => absurd hc (by simp), ?_⟩
    intro c hc _ _
    refine hopen.eq_none ?_
    intro p hp hpc
    rw [overrider_eq_of_isFoldable hf.covers hfoldable hc (hf.covers.overriders hpc)] at hp
    exact hstack hp
  have hfollows : Follows (Evaluation.Within fun m => s[m]? = (∅ : Situation)[m]?)
      (fun _ => True) (f.graph.meaning ∅ [] ∅ n) (f.graph.meaning s stack scope n) :=
    Graph.meaning_follows_extension hext (leads_of_active hf.tracks hnames)
      (fun _ => Relation.ReflTransGen.refl) hscope (fun _ _ _ => trivial)
  have hmissing : y.missing = ∅ :=
    Std.ExtTreeSet.isEmpty_iff.mp (Bool.and_eq_true_iff.mp hconst).1
  rcases hfollows y hy (by simp [Evaluation.Within, hmissing]) with hok | ⟨e, he, -⟩
  · exact Except.ok.inj (hz.symm.trans hok)
  · rw [hz] at he
    cases he

/-! ## What a change keeps -/

/-- A rule with a constant value in the default situation is not one that the user is asked for. -/
theorem isAsked_eq_false_of_evaluate {g : Graph} {r : Rule} {y : Evaluation}
    (hr : g.get? n = some r) (hy : g.evaluate n = .ok y) (hconst : y.isConstant = true) :
    r.isAsked = false := by
  have hbody : g.evaluate n = r.evalBody (g.meaning ∅ [n]) ∅ :=
    Graph.meaning_of_rule List.not_mem_nil (by simp) (by simp) hr
  cases hasked : r.isAsked with
  | false => rfl
  | true =>
      have hmem := Rule.mem_missing_of_isAsked hasked (hbody.symm.trans hy)
      rw [Evaluation.eq_of_isConstant hconst] at hmem
      exact absurd hmem Std.ExtTreeSet.not_mem_empty

variable {f : Folding Unit} {st st' : Stage} {g' : Graph}

/-- After a change by the interpreter, every rule descends from what it was. -/
theorem Change.descends (h : Change .interpreter opts f st st' g') : f.graph.Descends g' := by
  cases h with
  | same | leave => exact Graph.Descends.refl _
  | constant _ _ hask hconst =>
      refine Graph.descends_modify ?_
      intro r hr
      have hy := Evaluator.evaluate_of_ask hask
      exact Rule.descends_setConstant (isAsked_eq_false_of_evaluate hr hy hconst) _
  | @copy _ n _ q _ r _ _ _ hr =>
      obtain ⟨status, hstatus⟩ := Rule.markReplaced_eq (r.subst n (.const q)) _
      rw [hstatus]
      refine Graph.descends_modify ?_
      intro s hs
      obtain rfl : r = s := Option.some.inj (hr.symm.trans hs)
      have hdesc := Rule.descends_subst r n q
      exact ⟨hdesc.isAsked, hdesc.dependencies, hdesc.isShallow⟩
  | remove => exact Graph.descends_erase _ _
  | mark =>
      refine Graph.descends_modify ?_
      intro r _
      exact ⟨rfl, fun _ => id, id⟩

/-- A change by the interpreter keeps what evaluates, in every situation of inputs. -/
theorem Change.evaluate (h : Change .interpreter opts f st st' g')
    (hshallow : f.graph.isShallow = true)
    (hnames : ∀ m ∈ f.graph.names, m.isInternal = false) (hs : f.graph.OfInputs s)
    (hn : n ∈ g'.names) {y : Evaluation} (hy : f.graph.evaluate n s = .ok y) :
    g'.evaluate n s = .ok y := by
  cases h with
  | same | leave => exact hy
  | @constant p y' _ _ _ _ hf hdue hask hconst =>
      obtain ⟨r, hr, -, hinput, -⟩ := isFoldable_iff.mp hdue.2
      -- the value was found in the default situation, and is that of all others
      refine (Graph.meaning_setConstant hshallow hs hr hinput ?_).evaluate trivial hy
      intro stack scope z hstack hopen hz
      rw [← Evaluation.eq_of_isConstant hconst]
      exact eq_of_meaning_of_isFoldable hf hdue.2 hnames hs (Evaluator.evaluate_of_ask hask)
        hconst hstack hopen hz
  | @copy _ p _ q _ r hconst hover _ hr =>
      obtain ⟨status, hstatus⟩ := Rule.markReplaced_eq (r.subst p (.const q)) _
      rw [hstatus]
      exact (Graph.meaning_subst hshallow hs hconst hover hr status).evaluate trivial hy
  | @remove _ _ p _ _ _ hfoldable _ _ hlink =>
      have hnp : n ≠ p := by
        obtain ⟨r, hr⟩ := Graph.mem_names_iff.mp hn
        exact (Graph.get?_erase_eq_some.mp hr).1
      have hinternal := hnames p (Graph.mem_names_of_get? hfoldable.rule)
      exact (Graph.meaning_erase hshallow hs hinternal hlink).evaluate hnp hy
  | mark =>
      rw [Graph.evaluate, Graph.modify, Graph.meaning_map]
      · exact hy
      · intro r
        split
        · rfl
        · rfl

end Folding

namespace Graph

variable {g g' : Graph} {opts : Options} {n : Name}

/-! ## What folding keeps -/

/-- The rules of the second graph descend from those of the first one, and keep what evaluates in
situations of inputs. -/
structure FoldsTo (g g' : Graph) : Prop where
  descends : g.Descends g'
  evaluate : ∀ {s n y}, g.OfInputs s → n ∈ g'.names → g.evaluate n s = .ok y →
    g'.evaluate n s = .ok y

/-- Restoring statuses keeps what evaluates. -/
theorem foldsTo_restoreStatus (g : Graph) (marker : String) :
    g.FoldsTo (g.restoreStatus marker) where
  descends := by
    intro n r' hr'
    rw [restoreStatus, get?_map, Option.map_eq_some_iff] at hr'
    obtain ⟨r, hr, rfl⟩ := hr'
    exact ⟨r, hr, rfl, fun _ => id, id⟩
  evaluate := by
    intro s n y _ _ hy
    rw [Graph.evaluate, restoreStatus, meaning_map]
    · exact hy
    · exact fun r => rfl

/-- A change keeps what evaluates in a graph of shallow rules without internal names. -/
theorem FoldsTo.change {f : Folding Unit} {st st' : Folding.Stage} (h : g.FoldsTo f.graph)
    (hshallow : g.isShallow = true) (hnames : ∀ n ∈ g.names, n.isInternal = false)
    (hchange : Folding.Change .interpreter opts f st st' g') : g.FoldsTo g' where
  descends := h.descends.trans hchange.descends
  evaluate hs hn hy := by
    refine hchange.evaluate (h.descends.isShallow hshallow) ?_ (h.descends.ofInputs hs) hn
      (h.evaluate hs (hchange.descends.mem_names hn) hy)
    exact fun m hm => hnames m (h.descends.mem_names hm)

/-- At every moment of folding with the interpreter, the graph is one that it folds to. -/
theorem Passes.foldsTo {s : Session Unit} {st : Folding.Stage} {f : Folding Unit}
    (h : g.Passes .interpreter opts s st f) (hshallow : g.isShallow = true)
    (hnames : ∀ n ∈ g.names, n.isInternal = false) : g.FoldsTo f.graph :=
  h.graph_invariant (foldsTo_restoreStatus g opts.marker)
    fun hchange hf => hf.change hshallow hnames hchange

/-- Folding keeps the meaning of rules: whatever a remaining rule evaluates to in a situation of
inputs, it still evaluates to, if contextual blocks stand only at the root of values and no rule
has an internal name. -/
theorem evaluate_of_fold (hshallow : g.isShallow = true)
    (hnames : ∀ n ∈ g.names, n.isInternal = false) (hfold : g.fold opts = .ok g')
    (hn : n ∈ g'.names) {s : Situation} (hs : g.OfInputs s) {y : Evaluation}
    (hy : g.evaluate n s = .ok y) : g'.evaluate n s = .ok y := by
  obtain ⟨s', hwith⟩ := foldWith_of_fold hfold
  obtain ⟨f, hpasses, rfl⟩ := passes_of_foldWith hwith
  exact (hpasses.foldsTo hshallow hnames).evaluate hs hn hy

/-- A price that depends on an input, on a constant, and on a rule that a quote overrides. -/
def tariff : Graph where
  rules := [
    { name := ⟨"base", 0⟩, expr := some (.const { value := .bool false }) },
    { name := ⟨"discount", 1⟩, question := some "Is there a discount?",
      default := some (.const { value := .bool false }) },
    { name := ⟨"price", 2⟩,
      expr := some (.all [.ref ⟨"base", 0⟩, .ref ⟨"discount", 1⟩, .ref ⟨"rate", 4⟩]) },
    { name := ⟨"quote", 3⟩,
      expr := some (.contextual (.ref ⟨"price", 2⟩) [(⟨"base", 0⟩, .ref ⟨"rate", 4⟩)]) },
    { name := ⟨"rate", 4⟩, expr := some (.const { value := .bool true }) }]
  increasing := by decide

/-- The situation with a discount. -/
def discounted : Situation :=
  (∅ : Situation).insert ⟨"discount", 1⟩ (.const { value := .bool true })

/-- The discount is an input of the tariff. -/
theorem ofInputs_discounted : tariff.OfInputs discounted := by
  intro n e he
  rw [discounted, Std.ExtTreeMap.getElem?_insert] at he
  split at he
  · rename_i hn
    cases he
    refine ⟨rfl, ?_⟩
    rw [← Std.LawfulEqOrd.eq_of_compare hn]
    intro r hr
    have hasked : (tariff.get? ⟨"discount", 1⟩).all Rule.isAsked = true := by decide +kernel
    rw [hr] at hasked
    exact hasked
  · simp at he

/-- The quote keeps its value when the tariff is folded, where the rate is copied into the price. -/
theorem evaluate_quote_of_fold_tariff :
    ∃ g', tariff.fold {} = .ok g' ∧ ⟨"rate", 4⟩ ∉ g'.names ∧
      tariff.evaluate ⟨"quote", 3⟩ discounted = .ok { value := .bool true } ∧
      g'.evaluate ⟨"quote", 3⟩ discounted = .ok { value := .bool true } := by
  have hrest : (tariff.fold {}).toOption.any
      (fun g' => ⟨"rate", 4⟩ ∉ g'.names ∧ ⟨"quote", 3⟩ ∈ g'.names) = true := by decide +kernel
  have hy : tariff.evaluate ⟨"quote", 3⟩ discounted = .ok { value := .bool true } := by
    decide +kernel
  cases hfold : tariff.fold {} with
  | error e =>
      rw [hfold] at hrest
      cases hrest
  | ok g' =>
      rw [hfold] at hrest
      obtain ⟨hrate, hquote⟩ := of_decide_eq_true hrest
      exact ⟨g', rfl, hrate, hy, evaluate_of_fold (by decide +kernel) (by decide +kernel) hfold
        hquote ofInputs_discounted hy⟩

/-! ## No failure -/

/-- Looking for unfoldable rules fails only where the value of a contextual rule is asked for. -/
theorem ask_of_addUnfoldable {σ : Type} {ev : Evaluator σ} {found : NameSet} {r : Rule}
    {s s' : Session σ} {e : EvalError} (h : addUnfoldable ev g found r s = .error e s') :
    r.isContextual = true ∧ ev.ask g r.name s = .error e s' := by
  rw [addUnfoldable] at h
  split at h
  · rename_i hcontextual
    change EStateM.bind (ev.ask g r.name) _ s = _ at h
    rw [EStateM.bind] at h
    cases hask : ev.ask g r.name s with
    | error e' s₁ =>
        rw [hask] at h
        cases h
        exact ⟨hcontextual, rfl⟩
    | ok y s₁ =>
        rw [hask] at h
        dsimp only at h
        split at h
        · cases h
        · cases h
  · cases h

/-- If the unfoldable rules cannot be told, the evaluator has no answer for a contextual rule. -/
theorem ask_of_unfoldable {σ : Type} {ev : Evaluator σ} {s s' : Session σ} {e : EvalError}
    (h : g.unfoldable ev s = .error e s') :
    ∃ r ∈ g.rules, r.isContextual = true ∧ ∃ s₁ s₂, ev.ask g r.name s₁ = .error e s₂ := by
  have hall : ∀ (rules : List Rule) (found : NameSet) (s : Session σ),
      rules.foldlM (addUnfoldable ev g) found s = .error e s' →
      ∃ r ∈ rules, r.isContextual = true ∧ ∃ s₁ s₂, ev.ask g r.name s₁ = .error e s₂ := by
    intro rules
    induction rules with
    | nil => exact fun found s h => nomatch h
    | cons r rules ih =>
        intro found s h
        rw [List.foldlM_cons] at h
        change EStateM.bind (addUnfoldable ev g found r) _ s = _ at h
        rw [EStateM.bind] at h
        cases hadd : addUnfoldable ev g found r s with
        | ok found' s₁ =>
            rw [hadd] at h
            obtain ⟨r', hr', hask⟩ := ih found' s₁ h
            exact ⟨r', List.mem_cons_of_mem r hr', hask⟩
        | error e' s₁ =>
            rw [hadd] at h
            cases h
            obtain ⟨hcontextual, hask⟩ := ask_of_addUnfoldable hadd
            exact ⟨r, List.mem_cons_self .., hcontextual, s, s', hask⟩
  exact hall g.rules ∅ s h

/-- If all dependencies are rules, no reference is spelled like a rule without being that rule. -/
theorem Descends.clear {g' : Graph} {n p : Name} {r : Rule} (h : g.Descends g')
    (hdeps : ∀ r ∈ g.rules, ∀ d ∈ r.dependencies, d ∈ g.names) (hn : n ∈ g'.names)
    (hr : g'.get? p = some r) : Expr.Clear n r.references := by
  intro m hm htext
  obtain ⟨t, ht, hdesc⟩ := h p r hr
  have hd := hdesc.dependencies m (Rule.mem_dependencies_of_references hm)
  exact eq_of_text_eq (hdeps t (mem_of_get? ht) m hd) (h.mem_names hn) htext

/-- If all rules evaluate, the unfoldable ones can be told. -/
theorem unfoldable_ne_error {s s' : Session Unit} {e : EvalError}
    (heval : ∀ n ∈ g.names, ∃ y, g.evaluate n = .ok y) :
    g.unfoldable .interpreter s ≠ .error e s' := by
  intro hu
  obtain ⟨r, hr, -, s₁, s₂, hask⟩ := ask_of_unfoldable hu
  obtain ⟨y, hy⟩ := heval r.name (mem_names_of_get? (get?_name_of_mem hr))
  rw [Evaluator.evaluate_of_ask_eq_error hask] at hy
  cases hy

/-- No stage fails where all rules evaluate, if the dependencies of the rules they descend from are
rules. -/
theorem Passes.not_fault {s : Session Unit} {st : Folding.Stage} {f f' : Folding Unit}
    {e : FoldError} (h : g.Passes .interpreter opts s st f) (hdescends : g.Descends f.graph)
    (hdeps : ∀ r ∈ g.rules, ∀ d ∈ r.dependencies, d ∈ g.names)
    (heval : ∀ n ∈ f.graph.names, ∃ y, f.graph.evaluate n = .ok y) :
    ¬Folding.Fault .interpreter opts (st, f) e f' := by
  intro hfault
  cases hfault with
  | ask hdue _ hask =>
      obtain ⟨r, hr, -⟩ := Folding.isFoldable_iff.mp hdue.2
      obtain ⟨e', s₁, hask⟩ := Folding.ask_eq_error hask
      obtain ⟨y, hy⟩ := heval _ (mem_names_of_get? hr)
      rw [Evaluator.evaluate_of_ask_eq_error hask] at hy
      cases hy
  | @copy _ _ _ n q p ps _ hsub =>
      -- a clash is a reference with the text of the target that is not the target
      obtain ⟨r, clash, hr, hrep⟩ := Folding.substituteIn_eq_error hsub
      obtain ⟨-, ⟨t, ht, -⟩, -⟩ := h.consistent
      have hclear := hdescends.clear hdeps (mem_names_of_get? ht) hr
      obtain ⟨count, hok⟩ := Rule.replace_of_clear hclear (.const q)
      rw [hrep] at hok
      cases hok

/-- Folding succeeds, if contextual blocks stand only at the root of values, no rule has an
internal name, all dependencies are rules, and all rules evaluate; and so do all rules of the graph
at every moment on the way. -/
theorem exists_fold_eq_ok (opts : Options) (hshallow : g.isShallow = true)
    (hnames : ∀ n ∈ g.names, n.isInternal = false)
    (hdeps : ∀ r ∈ g.rules, ∀ d ∈ r.dependencies, d ∈ g.names)
    (heval : ∀ n ∈ g.names, ∃ y, g.evaluate n = .ok y) :
    (∃ g', g.fold opts = .ok g') ∧
      ∀ st f, g.Passes .interpreter opts { state := () } st f →
        ∀ n ∈ f.graph.names, ∃ y, f.graph.evaluate n = .ok y := by
  have hok : ∀ {h : Graph}, g.FoldsTo h → ∀ n ∈ h.names, ∃ y, h.evaluate n = .ok y := by
    intro h hfolds n hn
    obtain ⟨y, hy⟩ := heval n (hfolds.descends.mem_names hn)
    exact ⟨y, hfolds.evaluate (ofInputs_empty g) hn hy⟩
  refine ⟨?_, fun st f hpasses => hok (hpasses.foldsTo hshallow hnames)⟩
  rw [fold]
  cases hwith : g.foldWith .interpreter opts { state := () } with
  | ok g' s' => exact ⟨g', rfl⟩
  | error e s' =>
      exfalso
      rcases fault_of_foldWith hwith with ⟨e', hu⟩ | ⟨st, f, f', hpasses, hfault⟩
      · exact unfoldable_ne_error (hok (foldsTo_restoreStatus g opts.marker)) hu
      · have hfolds := hpasses.foldsTo hshallow hnames
        exact hpasses.not_fault hfolds.descends hdeps (hok hfolds) hfault

/-- The tariff can be folded while all prices are avoided. -/
theorem exists_fold_tariff_eq_ok :
    (∃ g', tariff.fold { avoid := some fun r => r.name.text == "price" } = .ok g') ∧
      ∀ st f, tariff.Passes .interpreter { avoid := some fun r => r.name.text == "price" }
        { state := () } st f → ∀ n ∈ f.graph.names, ∃ y, f.graph.evaluate n = .ok y := by
  refine exists_fold_eq_ok _ (by decide +kernel) (by decide +kernel) (by decide +kernel) ?_
  have hall : ∀ n ∈ tariff.names, (tariff.evaluate n).toOption.isSome = true := by decide +kernel
  intro n hn
  have hsome := hall n hn
  cases hy : tariff.evaluate n with
  | ok y => exact ⟨y, rfl⟩
  | error e =>
      rw [hy] at hsome
      cases hsome

end Graph

end RuleGraph
