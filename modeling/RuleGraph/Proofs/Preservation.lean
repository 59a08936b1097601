import RuleGraph.Proofs.Meaning
import RuleGraph.Proofs.Tracking

/-! # Changes that keep the meaning

    A contextual block evaluates other rules below a scope, so a change of one
    rule has to be harmless in all scopes that can be open when the rule is met.
    `Graph.Opened` says which these are: everything in a scope was overridden by
    a rule that is under evaluation.  Below such scopes three changes keep what
    evaluates:

    * a rule becomes the constant that it evaluates to everywhere
      (`meaning_setConstant`);
    * a constant that is never overridden is substituted in another rule
      (`meaning_subst`);
    * a rule is removed that no other rule refers to (`meaning_erase`).

    All three go through `meaning_keeps`, which reduces them to the body of a
    single rule. -/

namespace RuleGraph

/-- What evaluates, evaluates to the same in the second place. -/
abbrev Keeps (x x' : Except EvalError Evaluation) : Prop :=
  Follows (Evaluation.Within fun _ => True) (fun _ => False) x x'

/-- To keep what evaluates is to return whatever was returned before. -/
theorem keeps_iff {x x' : Except EvalError Evaluation} :
    Keeps x x' ↔ ∀ y, x = .ok y → x' = .ok y := by
  constructor
  · intro h y hy
    rcases h y hy (fun _ _ => trivial) with h | ⟨_, _, h⟩
    · exact h
    · exact h.elim
  · exact fun h y hy _ => Or.inl (h y hy)

namespace Rule

/-- A shallow rule overrides nothing but what its value overrides at the root. -/
theorem mem_overridden_of_isShallow {r : Rule} {e : Expr} {c : Name} (hr : r.isShallow = true)
    (he : e ∈ r.exprs) (hc : c ∈ e.overrides) : c ∈ r.overridden := by
  obtain ⟨hexpr, hdefault⟩ := Bool.and_eq_true_iff.mp hr
  rcases List.mem_append.mp he with he | he
  · rw [Option.mem_toList] at he
    rw [he, Option.all_some] at hexpr
    rw [overridden, he]
    rwa [Expr.overrides_of_isShallow hexpr] at hc
  · rw [Option.mem_toList] at he
    rw [he, Option.all_some] at hdefault
    rw [Expr.overrides, List.isEmpty_iff.mp hdefault] at hc
    exact absurd hc List.not_mem_nil

theorem mem_dependencies_of_references {r : Rule} {d : Name} (hd : d ∈ r.references) :
    d ∈ r.dependencies := by
  obtain ⟨e, he, hd⟩ := List.mem_flatMap.mp hd
  exact mem_dependencies.mpr ⟨e, he, Expr.mem_dependencies.mpr (Or.inl hd)⟩

/-- The user is not asked for a rule that has a value and is no input. -/
theorem isAsked_eq_false {r : Rule} {e : Expr} (hinput : r.isInput = false)
    (hexpr : r.expr = some e) : r.isAsked = false := by
  rw [isAsked, isChoice, hinput, hexpr]
  simp

/-- A rule that is no input and has a constant value evaluates to it. -/
theorem evalBody_const {r : Rule} {q : Quantity} (hinput : r.isInput = false)
    (hexpr : r.expr = some (.const q)) (m : Meaning) (scope : Scope) :
    r.evalBody m scope = .ok { q with } := by
  rw [evalBody, body, isAsked_eq_false hinput hexpr, if_neg Bool.false_ne_true, hexpr]
  rfl

end Rule

namespace Graph

variable {g g' : Graph} {s : Situation} {stack : List Name} {scope : Scope} {n p : Name}
  {q : Quantity}

/-! ## Situations of inputs -/

/-- The situation gives constants only, and values only to rules that the user is asked for and to
names that are no rules. -/
def OfInputs (g : Graph) (s : Situation) : Prop :=
  ∀ (n : Name) (e : Expr), s[n]? = some e →
    e.isConst = true ∧ ∀ r, g.get? n = some r → r.isAsked = true

theorem OfInputs.isConst {e : Expr} (h : g.OfInputs s) (he : s[n]? = some e) :
    ∃ q, e = .const q := by
  have hconst := (h n e he).1
  cases e with
  | const q => exact ⟨q, rfl⟩
  | _ => cases hconst

/-- A situation of inputs gives nothing to a rule that the user is not asked for. -/
theorem OfInputs.eq_none {r : Rule} (h : g.OfInputs s) (hr : g.get? n = some r)
    (hasked : r.isAsked = false) : s[n]? = none := by
  cases he : s[n]? with
  | none => rfl
  | some e =>
      have htrue := (h n e he).2 r hr
      rw [hasked] at htrue
      cases htrue

theorem ofInputs_empty (g : Graph) : g.OfInputs ∅ := by
  intro n e he
  simp at he

/-! ## Scopes that can be open -/

/-- Every name of the scope is overridden by a rule on the stack. -/
def Opened (g : Graph) (stack : List Name) (scope : Scope) : Prop :=
  ∀ (c : Name) (q : Quantity), scope[c]? = some q → ∃ p ∈ stack, g.Overrides p c

theorem opened_empty (g : Graph) : g.Opened [] ∅ := by
  intro c q hc
  simp at hc

theorem Opened.push (h : g.Opened stack scope) (n : Name) : g.Opened (n :: stack) scope := by
  intro c q hc
  obtain ⟨p, hp, hpc⟩ := h c q hc
  exact ⟨p, List.mem_cons_of_mem n hp, hpc⟩

/-- The last rule on the stack may open what it overrides. -/
theorem Opened.insert {c : Name} (h : g.Opened (n :: stack) scope) (hc : g.Overrides n c)
    (q : Quantity) : g.Opened (n :: stack) (scope.insert c q) := by
  intro d q' hd
  rw [Std.ExtTreeMap.getElem?_insert] at hd
  split at hd
  · rename_i hcd
    rw [← Std.LawfulEqOrd.eq_of_compare hcd]
    exact ⟨n, List.mem_cons_self .., hc⟩
  · exact h d q' hd

/-- What no rule overrides is in no scope. -/
theorem Opened.eq_none {c : Name} (h : g.Opened stack scope)
    (hc : ∀ p ∈ stack, ¬g.Overrides p c) : scope[c]? = none := by
  cases hq : scope[c]? with
  | none => rfl
  | some q =>
      obtain ⟨p, hp, hpc⟩ := h c q hq
      exact absurd hpc (hc p hp)

/-- Evaluating a rule of the graph below an opened scope keeps what evaluates, if the references
of the rule do below all scopes that it opens. -/
theorem evalBody_keeps {r : Rule} {m m' : Meaning} (hr : g.get? n = some r)
    (hshallow : r.isShallow = true) (hopen : g.Opened stack scope)
    (href : ∀ {d scope}, d ∈ r.references → g.Opened (n :: stack) scope →
      Keeps (m scope d) (m' scope d)) :
    Keeps (r.evalBody m scope) (r.evalBody m' scope) := by
  refine Rule.evalBody_follows ?_
  intro e he
  -- both evaluations see the same scopes
  let related (scope scope' : Scope) : Prop := scope = scope' ∧ g.Opened (n :: stack) scope
  have hinsert : ∀ {scope scope' : Scope} {c : Name} {q : Quantity}, g.Overrides n c →
      related scope scope' → related (scope.insert c q) (scope'.insert c q) := by
    rintro scope _ c q hc ⟨rfl, h⟩
    exact ⟨rfl, h.insert hc q⟩
  have hrel : ∀ {scope scope' : Scope} {d : Name}, d ∈ r.references → related scope scope' →
      Keeps (m scope d) (m' scope' d) := by
    rintro scope _ d hd ⟨rfl, h⟩
    exact href hd h
  exact Expr.eval_follows related (g.Overrides n) (· ∈ r.references) hinsert hrel
    (fun c hc => ⟨r, hr, Rule.mem_overridden_of_isShallow hshallow (Rule.mem_exprs_of_body he) hc⟩)
    (fun d hd => Rule.mem_references_of_body he hd) ⟨rfl, hopen.push n⟩

theorem isShallow_of_get? {r : Rule} (h : g.isShallow = true) (hr : g.get? n = some r) :
    r.isShallow = true :=
  List.all_eq_true.mp h r (mem_of_get? hr)

/-! ## Changing single rules -/

/-- All references to a set of names keep what evaluates while these rules are on the stack. -/
def KeepsBelow (g g' : Graph) (s : Situation) (names : Name → Prop) (stack : List Name) : Prop :=
  ∀ (d : Name) (scope : Scope), names d → g.Opened stack scope →
    Keeps (g.meaning s stack scope d) (g'.meaning s stack scope d)

/-- What is kept below the empty stack is kept by evaluation. -/
theorem KeepsBelow.evaluate {names : Name → Prop} (h : g.KeepsBelow g' s names []) (hn : names n)
    {y : Evaluation} (hy : g.evaluate n s = .ok y) : g'.evaluate n s = .ok y :=
  keeps_iff.mp (h n ∅ hn (opened_empty g)) y hy

/-- Two graphs keep what evaluates on a set of names, if every rule of such a name is the same in
both graphs and refers to such names only, or else keeps what its body evaluates to. -/
theorem meaning_keeps {names : Name → Prop} (hshallow : g.isShallow = true)
    (hs : g.OfInputs s)
    (hrule : ∀ {n r}, names n → g.get? n = some r →
      (g'.get? n = some r ∧ ∀ d ∈ r.references, names d) ∨
      ∀ {stack scope}, n ∉ stack → scope[n]? = none → s[n]? = none → g.Opened stack scope →
        g.KeepsBelow g' s names (n :: stack) →
        Keeps (g.meaning s stack scope n) (g'.meaning s stack scope n)) :
    g.KeepsBelow g' s names stack := by
  induction stack using stack_induction g s with
  | step stack ih =>
      intro n scope hn hopen
      by_cases hstack : n ∈ stack
      · rw [meaning_of_mem hstack]
        exact Follows.of_error
      cases hq : scope[n]? with
      | some q =>
          rw [meaning_of_scope hstack hq, meaning_of_scope hstack hq]
          exact Follows.refl _
      | none =>
          cases he : s[n]? with
          | some e =>
              rw [meaning_of_situation hstack hq he, meaning_of_situation hstack hq he]
              obtain ⟨q, rfl⟩ := hs.isConst he
              exact Follows.refl _
          | none =>
              cases hr : g.get? n with
              | none =>
                  rw [meaning_of_none hstack hq he hr]
                  exact Follows.of_error
              | some r =>
                  have hbelow := ih n hstack (mem_bound_of_rule hr)
                  rcases hrule hn hr with ⟨hr', hrefs⟩ | hkeeps
                  · rw [meaning_of_rule hstack hq he hr, meaning_of_rule hstack hq he hr']
                    exact evalBody_keeps hr (isShallow_of_get? hshallow hr) hopen
                      fun hd hopen => hbelow _ _ (hrefs _ hd) hopen
                  · exact hkeeps hstack hq he hopen hbelow

/-- A rule may become a constant, if that is what it evaluates to wherever it does. -/
theorem meaning_setConstant (hshallow : g.isShallow = true)
    (hs : g.OfInputs s) {r : Rule} (hr : g.get? n = some r)
    (hinput : r.isInput = false)
    (hvalue : ∀ {stack scope y}, n ∉ stack → g.Opened stack scope →
      g.meaning s stack scope n = .ok y → y = { q with }) :
    g.KeepsBelow (g.modify n fun r => { r with expr := some (.const q) }) s (fun _ => True)
      stack := by
  refine meaning_keeps hshallow hs ?_
  intro m r' _ hr'
  by_cases hm : m = n
  · subst hm
    obtain rfl : r = r' := Option.some.inj (hr.symm.trans hr')
    refine Or.inr ?_
    intro stack scope hstack hscope he hopen _
    refine keeps_iff.mpr ?_
    intro y hy
    rw [hvalue hstack hopen hy, meaning_of_rule hstack hscope he
      (get?_modify_eq_some.mpr ⟨r, hr, if_pos rfl⟩)]
    refine Rule.evalBody_const ?_ rfl _ _
    exact hinput
  · refine Or.inl ⟨?_, fun _ _ => trivial⟩
    rw [get?_modify_of_ne hm, hr']

/-- What a constant that is never overridden evaluates to. -/
theorem IsConstant.eq_of_meaning (h : g.IsConstant n q) (hover : ∀ p, ¬g.Overrides p n)
    (hs : g.OfInputs s) (hopen : g.Opened stack scope) {y : Evaluation}
    (hy : g.meaning s stack scope n = .ok y) : y = { q with } := by
  obtain ⟨r, hr, hinput, hexpr⟩ := h
  by_cases hstack : n ∈ stack
  · rw [meaning_of_mem hstack] at hy
    cases hy
  · have he := hs.eq_none hr (Rule.isAsked_eq_false hinput hexpr)
    rw [meaning_of_rule hstack (hopen.eq_none fun p _ => hover p) he hr,
      Rule.evalBody_const hinput hexpr] at hy
    exact (Except.ok.inj hy).symm

/-- A constant that is never overridden may be substituted in another rule. -/
theorem meaning_subst (hshallow : g.isShallow = true)
    (hs : g.OfInputs s) (hconst : g.IsConstant n q)
    (hover : ∀ p, ¬g.Overrides p n) {r : Rule} (hr : g.get? p = some r)
    (status : Status) :
    g.KeepsBelow (g.modify p fun _ => { r.subst n (.const q) with status }) s (fun _ => True)
      stack := by
  refine meaning_keeps hshallow hs ?_
  intro m r' _ hr'
  by_cases hm : m = p
  · subst hm
    obtain rfl : r = r' := Option.some.inj (hr.symm.trans hr')
    refine Or.inr ?_
    intro stack scope hstack hscope he' hopen hbelow
    obtain rfl : r.name = m := name_of_get? hr
    rw [meaning_of_rule hstack hscope he' hr, meaning_of_rule hstack hscope he'
      (get?_modify_eq_some.mpr ⟨r, hr, if_pos rfl⟩)]
    show Keeps _ ((r.subst n (.const q)).evalBody _ scope)
    rw [Rule.evalBody_subst]
    refine evalBody_keeps hr (isShallow_of_get? hshallow hr) hopen ?_
    intro d scope _ hopen
    rw [Expr.standFor]
    by_cases hd : d = n
    · rw [if_pos hd, hd]
      refine keeps_iff.mpr ?_
      intro y hy
      rw [hconst.eq_of_meaning hover hs hopen hy]
    · rw [if_neg hd]
      exact hbelow d scope trivial hopen
  · refine Or.inl ⟨?_, fun _ _ => trivial⟩
    rw [get?_modify_of_ne hm, hr']

/-- A rule may be removed if no other rule is linked to it, as far as other names are concerned. -/
theorem meaning_erase (hshallow : g.isShallow = true) (hs : g.OfInputs s)
    (hinternal : n.isInternal = false) (hlink : ∀ p, ¬g.HasLink p n) :
    g.KeepsBelow (g.erase n) s (· ≠ n) stack := by
  refine meaning_keeps hshallow hs ?_
  intro m r hm hr
  refine Or.inl ⟨get?_erase_eq_some.mpr ⟨hm, hr⟩, ?_⟩
  rintro d hd rfl
  refine hlink m ⟨r, hr, Rule.mem_links.mpr ⟨Rule.mem_dependencies_of_references hd, ?_, hinternal⟩⟩
  rw [name_of_get? hr]
  exact hm.symm

end Graph

end RuleGraph
