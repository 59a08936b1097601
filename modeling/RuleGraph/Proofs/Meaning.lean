import RuleGraph.Graph.Lemmas
import RuleGraph.Proofs.Evaluation

/-! # Comparing meanings

    The meaning of a name recurs with one more name on the stack, so statements
    about it are shown by induction over stacks that grow (`stack_induction`).

    What an evaluation misses tells what it depends on.  If a situation is
    extended by values for inputs, an evaluation that missed none of them stays
    as it is (`meaning_follows_extension`).  This holds as well if the second
    evaluation is made under other rules and below other scopes, as long as the
    scopes agree on the names that are met, except that the second one may fail
    with a cycle.  Made from the same start, it cannot fail at all: the missing
    inputs that are reported are all that matter (`evaluate_of_missing`). -/

namespace RuleGraph

namespace Graph

variable {g g' : Graph} {s s' : Situation} {stack stack' : List Name} {scope scope' : Scope}
  {n : Name}

/-! ## The cases of a meaning -/

/-- A name on the stack is a cycle. -/
theorem meaning_of_mem (h : n ∈ stack) : g.meaning s stack scope n = .error (.cycle n) := by
  rw [meaning_eq, if_pos h]

/-- A name that is overridden has the value of the override. -/
theorem meaning_of_scope {q : Quantity} (hstack : n ∉ stack) (hscope : scope[n]? = some q) :
    g.meaning s stack scope n = .ok { q with } := by
  rw [meaning_eq, if_neg hstack, hscope]

/-- A name that is given, and not overridden, has the value of what is given. -/
theorem meaning_of_situation {e : Expr} (hstack : n ∉ stack) (hscope : scope[n]? = none)
    (hs : s[n]? = some e) :
    g.meaning s stack scope n = e.eval (g.meaning s (n :: stack)) scope := by
  rw [meaning_eq, if_neg hstack, hscope, hs]

/-- A rule that is neither overridden nor given has the value of its body. -/
theorem meaning_of_rule {r : Rule} (hstack : n ∉ stack) (hscope : scope[n]? = none)
    (hs : s[n]? = none) (hr : g.get? n = some r) :
    g.meaning s stack scope n = r.evalBody (g.meaning s (n :: stack)) scope := by
  rw [meaning_eq, if_neg hstack, hscope, hs, hr]

/-- A name that is no rule, and neither overridden nor given, is unknown. -/
theorem meaning_of_none (hstack : n ∉ stack) (hscope : scope[n]? = none) (hs : s[n]? = none)
    (hr : g.get? n = none) : g.meaning s stack scope n = .error (.unknownRule n) := by
  rw [meaning_eq, if_neg hstack, hscope, hs, hr]

/-- To show something of a stack, it may be assumed of all stacks with one more name that the
situation or the graph gives a body to. -/
@[elab_as_elim]
theorem stack_induction (g : Graph) (s : Situation) {motive : List Name → Prop}
    (step : ∀ stack, (∀ n, n ∉ stack → n ∈ g.bound s → motive (n :: stack)) → motive stack)
    (stack : List Name) : motive stack := by
  -- a name that is pushed was not yet visited, so fewer names remain
  induction hk : unvisited stack (g.bound s) using Nat.strongRecOn generalizing stack with
  | ind k ih =>
      refine step stack ?_
      intro n hstack hn
      refine ih _ ?_ _ rfl
      rw [← hk]
      exact unvisited_push_lt hn hstack

/-- Graphs whose rules have the same bodies give all names the same meaning. -/
theorem meaning_congr (h : ∀ n, (g.get? n).map Rule.evalBody = (g'.get? n).map Rule.evalBody) :
    g.meaning s = g'.meaning s := by
  funext stack
  induction stack using stack_induction g s with
  | step stack ih =>
      funext scope n
      rw [meaning_eq, meaning_eq]
      by_cases hstack : n ∈ stack
      · rw [if_pos hstack, if_pos hstack]
      · rw [if_neg hstack, if_neg hstack]
        cases scope[n]? with
        | some q => rfl
        | none =>
            cases hs : s[n]? with
            | some e => rw [ih n hstack (mem_bound_of_situation hs)]
            | none =>
                have hn := h n
                cases hr : g.get? n with
                | none =>
                    rw [hr, eq_comm, Option.map_none, Option.map_eq_none_iff] at hn
                    rw [hn]
                | some r =>
                    rw [hr, eq_comm, Option.map_some, Option.map_eq_some_iff] at hn
                    obtain ⟨r', hr', hbody⟩ := hn
                    rw [hr', ih n hstack (mem_bound_of_rule hr)]
                    exact congrFun (congrFun hbody.symm _) _

/-- Changing rules keeps all meanings if it keeps what their bodies evaluate to. -/
theorem meaning_map {f : Rule → Rule}
    (h : ∀ r, Rule.evalBody { f r with name := r.name } = r.evalBody) :
    (g.map f).meaning s = g.meaning s := by
  refine meaning_congr ?_
  intro n
  rw [get?_map, Option.map_map]
  cases g.get? n with
  | none => rfl
  | some r => exact congrArg some (h r)

/-! ## Extending a situation -/

/-- The expression that a name is evaluated by: what the situation gives, or else the body of the
rule. -/
def active (g : Graph) (s : Situation) (n : Name) : Option Expr :=
  match s[n]? with
  | some e => some e
  | none => (g.get? n).bind Rule.body

theorem active_of_situation {e : Expr} (h : s[n]? = some e) : g.active s n = some e := by
  rw [active, h]

theorem active_of_rule {r : Rule} (hs : s[n]? = none) (hr : g.get? n = some r) :
    g.active s n = r.body := by
  rw [active, hs, hr]
  rfl

/-- The second situation gives what the first one gives.  If anything else that it gives is a rule,
the user is asked for it. -/
structure Extends (g : Graph) (s s' : Situation) : Prop where
  given : ∀ (n : Name) (e : Expr), s[n]? = some e → s'[n]? = some e
  asked : ∀ (n : Name) (e : Expr) (r : Rule), s[n]? = none → s'[n]? = some e →
    g.get? n = some r → r.isAsked = true

theorem Extends.refl (g : Graph) (s : Situation) : g.Extends s s where
  given _ _ := id
  asked n e r hs he := by
    rw [hs] at he
    cases he

/-- A value for one more name extends a situation, if the user is asked for it or it is no rule. -/
theorem Extends.insert (h : g.Extends s s') (hn : s[n]? = none)
    (hasked : (g.get? n).all Rule.isAsked = true) (e : Expr) : g.Extends s (s'.insert n e) where
  given m e' hm := by
    rw [Std.ExtTreeMap.getElem?_insert]
    split
    · rename_i heq
      rw [← Std.LawfulEqOrd.eq_of_compare heq, hn] at hm
      cases hm
    · exact h.given m e' hm
  asked m e' r hm he' hr := by
    rw [Std.ExtTreeMap.getElem?_insert] at he'
    split at he'
    · rename_i heq
      rw [Std.LawfulEqOrd.eq_of_compare heq, hr] at hasked
      exact hasked
    · exact h.asked m e' r hm he' hr

/-- The second scope has all that the first one has, and nothing more for the names of the region
that have a body. -/
structure ScopesAgree (g : Graph) (s : Situation) (region : Name → Prop)
    (scope scope' : Scope) : Prop where
  some : ∀ (c : Name) (q : Quantity), scope[c]? = some q → scope'[c]? = some q
  none : ∀ c : Name, region c → c ∈ g.bound s → scope[c]? = none → scope'[c]? = none

/-- Scopes that agree still do when both get the same override. -/
theorem ScopesAgree.insert {region : Name → Prop} (h : g.ScopesAgree s region scope scope')
    (n : Name) (q : Quantity) :
    g.ScopesAgree s region (scope.insert n q) (scope'.insert n q) where
  some c q' := by
    rw [Std.ExtTreeMap.getElem?_insert, Std.ExtTreeMap.getElem?_insert]
    split
    · exact id
    · exact h.some c q'
  none c hc hbound := by
    rw [Std.ExtTreeMap.getElem?_insert, Std.ExtTreeMap.getElem?_insert]
    split
    · exact id
    · exact h.none c hc hbound

/-- An evaluation that misses no name given by an extension of its situation is the same in the
extended situation, even under other rules and below another scope that agrees on the names met.
The rules that are on the second stack only have to be tolerated as cycles. -/
theorem meaning_follows_extension {region : Name → Prop} {tolerated : EvalError → Prop}
    (hext : g.Extends s s')
    (hregion : ∀ {p e d}, region p → g.active s p = some e → d ∈ e.references →
      d ∈ g.bound s → region d)
    (hn : n ∈ g.bound s → region n) (hscope : g.ScopesAgree s region scope scope')
    (hcycle : ∀ m ∈ stack', m ∉ stack → tolerated (.cycle m)) :
    Follows (Evaluation.Within fun m => s'[m]? = s[m]?) tolerated (g.meaning s stack scope n)
      (g.meaning s' stack' scope' n) := by
  induction stack using stack_induction g s generalizing stack' scope scope' n with
  | step stack ih =>
      by_cases hstack : n ∈ stack
      · rw [meaning_of_mem hstack]
        exact Follows.of_error
      by_cases hstack' : n ∈ stack'
      · rw [meaning_of_mem hstack']
        exact Follows.of_tolerated (hcycle n hstack' hstack)
      cases hq : scope[n]? with
      | some q =>
          rw [meaning_of_scope hstack hq, meaning_of_scope hstack' (hscope.some n q hq)]
          exact Follows.refl _
      | none =>
          -- one more name on both stacks leaves the conditions on them as they are
          have hbelow : ∀ {e : Expr}, n ∈ g.bound s → g.active s n = some e →
              Expr.EvalFollows (fun m => s'[m]? = s[m]?) tolerated (g.meaning s (n :: stack))
                (g.meaning s' (n :: stack')) scope scope' e := by
            intro e hbound hactive
            refine Expr.eval_follows (g.ScopesAgree s region) (fun _ => True)
              (fun d => d ∈ g.bound s → region d) (fun _ h => h.insert _ _) ?_ (fun _ _ => trivial)
              (fun d hd hd' => hregion (hn hbound) hactive hd hd') hscope
            intro scope scope' d hd hscope
            refine ih n hstack hbound hd hscope ?_
            intro m hm hm'
            obtain ⟨hmn, hm'⟩ := not_or.mp (mt List.mem_cons.mpr hm')
            exact hcycle m ((List.mem_cons.mp hm).resolve_left hmn) hm'
          cases hs : s[n]? with
          | some e =>
              have hbound := mem_bound_of_situation (g := g) hs
              have hq' := hscope.none n (hn hbound) hbound hq
              rw [meaning_of_situation hstack hq hs,
                meaning_of_situation hstack' hq' (hext.given n e hs)]
              exact hbelow hbound (active_of_situation hs)
          | none =>
              cases hr : g.get? n with
              | none =>
                  rw [meaning_of_none hstack hq hs hr]
                  exact Follows.of_error
              | some r =>
                  have hbound := mem_bound_of_rule (s := s) hr
                  rw [meaning_of_rule hstack hq hs hr]
                  cases hs' : s'[n]? with
                  | none =>
                      rw [meaning_of_rule hstack' (hscope.none n (hn hbound) hbound hq) hs' hr]
                      refine Rule.evalBody_follows ?_
                      intro e he
                      exact hbelow hbound ((active_of_rule hs hr).trans he)
                  | some e' =>
                      -- the user was asked for this rule, so it would have been missed
                      intro y hy hmissing
                      have hmem := Rule.mem_missing_of_isAsked (hext.asked n e' r hs hs' hr) hy
                      have heq : s'[n]? = s[n]? := hmissing n (name_of_get? hr ▸ hmem)
                      rw [hs, hs'] at heq
                      cases heq

/-! ## What is missed -/

/-- Of what an extension gives, only names that were missed can change an evaluation. -/
theorem Extends.evaluate (h : g.Extends s s') {y : Evaluation} (hy : g.evaluate n s = .ok y)
    (hmissing : ∀ m ∈ s', m ∉ s → m ∉ y.missing) : g.evaluate n s' = .ok y := by
  have hclear : y.Within fun m => s'[m]? = s[m]? := by
    intro m hm
    cases hs : s[m]? with
    | some e => exact h.given m e hs
    | none =>
        have hout : m ∉ s := by
          rw [Std.ExtTreeMap.mem_iff_isSome_getElem?, hs]
          exact Bool.false_ne_true
        exact Std.ExtTreeMap.getElem?_eq_none fun hin => hmissing m hin hout hm
  have hscope : g.ScopesAgree s (fun _ => True) ∅ ∅ := ⟨fun _ _ => id, fun _ _ _ => id⟩
  -- both evaluations start without a stack, so not even a cycle is tolerated
  have hfollows : Follows (Evaluation.Within fun m => s'[m]? = s[m]?) (fun _ => False)
      (g.meaning s [] ∅ n) (g.meaning s' [] ∅ n) :=
    meaning_follows_extension h (fun _ _ _ _ => trivial) (fun _ => trivial) hscope
      fun _ hin hout => hout hin
  rcases hfollows y hy hclear with hok | ⟨_, _, hfalse⟩
  · exact hok
  · exact hfalse.elim

/-- The missing inputs that are reported are complete.  Whatever is given in addition to a
situation, be it for inputs or for names that are no rules, an evaluation stays the same unless it
missed one of these names; and an evaluation that missed nothing in the default situation is that of
every situation of inputs. -/
theorem evaluate_of_missing (g : Graph) (n : Name) (y : Evaluation) :
    (∀ s s', g.Extends s s' → g.evaluate n s = .ok y → (∀ m ∈ s', m ∉ s → m ∉ y.missing) →
      g.evaluate n s' = .ok y) ∧
    (g.evaluate n = .ok y → y.missing = ∅ → ∀ s, g.Extends ∅ s → g.evaluate n s = .ok y) := by
  refine ⟨fun s s' hext hy hmissing => hext.evaluate hy hmissing, ?_⟩
  intro hy hempty s hext
  refine hext.evaluate hy ?_
  intro m _ _
  rw [hempty]
  exact Std.ExtTreeSet.not_mem_empty

/-- A ticket whose fare depends on the distance unless it is for a child, a supplement for luggage,
and a fee that is the same for everyone. -/
def ticket : Graph where
  rules := [
    { name := ⟨"child", 0⟩, question := some "Is it for a child?" },
    { name := ⟨"distance", 1⟩, question := some "Is it far?" },
    { name := ⟨"fare", 2⟩,
      expr := some (.cond (.ref ⟨"child", 0⟩) (.ref ⟨"fee", 3⟩) (.ref ⟨"distance", 1⟩)) },
    { name := ⟨"fee", 3⟩, expr := some (.const { value := .bool true }) },
    { name := ⟨"luggage", 4⟩, default := some (.const { value := .bool true }) },
    { name := ⟨"total", 5⟩, expr := some (.all [.ref ⟨"fare", 2⟩, .ref ⟨"luggage", 4⟩]) }]
  increasing := by decide

/-- The situation of a child. -/
def ticket.forChild : Situation :=
  (∅ : Situation).insert ⟨"child", 0⟩ (.const { value := .bool true })

/-- The situation of a child on a short way, where something is said that no rule is about. -/
def ticket.forChildNearby : Situation :=
  (forChild.insert ⟨"distance", 1⟩ (.const { value := .bool false })).insert ⟨"window", 6⟩
    (.ref ⟨"distance", 1⟩)

/-- The total of a ticket for a child misses the luggage only, and is the same for a short way.  The
fee misses nothing, and is the same for a child as by default. -/
theorem evaluate_ticket_of_missing :
    ticket.evaluate ⟨"total", 5⟩ ticket.forChild =
      .ok { value := .bool true, missing := {⟨"luggage", 4⟩} } ∧
    ticket.evaluate ⟨"total", 5⟩ ticket.forChildNearby =
      .ok { value := .bool true, missing := {⟨"luggage", 4⟩} } ∧
    ticket.evaluate ⟨"fee", 3⟩ = .ok { value := .bool true } ∧
    ticket.evaluate ⟨"fee", 3⟩ ticket.forChild = .ok { value := .bool true } := by
  have htotal : ticket.evaluate ⟨"total", 5⟩ ticket.forChild =
      .ok { value := .bool true, missing := {⟨"luggage", 4⟩} } := by decide +kernel
  have hfee : ticket.evaluate ⟨"fee", 3⟩ = .ok { value := .bool true } := by decide +kernel
  have hnearby : ticket.Extends ticket.forChild ticket.forChildNearby :=
    ((Extends.refl _ _).insert (by decide +kernel) (by decide +kernel) _).insert
      (by decide +kernel) (by decide +kernel) _
  have hchild : ticket.Extends ∅ ticket.forChild :=
    (Extends.refl _ _).insert (by decide +kernel) (by decide +kernel) _
  refine ⟨htotal, ?_, hfee, (evaluate_of_missing _ _ _).2 hfee rfl _ hchild⟩
  refine (evaluate_of_missing _ _ _).1 _ _ hnearby htotal ?_
  -- the only name that was missed is not given
  intro m hm _ hmissing
  obtain rfl : ⟨"luggage", 4⟩ = m := by simpa using hmissing
  exact absurd hm (by decide +kernel)

end Graph

end RuleGraph
