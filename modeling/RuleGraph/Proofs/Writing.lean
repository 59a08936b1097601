import RuleGraph.Proofs.Declaration
import RuleGraph.Proofs.History

/-! # Writing a folded graph back

    Folding changes the expressions and the status of a rule and leaves its
    declaration alone.  Only when the graph is written are declarations brought
    up to date, and only those of rules that have a status.  This module shows
    that nothing is lost in between (`written_faithfully`):

    * the declaration of a rule that was put together by the `with` operations
      agrees with its expressions (`Declaration.Holds`, `Rule.Built`);
    * folding gives a rule a status if it changes its expressions
      (`Rule.Updates`), which the history of the run tells;
    * so what is written agrees with the expressions as they are now, and the
      status can be read back from it. -/

namespace RuleGraph

namespace Declaration

variable {d : Declaration} {e : Expr} {x y : Option Expr} {k key : String} {a : Attribute}

/-- The keys of the attributes that hold the expressions of a rule. -/
def exprKeys : List String := [valueKey, contextKey, defaultKey]

/-- The keys of all attributes that rules are built with. -/
def builderKeys : List String :=
  exprKeys ++ [questionKey, replacesKey, enumerationKey, privateKey]

/-! ## Writing a value -/

/-- Writing a value sets the value, and sets the context if there is one and removes it otherwise. -/
theorem exists_writeValue (e : Expr) :
    ∃ (a : Attribute) (context? : Option Attribute), context?.isSome = e.isContextual ∧
      ∀ d : Declaration, d.writeValue e = context?.elim ((d.insert valueKey a).erase contextKey)
        ((d.insert valueKey a).insert contextKey) := by
  cases e with
  | contextual inner os => exact ⟨inner.toAttribute, some _, rfl, fun _ => rfl⟩
  | _ => exact ⟨_, none, rfl, fun _ => rfl⟩

theorem nodup_keys_writeValue (h : d.keys.Nodup) (e : Expr) : (d.writeValue e).keys.Nodup := by
  obtain ⟨a, context?, -, hwrite⟩ := exists_writeValue e
  rw [hwrite]
  cases context? with
  | none => exact nodup_keys_erase (nodup_keys_insert h)
  | some c => exact nodup_keys_insert (nodup_keys_insert h)

/-- What is written as the value does not depend on the declaration. -/
theorem get?_writeValue_valueKey (d : Declaration) (e : Expr) :
    (d.writeValue e).get? valueKey = (({} : Declaration).writeValue e).get? valueKey := by
  obtain ⟨a, context?, -, hwrite⟩ := exists_writeValue e
  have hne : valueKey ≠ contextKey := by decide
  rw [hwrite, hwrite]
  cases context? with
  | none =>
      show (erase _ _).get? _ = (erase _ _).get? _
      rw [get?_erase_of_ne hne, get?_erase_of_ne hne, get?_insert_self, get?_insert_self]
  | some c =>
      show (insert _ _ c).get? _ = (insert _ _ c).get? _
      rw [get?_insert_of_ne hne, get?_insert_of_ne hne, get?_insert_self, get?_insert_self]

/-- What is written as the context does not depend on the declaration, even if it had one. -/
theorem get?_writeValue_contextKey (h : d.keys.Nodup) (e : Expr) :
    (d.writeValue e).get? contextKey = (({} : Declaration).writeValue e).get? contextKey := by
  obtain ⟨a, context?, -, hwrite⟩ := exists_writeValue e
  rw [hwrite, hwrite]
  cases context? with
  | none =>
      show (erase _ _).get? _ = (erase _ _).get? _
      rw [get?_erase_self (nodup_keys_insert h), get?_erase_self (nodup_keys_insert nodup_keys_empty)]
  | some c =>
      show (insert _ _ c).get? _ = (insert _ _ c).get? _
      rw [get?_insert_self, get?_insert_self]

/-- A context is written for contextual blocks, and for nothing else. -/
theorem isSome_get?_writeValue_contextKey (e : Expr) :
    ((({} : Declaration).writeValue e).get? contextKey).isSome = e.isContextual := by
  obtain ⟨a, context?, hcontext, hwrite⟩ := exists_writeValue e
  rw [hwrite, ← hcontext]
  cases context? with
  | none =>
      show ((erase _ _).get? _).isSome = false
      rw [get?_erase_self (nodup_keys_insert nodup_keys_empty)]
      rfl
  | some c =>
      show ((insert _ _ c).get? _).isSome = true
      rw [get?_insert_self]
      rfl

theorem get?_writeValue_of_ne (hvalue : k ≠ valueKey) (hcontext : k ≠ contextKey) (e : Expr) :
    (d.writeValue e).get? k = d.get? k := by
  obtain ⟨a, context?, -, hwrite⟩ := exists_writeValue e
  rw [hwrite]
  cases context? with
  | none => exact (get?_erase_of_ne hcontext).trans (get?_insert_of_ne hvalue)
  | some c => exact (get?_insert_of_ne hcontext).trans (get?_insert_of_ne hvalue)

theorem pick_writeValue {p : String → Bool} (hvalue : p valueKey = false)
    (hcontext : p contextKey = false) (e : Expr) : (d.writeValue e).pick p = d.pick p := by
  obtain ⟨a, context?, -, hwrite⟩ := exists_writeValue e
  rw [hwrite]
  cases context? with
  | none => exact (pick_erase hcontext).trans (pick_insert hvalue)
  | some c => exact (pick_insert hcontext).trans (pick_insert hvalue)

/-! ## Declarations and expressions -/

/-- The declaration says of a value and a default what is written for them, and nothing if they are
missing. -/
structure Holds (d : Declaration) (expr default : Option Expr) : Prop where
  nodup : d.keys.Nodup
  value : d.get? valueKey =
    expr.bind fun e => (({} : Declaration).writeValue e).get? valueKey
  context : d.get? contextKey =
    expr.bind fun e => (({} : Declaration).writeValue e).get? contextKey
  default : d.get? defaultKey = default.map Expr.toAttribute

namespace Holds

theorem empty : ({} : Declaration).Holds none none := ⟨nodup_keys_empty, rfl, rfl, rfl⟩

/-- After a value was written, the declaration holds it. -/
theorem writeValue (h : d.Holds x y) (e : Expr) : (d.writeValue e).Holds (some e) y where
  nodup := nodup_keys_writeValue h.nodup e
  value := get?_writeValue_valueKey d e
  context := get?_writeValue_contextKey h.nodup e
  default := (get?_writeValue_of_ne (by decide) (by decide) e).trans h.default

/-- Attributes that are not about expressions can be set freely. -/
theorem insert (h : d.Holds x y) (hkey : key ∉ exprKeys) : (d.insert key a).Holds x y := by
  have hne : ∀ {k}, k ∈ exprKeys → (d.insert key a).get? k = d.get? k := fun hk =>
    get?_insert_of_ne fun heq => hkey (heq ▸ hk)
  exact ⟨nodup_keys_insert h.nodup, (hne (by decide)).trans h.value,
    (hne (by decide)).trans h.context, (hne (by decide)).trans h.default⟩

/-- After a default was written, the declaration holds it. -/
theorem writeDefault (h : d.Holds x y) (e : Expr) : (d.writeDefault e).Holds x (some e) where
  nodup := nodup_keys_insert h.nodup
  value := (get?_insert_of_ne (by decide)).trans h.value
  context := (get?_insert_of_ne (by decide)).trans h.context
  default := get?_insert_self d defaultKey e.toAttribute

end Holds

end Declaration

/-! ## Building rules -/

namespace Rule

variable {r r' : Rule} {k marker : String}

/-- The rule was put together from a name by the operations that keep its declaration up to date. -/
inductive Built : Rule → Prop where
  | new (n : Name) : Built { name := n }
  | withValue {r : Rule} (h : Built r) (e : Expr) : Built (r.withValue e)
  | withDefault {r : Rule} (h : Built r) (e : Expr) : Built (r.withDefault e)
  | withQuestion {r : Rule} (h : Built r) (question : String) : Built (r.withQuestion question)
  | withReplacement {r : Rule} (h : Built r) (replacement : Replacement) :
      Built (r.withReplacement replacement)
  | withEnumeration {r : Rule} (h : Built r) (members : List Name) :
      Built (r.withEnumeration members)
  | asPrivate {r : Rule} (h : Built r) : Built r.asPrivate

/-- The declaration of a rule that was put together holds its expressions. -/
theorem Built.holds (h : r.Built) : r.declared.Holds r.expr r.default := by
  induction h with
  | new n => exact .empty
  | withValue _ e ih => exact ih.writeValue e
  | withDefault _ e ih => exact ih.writeDefault e
  | withQuestion _ _ ih | withReplacement _ _ ih | withEnumeration _ _ ih | asPrivate _ ih =>
      exact ih.insert (by decide)

/-- A rule is built with no other attributes than those it is known for. -/
theorem Built.get?_eq_none (h : r.Built) (hk : k ∉ Declaration.builderKeys) :
    r.declared.get? k = none := by
  have hne : ∀ {key}, key ∈ Declaration.builderKeys → k ≠ key := fun hkey heq => hk (heq ▸ hkey)
  induction h with
  | new n => rfl
  | withValue _ e ih =>
      exact (Declaration.get?_writeValue_of_ne (hne (by decide)) (hne (by decide)) e).trans ih
  | withDefault _ _ ih | withQuestion _ _ ih | withReplacement _ _ ih | withEnumeration _ _ ih
  | asPrivate _ ih => exact (Declaration.get?_insert_of_ne (hne (by decide))).trans ih

/-! ## Folding and the declaration -/

/-- What folding does to a rule as far as its declaration is concerned: it takes no expression away,
and gives the rule a status if it changes one. -/
structure Updates (r r' : Rule) : Prop where
  declared : r'.declared = r.declared
  expr : r'.expr = none → r.expr = none
  default : r'.default = none → r.default = none
  unset : r'.status = .unset → r'.expr = r.expr ∧ r'.default = r.default

/-- A rule that stems from another one updates it, if the rules that were folded are marked. -/
theorem Stems.updates {k : Constants} (h : Stems k r r')
    (hmarked : (k r.name).isSome = true → r'.status = .fully) : r.Updates r' := by
  cases h with
  | @filled k' _ _ =>
      refine ⟨rfl, Option.map_eq_none_iff.mp, Option.map_eq_none_iff.mp, ?_⟩
      intro hunset
      -- filling in a constant gives a status, so none was filled in
      have hnone : ∀ n ∈ r.references, k' n = none := by
        intro n hn
        by_contra hsome
        have hfilled : ∃ n ∈ r.references, (k' n).isSome = true :=
          ⟨n, hn, Option.isSome_iff_ne_none.mpr hsome⟩
        simp only [fill, hfilled, and_true] at hunset
        split at hunset
        · cases hunset
        · exact absurd hunset ‹_›
      rw [fill_of_none hnone]
      exact ⟨rfl, rfl⟩
  | constant folded _ =>
      refine ⟨rfl, fun hnone => absurd hnone (Option.some_ne_none _), id, ?_⟩
      intro hunset
      rw [hmarked (folded ▸ rfl)] at hunset
      cases hunset

/-! ## What is written -/

/-- A rule without a status is written as it was declared; one that has a status is written with its
expressions and the status. -/
theorem written_eq (r : Rule) (marker : String) :
    r.written marker = r.status.marker?.elim r.declared fun status =>
      let d := r.expr.elim r.declared r.declared.writeValue
      (r.default.elim d d.writeDefault).insert marker (.text status) := by
  rw [written]
  cases r.status.marker? with
  | none => rfl
  | some status =>
      cases r.expr with
      | none =>
          cases r.default with
          | none => rfl
          | some _ => rfl
      | some _ =>
          cases r.default with
          | none => rfl
          | some _ => rfl

theorem marker?_eq_none {status : Status} : status.marker? = none ↔ status = .unset := by
  cases status with
  | unset | partially | fully => simp [Status.marker?]

/-- What is written for a rule agrees with its expressions, if the declaration that it was folded
from did. -/
theorem Updates.holds_written (h : r.Updates r') (hd : r.declared.Holds r.expr r.default)
    (hmarker : marker ∉ Declaration.exprKeys) :
    (r'.written marker).Holds r'.expr r'.default := by
  rw [written_eq, h.declared]
  cases hstatus : r'.status.marker? with
  | none =>
      obtain ⟨hexpr, hdefault⟩ := h.unset (marker?_eq_none.mp hstatus)
      rw [hexpr, hdefault]
      exact hd
  | some status =>
      refine Declaration.Holds.insert ?_ hmarker
      have hvalue : (r'.expr.elim r.declared r.declared.writeValue).Holds r'.expr r.default := by
        cases hexpr : r'.expr with
        | none =>
            rw [h.expr hexpr] at hd
            exact hd
        | some e => exact hd.writeValue e
      cases hdefault : r'.default with
      | none =>
          rw [h.default hdefault] at hvalue
          exact hvalue
      | some e => exact hvalue.writeDefault e

/-- What is written differs from the declaration in the expressions and the marker only. -/
theorem pick_written {p : String → Bool} (hexpr : ∀ k ∈ Declaration.exprKeys, p k = false)
    (hmarker : p marker = false) (r : Rule) : (r.written marker).pick p = r.declared.pick p := by
  rw [written_eq]
  cases r.status.marker? with
  | none => rfl
  | some status =>
      refine (Declaration.pick_insert hmarker).trans ?_
      have hvalue : (r.expr.elim r.declared r.declared.writeValue).pick p = r.declared.pick p := by
        cases r.expr with
        | none => rfl
        | some e =>
            exact Declaration.pick_writeValue (hexpr _ (by decide)) (hexpr _ (by decide)) e
      cases r.default with
      | none => exact hvalue
      | some e => exact (Declaration.pick_insert (hexpr _ (by decide))).trans hvalue

/-- The marker is written if the rule has a status. -/
theorem get?_written_marker (h : r.declared.get? marker = none) :
    (r.written marker).get? marker = r.status.marker?.map Attribute.text := by
  rw [written_eq]
  cases r.status.marker? with
  | none => exact h
  | some status => exact Declaration.get?_insert_self _ marker _

/-- A status can be read off its mark. -/
theorem bind_ofMarker?_marker? (status : Status) :
    (status.marker?.bind Status.ofMarker?).getD .unset = status := by
  cases status with
  | unset | partially | fully => rfl

/-- The status can be read back from what was written. -/
theorem restored_of_written {t : Rule} (h : r.declared.get? marker = none)
    (ht : t.declared = r.written marker) (hunset : t.status = .unset) :
    (t.recordedStatus marker).getD t.status = r.status := by
  rw [recordedStatus, ht, get?_written_marker h, hunset]
  have hread := bind_ofMarker?_marker? r.status
  cases hmarker : r.status.marker? with
  | none =>
      rw [hmarker] at hread
      exact hread
  | some text =>
      rw [hmarker] at hread
      exact hread

/-- What a declaration says about a rule that `r` was folded to. -/
structure Describes (marker : String) (r r' : Rule) (d : Declaration) : Prop where
  /-- The value and the context are what is written for the current value, if there is one, and the
  default is the current one. -/
  holds : d.Holds r'.expr r'.default
  /-- There is a context only if the value is a contextual block. -/
  context : (d.get? Declaration.contextKey).isSome = r'.isContextual
  /-- The marker is the text of the status, and missing if there is no status. -/
  status : d.get? marker = r'.status.marker?.map Attribute.text
  /-- All other attributes are as they were, in the same order. -/
  others : d.pick (fun k => k ∉ marker :: Declaration.exprKeys) =
    r.declared.pick (fun k => k ∉ marker :: Declaration.exprKeys)
  /-- A rule without a status that is given this declaration gets the status back. -/
  restores : ∀ (g : Graph) (t : Rule), t ∈ g.rules → t.declared = d → t.status = .unset →
    (g.restoreStatus marker).get? t.name = some { t with status := r'.status }

/-- What is written for a rule describes it. -/
theorem Updates.describes (h : r.Updates r') (hbuilt : r.Built)
    (hmarker : marker ∉ Declaration.builderKeys) :
    Describes marker r r' (r'.written marker) := by
  have hexprKeys : marker ∉ Declaration.exprKeys := fun hmem =>
    hmarker (List.mem_append_left _ hmem)
  have hnone : r'.declared.get? marker = none := h.declared ▸ hbuilt.get?_eq_none hmarker
  have hholds := h.holds_written hbuilt.holds hexprKeys
  refine ⟨hholds, ?_, get?_written_marker hnone, ?_, ?_⟩
  · rw [hholds.context, isContextual]
    cases r'.expr with
    | none => rfl
    | some e => exact Declaration.isSome_get?_writeValue_contextKey e
  · rw [pick_written, h.declared]
    · exact fun k hk => decide_eq_false fun hnot => hnot (List.mem_cons_of_mem _ hk)
    · exact decide_eq_false fun hnot => hnot (List.mem_cons_self ..)
  · intro g t ht hdeclared hunset
    rw [Graph.get?_restoreStatus, Graph.get?_name_of_mem ht, Option.map_some,
      restored_of_written hnone hdeclared hunset]

end Rule

/-! ## Writing graphs -/

namespace Graph

variable {σ : Type} {ev : Evaluator σ} {opts : Options} {g g' : Graph} {s s' : Session σ}
  {marker : String}

/-- Every rule of a folded graph updates the rule that it was folded from. -/
theorem updates_of_foldWith (h : g.foldWith ev opts s = .ok g' s') {r' : Rule}
    (hr' : r' ∈ g'.rules) : ∃ r, g.get? r'.name = some r ∧ r.Updates r' := by
  obtain ⟨f, hpasses, rfl⟩ := passes_of_foldWith h
  obtain ⟨folds, hrecords⟩ := hpasses.records
  have haccounts := hrecords.accounts
  have hget := get?_name_of_mem hr'
  obtain ⟨r₀, hr₀, hstems⟩ := haccounts.stems hget
  have hupdates : r₀.Updates r' := by
    refine hstems.updates fun hsome => ?_
    rw [name_of_get? hr₀] at hsome
    exact (haccounts.fully hget hsome).resolve_left nofun
  rw [get?_restoreStatus, Option.map_eq_some_iff] at hr₀
  obtain ⟨r, hr, rfl⟩ := hr₀
  exact ⟨r, hr, hupdates.declared, hupdates.expr, hupdates.default, hupdates.unset⟩

/-- What is written for a folded graph is faithful to it, for every marker that is not the key of
another attribute.  Each rule is listed once, in the strict order of texts, and its declaration
describes it. -/
theorem written_faithfully (hbuilt : ∀ r ∈ g.rules, r.Built)
    (hmarker : marker ∉ Declaration.builderKeys) (h : g.foldWith ev opts s = .ok g' s') :
    (g'.toRulebook marker).rules.Pairwise (fun a b => a.1 < b.1) ∧
      List.Forall₂ (fun r' entry => entry.1 = r'.name.text ∧
          ∃ r, g.get? r'.name = some r ∧ r.Describes marker r' entry.2)
        g'.rules (g'.toRulebook marker).rules := by
  refine ⟨?_, ?_⟩
  · rw [toRulebook, List.pairwise_map]
    exact g'.increasing
  · rw [toRulebook, List.forall₂_map_right_iff, List.forall₂_same]
    intro r' hr'
    obtain ⟨r, hr, hupdates⟩ := updates_of_foldWith h hr'
    exact ⟨rfl, r, hr, hupdates.describes (hbuilt r (mem_of_get? hr)) hmarker⟩

/-- A bill whose rules were put together one attribute at a time: the total has a context, the
default of the discount refers to the tax, and nothing is known about the season. -/
def bill : Graph where
  rules := [
    ({ name := ⟨"discount", 0⟩ } : Rule).withQuestion "Is there a discount?"
      |>.withDefault (.any [.ref ⟨"season", 2⟩, .ref ⟨"tax", 3⟩]),
    ({ name := ⟨"rate", 1⟩ } : Rule).withValue (.const { value := .bool true }),
    ({ name := ⟨"season", 2⟩ } : Rule).withQuestion "Is it the season?",
    ({ name := ⟨"tax", 3⟩ } : Rule).withValue (.const { value := .bool false }),
    ({ name := ⟨"total", 4⟩ } : Rule).withEnumeration [⟨"gift", 5⟩]
      |>.withValue (.contextual (.all [.ref ⟨"rate", 1⟩]) [(⟨"rate", 1⟩, .ref ⟨"tax", 3⟩)])]
  increasing := by decide

/-- Folding that keeps the total. -/
def bill.options : Options where
  keep := some fun r => r.name.text == "total"

/-- All rules of the bill were put together by these operations. -/
theorem built_bill : ∀ r ∈ bill.rules, r.Built := by
  simp only [bill, List.forall_mem_cons]
  exact ⟨.withDefault (.withQuestion (.new _) _) _, .withValue (.new _) _,
    .withQuestion (.new _) _, .withValue (.new _) _,
    .withValue (.withEnumeration (.new _) _) _, by simp⟩

/-- The bill as it is written after folding. -/
def bill.written : String :=
  "discount:\n  question: Is there a discount?\n" ++
  "  par défaut: une de ces conditions [season, non]\n  optimized: partially\n" ++
  "season:\n  question: Is it the season?\n" ++
  "total:\n  une possibilité: [gift]\n  valeur: non\n  optimized: fully\n"

/-- The context of the total is gone, and its enumeration is not; the discount is written with its
new default, where the tax is its value.  What is written for them restores the status of both. -/
theorem written_faithfully_of_bill :
    "optimized" ∉ Declaration.builderKeys ∧
    ∃ g' s', bill.foldWith .interpreter bill.options { state := () } = .ok g' s' ∧
      (g'.toRulebook "optimized").rules.map (fun e => (e.1, e.2.keys)) =
        [("discount", ["question", "par défaut", "optimized"]), ("season", ["question"]),
          ("total", ["une possibilité", "valeur", "optimized"])] ∧
      (g'.toRulebook "optimized").print = bill.written ∧
      List.Forall₂ (fun r' entry => entry.1 = r'.name.text ∧
          ∃ r, bill.get? r'.name = some r ∧ r.Describes "optimized" r' entry.2)
        g'.rules (g'.toRulebook "optimized").rules := by
  have hmarker : "optimized" ∉ Declaration.builderKeys := by decide
  have hrun : (bill.fold bill.options).toOption.any (fun g' =>
      (g'.toRulebook "optimized").rules.map (fun e => (e.1, e.2.keys)) =
        [("discount", ["question", "par défaut", "optimized"]), ("season", ["question"]),
          ("total", ["une possibilité", "valeur", "optimized"])] ∧
      (g'.toRulebook "optimized").print = bill.written) = true := by decide +kernel
  obtain ⟨g', hfold, hbook⟩ := exists_fold_of_any hrun
  obtain ⟨hkeys, hprint⟩ := of_decide_eq_true hbook
  obtain ⟨s', hwith⟩ := foldWith_of_fold hfold
  obtain ⟨-, hwritten⟩ := written_faithfully built_bill hmarker hwith
  exact ⟨hmarker, g', s', hwith, hkeys, hprint, hwritten⟩

end Graph

end RuleGraph
