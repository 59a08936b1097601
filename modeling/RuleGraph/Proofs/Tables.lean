import RuleGraph.Proofs.Pruning

/-! # A graph as two tables

    The rules of a graph are looked up in two ways: by name, that is by text
    and identity, and by text alone.  `Tables` keeps a table for each.  Every
    edit changes the tables one after the other, and a name may come with the
    text of another one, so they could fall apart: a text could lead to a rule
    that is gone, or be free while it is in use.

    `Tables.Represents` says that both tables answer as a graph does.  One edit
    of the tables and the same edit of the graph keep it
    (`Represents.edit`), hence any number of them (`represents_ofEdits`).  So
    what holds of graphs, whose rules are in strictly increasing order of their
    texts, holds of the tables after every sequence of edits. -/

namespace RuleGraph

/-- An edit of a graph.  An update in place does not change the name of a rule. -/
inductive Edit where
  | insert (r : Rule)
  | remove (n : Name)
  | update (n : Name) (f : Rule → Rule) (keepsName : ∀ r, (f r).name = r.name)
  | restoreStatus (marker : String)

namespace Graph

variable {g g' : Graph} {n : Name} {r : Rule} {text : String}

/-- What an edit makes of a graph; a rule that cannot be added changes nothing. -/
def edit (g : Graph) : Edit → Graph
  | .insert r => (g.insert r).toOption.getD g
  | .remove n => g.erase n
  | .update n f _ => g.modify n f
  | .restoreStatus marker => g.restoreStatus marker

theorem increasing_nil : [].Pairwise fun r s : Rule => r.name.text < s.name.text := .nil

/-- The graph that a sequence of edits makes, beginning with the empty one. -/
def ofEdits (edits : List Edit) : Graph := edits.foldl edit ⟨[], increasing_nil⟩

/-! ## What adding and removing do to a graph -/

theorem contains_iff : g.contains n = true ↔ n ∈ g.names := by
  rw [contains, Option.isSome_iff_exists, mem_names_iff]

/-- No name is found for a text that no rule has. -/
theorem find?_eq_none_iff : g.find? text = none ↔ ∀ n ∈ g.names, n.text ≠ text := by
  rw [Option.eq_none_iff_forall_ne_some]
  exact forall_congr' fun n => (not_congr find?_eq_some_iff).trans not_and

/-- A rule cannot be added if the graph has its text already. -/
theorem insert_of_find?_eq_some (h : g.find? r.name.text = some n) :
    g.insert r = .error (if n = r.name then .reintroduction else .ambiguous r.name.text) := by
  rw [insert]
  split
  · rename_i m hm
    obtain rfl : m = n := Option.some.inj (hm.symm.trans h)
    rfl
  · rename_i hnone
    rw [h] at hnone
    cases hnone

/-- Otherwise it is added, and found under its name and its text. -/
theorem insert_of_find?_eq_none (h : g.find? r.name.text = none) :
    ∃ g', g.insert r = .ok g' ∧
      (∀ n, g'.get? n = if r.name = n then some r else g.get? n) ∧
      ∀ text, g'.find? text = if r.name.text = text then some r.name else g.find? text := by
  have hfresh := text_ne_of_find?_eq_none h
  obtain ⟨g', hinsert, hperm⟩ := insert_eq_ok hfresh
  have hmem : ∀ s, s ∈ g'.rules ↔ s = r ∨ s ∈ g.rules := fun s => by
    rw [hperm.mem_iff, List.mem_cons]
  have hnames : ∀ m, m ∈ g'.names ↔ m = r.name ∨ m ∈ g.names := fun m => by
    simp [names, hmem, or_and_right, exists_or, eq_comm]
  refine ⟨g', hinsert, fun n => Option.ext fun s => ?_, fun text => Option.ext fun m => ?_⟩
  · rw [get?_eq_some_iff, hmem]
    by_cases hn : r.name = n
    · subst hn
      have hnew : ¬(s ∈ g.rules ∧ s.name = r.name) := fun hs =>
        hfresh s hs.1 (congrArg Name.text hs.2)
      rw [if_pos rfl, or_and_right, or_iff_left hnew, Option.some_inj]
      exact ⟨fun hs => hs.1.symm, fun hs => ⟨hs.symm, congrArg Rule.name hs.symm⟩⟩
    · have hold : ¬(s = r ∧ s.name = n) := fun hs => hn (hs.1 ▸ hs.2)
      rw [if_neg hn, or_and_right, or_iff_right hold, get?_eq_some_iff]
  · rw [find?_eq_some_iff, hnames]
    by_cases htext : r.name.text = text
    · subst htext
      have hnew : ¬(m ∈ g.names ∧ m.text = r.name.text) := fun hm =>
        find?_eq_none_iff.mp h m hm.1 hm.2
      rw [if_pos rfl, or_and_right, or_iff_left hnew, Option.some_inj]
      exact ⟨fun hm => hm.1.symm, fun hm => ⟨hm.symm, congrArg Name.text hm.symm⟩⟩
    · have hold : ¬(m = r.name ∧ m.text = text) := fun hm => htext (hm.1 ▸ hm.2)
      rw [if_neg htext, or_and_right, or_iff_right hold, find?_eq_some_iff]

/-- Adding fails in two ways, which tell whether the text belongs to the same name. -/
theorem insert_eq_error_iff {err : Error} :
    g.insert r = .error err ↔
      ∃ n ∈ g.names, n.text = r.name.text ∧
        err = if n = r.name then .reintroduction else .ambiguous r.name.text := by
  cases h : g.find? r.name.text with
  | none =>
      obtain ⟨g', hinsert, -, -⟩ := insert_of_find?_eq_none h
      rw [hinsert]
      constructor
      · intro h
        cases h
      · rintro ⟨n, hn, htext, -⟩
        exact absurd htext (find?_eq_none_iff.mp h n hn)
  | some n =>
      obtain ⟨hn, htext⟩ := find?_eq_some_iff.mp h
      rw [insert_of_find?_eq_some h]
      constructor
      · rintro ⟨⟩
        exact ⟨n, hn, htext, rfl⟩
      · rintro ⟨m, hm, hmtext, rfl⟩
        rw [eq_of_text_eq hm hn (hmtext.trans htext.symm)]

/-- A rule is reported as reintroduced if and only if its name is in the graph. -/
theorem insert_eq_reintroduction_iff :
    g.insert r = .error .reintroduction ↔ g.contains r.name = true := by
  rw [insert_eq_error_iff, contains_iff]
  constructor
  · rintro ⟨n, hn, -, herr⟩
    split at herr
    · rename_i hname
      rwa [← hname]
    · cases herr
  · exact fun h => ⟨r.name, h, rfl, by rw [if_pos rfl]⟩

/-- A text is reported as ambiguous if and only if the graph has it for another name. -/
theorem insert_eq_ambiguous_iff :
    g.insert r = .error (.ambiguous text) ↔
      text = r.name.text ∧ ∃ n, g.contains n = true ∧ n.text = text ∧ n ≠ r.name := by
  rw [insert_eq_error_iff]
  constructor
  · rintro ⟨n, hn, htext, herr⟩
    split at herr
    · cases herr
    · rename_i hne
      cases herr
      exact ⟨rfl, n, contains_iff.mpr hn, htext, hne⟩
  · rintro ⟨rfl, n, hn, htext, hne⟩
    exact ⟨n, contains_iff.mp hn, htext, by rw [if_neg hne]⟩

/-- A rule that cannot be added changes nothing. -/
theorem edit_insert_of_error {err : Error} (h : g.insert r = .error err) :
    g.edit (.insert r) = g := by
  rw [edit, h]
  rfl

/-- Removing a name that is absent changes nothing, whatever other name has its text. -/
theorem erase_of_not_contains (h : g.contains n = false) : g.erase n = g := by
  obtain ⟨rules, increasing⟩ := g
  have hrules : rules.filter (·.name ≠ n) = rules := by
    refine List.filter_eq_self.mpr fun r hr => ?_
    rw [← Bool.not_eq_true, contains_iff] at h
    have hne : r.name ≠ n := fun heq => h (heq ▸ List.mem_map_of_mem hr)
    simpa using hne
  show Graph.mk _ _ = Graph.mk _ _
  congr 1

/-- After a rule was removed, its text has no name, and the other texts have theirs. -/
theorem find?_erase (g : Graph) (n : Name) (text : String) :
    (g.erase n).find? text = (g.find? text).filter (· ≠ n) := by
  refine Option.ext fun m => ?_
  have hnames : m ∈ (g.erase n).names ↔ m ∈ g.names ∧ m ≠ n := by
    simp only [mem_names_iff, get?_erase_eq_some, exists_and_left]
    exact and_comm
  rw [Option.filter_eq_some_iff, find?_eq_some_iff, find?_eq_some_iff, hnames, decide_eq_true_eq]
  exact and_right_comm

theorem find?_map (g : Graph) (f : Rule → Rule) (text : String) :
    (g.map f).find? text = g.find? text := by
  rw [find?, find?, map, List.find?_map, Option.map_map]
  rfl

/-- The names are listed in the strict order of their texts. -/
theorem increasing_names (g : Graph) : g.names.Pairwise fun m n => m.text < n.text :=
  List.pairwise_map.mpr g.increasing

theorem nodup_names (g : Graph) : g.names.Nodup :=
  g.increasing_names.imp fun hlt heq => String.ne_of_lt hlt (congrArg Name.text heq)

end Graph

/-! ## Two tables -/

/-- The rules by their names, and the names by their texts. -/
structure Tables where
  rules : Std.ExtTreeMap Name Rule := ∅
  paths : Std.ExtTreeMap String Name := ∅

namespace Tables

/-- The names of all rules, sorted by their texts. -/
def names (t : Tables) : List Name := t.rules.keys.mergeSort fun m n => m.text ≤ n.text

/-- Add a new rule. -/
def insert (t : Tables) (r : Rule) : Except Graph.Error Unit × Tables :=
  match t.paths[r.name.text]? with
  | some n => (.error (if n = r.name then .reintroduction else .ambiguous r.name.text), t)
  | none => (.ok (), ⟨t.rules.insert r.name r, t.paths.insert r.name.text r.name⟩)

/-- Remove the rule of a name, and the entry of its text with it. -/
def remove (t : Tables) (n : Name) : Option Rule × Tables :=
  match t.rules[n]? with
  | some r => (some r, ⟨t.rules.erase n, t.paths.erase n.text⟩)
  | none => (none, t)

/-- Change the rule of a name in place. -/
def update (t : Tables) (n : Name) (f : Rule → Rule) : Tables :=
  { t with rules := t.rules.modify n f }

/-- Give every rule the status that its declaration records under `marker`, one after the other. -/
def restoreStatus (t : Tables) (marker : String) : Tables :=
  t.names.foldl (fun t n =>
    t.update n fun r => { r with status := (r.recordedStatus marker).getD r.status }) t

def edit (t : Tables) : Edit → Tables
  | .insert r => (t.insert r).2
  | .remove n => (t.remove n).2
  | .update n f _ => t.update n f
  | .restoreStatus marker => t.restoreStatus marker

/-- The tables that a sequence of edits makes, beginning with empty ones. -/
def ofEdits (edits : List Edit) : Tables := edits.foldl edit {}

/-! ## Tables that answer as a graph does -/

/-- Looking up names and texts gives what it gives in the graph. -/
structure Represents (t : Tables) (g : Graph) : Prop where
  rules : ∀ n, t.rules[n]? = g.get? n
  paths : ∀ text, t.paths[text]? = g.find? text

variable {t : Tables} {g : Graph}

/-- A graph has one pair of tables. -/
theorem Represents.unique {t' : Tables} (h : t.Represents g) (h' : t'.Represents g) : t = t' := by
  obtain ⟨rules, paths⟩ := t
  obtain ⟨rules', paths'⟩ := t'
  have hrules : rules = rules' :=
    Std.ExtTreeMap.ext_getElem? fun n => (h.rules n).trans (h'.rules n).symm
  have hpaths : paths = paths' :=
    Std.ExtTreeMap.ext_getElem? fun text => (h.paths text).trans (h'.paths text).symm
  rw [hrules, hpaths]

/-- The keys of the first table are the names of the graph. -/
theorem Represents.mem_keys (h : t.Represents g) {n : Name} : n ∈ t.rules.keys ↔ n ∈ g.names := by
  rw [Std.ExtTreeMap.mem_keys, Std.ExtTreeMap.mem_iff_isSome_getElem?, h.rules,
    Option.isSome_iff_exists, Graph.mem_names_iff]

/-- The names are the same, and there is only one way to sort them. -/
theorem Represents.names (h : t.Represents g) : t.names = g.names := by
  have hkeys : t.rules.keys.Nodup := Std.ExtTreeMap.distinct_keys.imp (by simp)
  have hsorted : Name.Sorted g.names := g.increasing_names.imp fun hlt =>
    String.not_lt.mp (String.lt_asymm hlt)
  refine Name.eq_of_sorted hsorted ?_ ?_ fun m hm n hn => Graph.eq_of_text_eq hm hn
  · have hmerged : t.names.Pairwise fun m n => decide (m.text ≤ n.text) = true := by
      refine List.pairwise_mergeSort ?_ ?_ _
      · intro a b c hab hbc
        exact decide_eq_true (String.le_trans (of_decide_eq_true hab) (of_decide_eq_true hbc))
      · intro a b
        simpa using String.le_total a.text b.text
    exact hmerged.imp of_decide_eq_true
  · refine (List.mergeSort_perm ..).trans ?_
    exact (List.perm_ext_iff_of_nodup hkeys g.nodup_names).mpr fun n => h.mem_keys

/-- Adding a rule is reported in the same way, and gives tables of the graph with it. -/
theorem Represents.insert (h : t.Represents g) (r : Rule) :
    (t.insert r).1 = (g.insert r).map (fun _ => ()) ∧
      (t.insert r).2.Represents (g.edit (.insert r)) := by
  rw [Tables.insert, h.paths]
  cases hfind : g.find? r.name.text with
  | some n =>
      have hinsert := Graph.insert_of_find?_eq_some hfind
      rw [Graph.edit_insert_of_error hinsert, hinsert]
      exact ⟨rfl, h⟩
  | none =>
      obtain ⟨g', hinsert, hget, hpaths⟩ := Graph.insert_of_find?_eq_none hfind
      have hedit : g.edit (.insert r) = g' := by
        rw [Graph.edit, hinsert]
        rfl
      rw [hinsert, hedit]
      refine ⟨rfl, ⟨fun n => ?_, fun text => ?_⟩⟩
      · show (t.rules.insert r.name r)[n]? = g'.get? n
        rw [Std.ExtTreeMap.getElem?_insert, h.rules, hget]
        simp only [Std.LawfulEqOrd.compare_eq_iff_eq]
      · show (t.paths.insert r.name.text r.name)[text]? = g'.find? text
        rw [Std.ExtTreeMap.getElem?_insert, h.paths, hpaths]
        simp only [Std.LawfulEqOrd.compare_eq_iff_eq]

/-- Removing a rule gives back the rule of the name, and tables of the graph without it. -/
theorem Represents.remove (h : t.Represents g) (n : Name) :
    (t.remove n).1 = g.get? n ∧ (t.remove n).2.Represents (g.erase n) := by
  rw [Tables.remove, h.rules]
  cases hget : g.get? n with
  | none =>
      have hcontains : g.contains n = false := by
        rw [Graph.contains, hget]
        rfl
      rw [Graph.erase_of_not_contains hcontains]
      exact ⟨rfl, h⟩
  | some r =>
      have hn : n ∈ g.names := Graph.mem_names_of_get? hget
      refine ⟨rfl, ⟨fun m => ?_, fun text => ?_⟩⟩
      · show (t.rules.erase n)[m]? = (g.erase n).get? m
        rw [Std.ExtTreeMap.getElem?_erase, h.rules]
        refine Option.ext fun s => ?_
        rw [Graph.get?_erase_eq_some]
        by_cases hm : n = m
        · simp [hm]
        · simp [hm, Ne.symm hm]
      · -- the text that is freed belongs to the name that is removed, and to no other
        show (t.paths.erase n.text)[text]? = (g.erase n).find? text
        rw [Std.ExtTreeMap.getElem?_erase, h.paths, Graph.find?_erase]
        by_cases htext : n.text = text
        · subst htext
          rw [Graph.find?_eq_some_iff.mpr ⟨hn, rfl⟩]
          simp [Option.filter]
        · rw [if_neg (by simpa using htext)]
          cases hfind : g.find? text with
          | none => rfl
          | some m =>
              have hm : m ≠ n := by
                rintro rfl
                exact htext (Graph.find?_eq_some_iff.mp hfind).2
              simp [Option.filter, hm]

/-- An update changes the rule of one name. -/
theorem rules_update (t : Tables) (n m : Name) (f : Rule → Rule) :
    (t.update n f).rules[m]? = if n = m then t.rules[m]?.map f else t.rules[m]? := by
  show (t.rules.modify n f)[m]? = _
  rw [Std.ExtTreeMap.getElem?_modify]
  by_cases hm : n = m
  · subst hm
    simp
  · simp [hm]

/-- An update in place changes one rule, and no name. -/
theorem Represents.update (h : t.Represents g) (n : Name) {f : Rule → Rule}
    (hf : ∀ r, (f r).name = r.name) : (t.update n f).Represents (g.modify n f) where
  rules m := by
    rw [rules_update, h.rules, Graph.get?_modify]
    by_cases hm : n = m
    · subst hm
      cases hget : g.get? n with
      | none => simp
      | some r =>
          have hname : (f r).name = n := (hf r).trans (Graph.name_of_get? hget)
          simp [← hname]
    · simp [hm, Ne.symm hm]
  paths text := (h.paths text).trans (Graph.find?_map g _ text).symm

/-- Updates of different names change the rule of each of these names once. -/
theorem foldl_update {f : Rule → Rule} {ns : List Name} (hns : ns.Nodup) (t : Tables) (m : Name) :
    (ns.foldl (fun t n => t.update n f) t).rules[m]? =
      if m ∈ ns then t.rules[m]?.map f else t.rules[m]? := by
  induction ns generalizing t with
  | nil => simp
  | cons n ns ih =>
      obtain ⟨hn, hns⟩ := List.nodup_cons.mp hns
      rw [List.foldl_cons, ih hns, rules_update]
      by_cases hm : n = m
      · subst hm
        simp [hn]
      · simp [hm, Ne.symm hm]

/-- Updates leave the names of the texts alone. -/
theorem paths_foldl_update {f : Rule → Rule} (ns : List Name) (t : Tables) :
    (ns.foldl (fun t n => t.update n f) t).paths = t.paths := by
  induction ns generalizing t with
  | nil => rfl
  | cons n ns ih => exact ih (t.update n f)

/-- Restoring statuses one after the other gives tables of the graph with all of them restored. -/
theorem Represents.restoreStatus (h : t.Represents g) (marker : String) :
    (t.restoreStatus marker).Represents (g.restoreStatus marker) where
  rules n := by
    rw [Tables.restoreStatus, h.names, foldl_update g.nodup_names, h.rules,
      Graph.get?_restoreStatus]
    split
    · rfl
    · rename_i hn
      cases hget : g.get? n with
      | none => rfl
      | some r => exact absurd (Graph.mem_names_of_get? hget) hn
  paths text := by
    rw [Tables.restoreStatus, paths_foldl_update, h.paths]
    exact (Graph.find?_map g _ text).symm

/-! ## Sequences of edits -/

theorem represents_empty : Represents {} {} where
  rules _ := Std.ExtTreeMap.getElem?_empty
  paths _ := Std.ExtTreeMap.getElem?_empty

/-- One edit, made in the tables and in the graph. -/
theorem Represents.edit (h : t.Represents g) (e : Edit) : (t.edit e).Represents (g.edit e) := by
  cases e with
  | insert r => exact (h.insert r).2
  | remove n => exact (h.remove n).2
  | update n f hf => exact h.update n hf
  | restoreStatus marker => exact h.restoreStatus marker

/-- Any number of edits, made in the tables and in the graph. -/
theorem represents_ofEdits (edits : List Edit) :
    (Tables.ofEdits edits).Represents (Graph.ofEdits edits) := by
  have hedits : ∀ {t : Tables} {g : Graph}, t.Represents g →
      (edits.foldl Tables.edit t).Represents (edits.foldl Graph.edit g) := by
    induction edits with
    | nil => exact id
    | cons e edits ih => exact fun h => ih (h.edit e)
  exact hedits represents_empty

end Tables

/-- Both tables of a graph stay consistent.  After any sequence of edits they answer as the graph
does: to a name with the rule of this name, to a text with the only name in the graph that has it.
The names are listed once each, in strictly increasing order of their texts.  A rule cannot be added
if its name is in the graph, and is ambiguous if another name has its text; then nothing changes.
Nor does anything change if an absent name is removed, even if another name has its text. -/
theorem Graph.tables_stay_consistent (edits : List Edit) :
    let g := Graph.ofEdits edits
    let t := Tables.ofEdits edits
    (t.Represents g ∧ t.names = g.names) ∧
    (∀ text n, g.find? text = some n ↔ g.contains n = true ∧ n.text = text) ∧
    (∀ n r, g.get? n = some r → r.name = n) ∧
    (∀ m n, g.contains m = true → g.contains n = true → m.text = n.text → m = n) ∧
    (g.names.Pairwise (fun m n => m.text < n.text) ∧ ∀ n, n ∈ g.names ↔ g.contains n = true) ∧
    (∀ r, (t.insert r).1 = (g.insert r).map (fun _ => ()) ∧
      (g.insert r = .error .reintroduction ↔ g.contains r.name = true) ∧
      (∀ text, g.insert r = .error (.ambiguous text) ↔
        text = r.name.text ∧ ∃ n, g.contains n = true ∧ n.text = text ∧ n ≠ r.name) ∧
      ∀ err, g.insert r = .error err → (t.insert r).2 = t ∧ g.edit (.insert r) = g) ∧
    ∀ n, (t.remove n).1 = g.get? n ∧
      (g.contains n = false → (t.remove n).2 = t ∧ g.erase n = g) := by
  intro g t
  have h : t.Represents g := Tables.represents_ofEdits edits
  refine ⟨⟨h, h.names⟩, ?_, fun n r => name_of_get?, ?_, ⟨g.increasing_names, ?_⟩, ?_, ?_⟩
  · intro text n
    rw [contains_iff, find?_eq_some_iff]
  · intro m n hm hn
    exact eq_of_text_eq (contains_iff.mp hm) (contains_iff.mp hn)
  · exact fun n => contains_iff.symm
  · intro r
    refine ⟨(h.insert r).1, insert_eq_reintroduction_iff, fun text => insert_eq_ambiguous_iff, ?_⟩
    intro err herr
    have hedit : g.edit (.insert r) = g := edit_insert_of_error herr
    exact ⟨(hedit ▸ (h.insert r).2).unique h, hedit⟩
  · intro n
    refine ⟨(h.remove n).1, fun hn => ?_⟩
    have herase : g.erase n = g := erase_of_not_contains hn
    exact ⟨(herase ▸ (h.remove n).2).unique h, herase⟩

end RuleGraph
