import RuleGraph.NameTable

/-! # The identity of names

    A table is collected from a list of names, and further names are entered
    one by one.  Collecting keeps the first name of each text
    (`NameTable.get?_ofList`), but entering replaces the name that a text had,
    even where it reports that there was one (`NameTable.get?_insert`).  So a
    text never loses its name, and has the one that was entered last
    (`NameTable.get?_enter`).  The same goes for references, which stand for
    the first candidate that has a name (`NameTable.resolve_eq_get?`). -/

namespace RuleGraph

namespace NameTable

variable {t : NameTable} {text : String} {n : Name}

/-! ## Collecting and entering -/

/-- Enter names one after the other, whatever is reported meanwhile. -/
def enter (t : NameTable) (ns : List Name) : NameTable := ns.foldl (fun t n => (t.insert n).2) t

/-- The last name of a list that has the text. -/
def lastNamed (text : String) (ns : List Name) : Option Name := ns.reverse.find? (·.text = text)

/-- A text that is entered has the entered name from then on, and other texts have what they had. -/
theorem get?_insert (t : NameTable) (n : Name) (text : String) :
    (t.insert n).2.get? text = if n.text = text then some n else t.get? text := by
  change (t.names.insert n.text n)[text]? = _
  rw [Std.ExtTreeMap.getElem?_insert]
  simp only [Std.LawfulEqOrd.compare_eq_iff_eq, get?]

/-- The first name of a list is the last one of its text only if no other has the text. -/
theorem lastNamed_cons (n : Name) (ns : List Name) (text : String) :
    lastNamed text (n :: ns) =
      (lastNamed text ns).or (if n.text = text then some n else none) := by
  rw [lastNamed, List.reverse_cons, List.find?_append, lastNamed, List.find?_singleton]
  simp only [decide_eq_true_eq]

/-- A text has the name that was entered last, or else the one it had. -/
theorem get?_enter (t : NameTable) (ns : List Name) (text : String) :
    (t.enter ns).get? text = (lastNamed text ns).or (t.get? text) := by
  induction ns generalizing t with
  | nil => rfl
  | cons n ns ih =>
      rw [lastNamed_cons, Option.or_assoc]
      refine (ih (t.insert n).2).trans ?_
      rw [get?_insert]
      split
      · rfl
      · rfl

/-- A text keeps the name that it has, and otherwise gets the first one in the list. -/
theorem getElem?_collect (ns : List Name) (names : Std.ExtTreeMap String Name) (text : String) :
    (ns.foldl (fun names n => names.insertIfNew n.text n) names)[text]? =
      names[text]?.or (ns.find? (·.text = text)) := by
  induction ns generalizing names with
  | nil => exact Option.or_none.symm
  | cons n ns ih =>
      refine (ih _).trans ?_
      rw [Std.ExtTreeMap.getElem?_insertIfNew]
      by_cases h : n.text = text
      · subst h
        rw [List.find?_cons_of_pos (by simp)]
        cases hn : names[n.text]? with
        | none =>
            have hnew : n.text ∉ names := by
              rw [Std.ExtTreeMap.mem_iff_isSome_getElem?, hn]
              exact Bool.false_ne_true
            rw [if_pos ⟨Std.ReflOrd.compare_self, hnew⟩]
            rfl
        | some m =>
            have hmem : n.text ∈ names := by
              rw [Std.ExtTreeMap.mem_iff_isSome_getElem?, hn]
              rfl
            rw [if_neg fun hnew => hnew.2 hmem]
            rfl
      · rw [List.find?_cons_of_neg (by simpa using h), if_neg]
        exact fun hnew => h (Std.LawfulEqOrd.eq_of_compare hnew.1)

/-- Of the names that are collected, the first one of a text counts. -/
theorem get?_ofList (ns : List Name) (text : String) :
    (ofList ns).get? text = ns.find? (·.text = text) := by
  refine (getElem?_collect ns ∅ text).trans ?_
  rw [Std.ExtTreeMap.getElem?_empty, Option.none_or]

/-! ## References -/

/-- The text that a reference stands for: the first candidate that has a name. -/
def candidate? (t : NameTable) (context : Name) (reference : String) : Option String :=
  (candidates context reference).find? fun path => (t.get? path).isSome

/-- A reference resolves to the name of the text that it stands for. -/
theorem resolve_eq_get? {context : Name} {reference : String}
    (h : t.candidate? context reference = some text) :
    t.resolve context reference = t.get? text := by
  rw [candidate?] at h
  rw [resolve]
  generalize candidates context reference = paths at h ⊢
  induction paths with
  | nil => cases h
  | cons path paths ih =>
      rw [List.find?_cons] at h
      rw [List.findSome?_cons]
      cases hpath : t.get? path with
      | none =>
          rw [hpath] at h
          exact ih h
      | some n =>
          rw [hpath] at h
          cases h
          exact hpath.symm

/-! ## Identity -/

/-- Entering a name for a text that has one is reported, whether it is the same name or not. -/
theorem insert_eq_reinsertion (h : t.get? text = some n) {m : Name} (hm : m.text = text) :
    (t.insert m).1 = .error .reinsertion := by
  refine if_pos ?_
  rw [hm, Std.ExtTreeMap.contains_eq_isSome_getElem?]
  exact congrArg Option.isSome h

/-- Entering a name again changes the table, unless it is the name that is there. -/
theorem insert_eq_self_iff (h : t.get? text = some n) {m : Name} (hm : m.text = text) :
    (t.insert m).2 = t ↔ m = n := by
  subst hm
  constructor
  · intro heq
    have hget := get?_insert t m m.text
    rw [heq, h, if_pos rfl] at hget
    exact (Option.some.inj hget).symm
  · rintro rfl
    have hnames : t.names.insert m.text m = t.names := by
      refine Std.ExtTreeMap.ext_getElem? ?_
      intro path
      refine (get?_insert t m path).trans ?_
      split
      · rename_i hpath
        rw [← hpath]
        exact h.symm
      · rfl
    exact congrArg NameTable.mk hnames

/-- A text that has a name keeps it while more names are collected.  Where names are entered,
look-ups and references yield the one that was entered last for the text, so they yield the name it
had if and only if that is the last one entered, or none was.  Entering a name for the text is
reported, but leaves the table as it was only if it is the name that the text has. -/
theorem identity_kept_unless_entered_again {t : NameTable} {text : String} {n : Name}
    (h : t.get? text = some n) :
    (∀ collected more, t = ofList collected →
      (ofList (collected ++ more)).get? text = some n) ∧
    (∀ after, (t.enter after).get? text = some ((lastNamed text after).getD n) ∧
      (∀ context reference, (t.enter after).candidate? context reference = some text →
        (t.enter after).resolve context reference = some ((lastNamed text after).getD n)) ∧
      ((t.enter after).get? text = some n ↔ ∀ m, lastNamed text after = some m → m = n)) ∧
    ∀ m, m.text = text →
      (t.insert m).1 = .error .reinsertion ∧ ((t.insert m).2 = t ↔ m = n) := by
  refine ⟨?_, ?_, fun m hm => ⟨insert_eq_reinsertion h hm, insert_eq_self_iff h hm⟩⟩
  · rintro collected more rfl
    rw [get?_ofList] at h
    rw [get?_ofList, List.find?_append, h, Option.some_or]
  · intro after
    have hget : (t.enter after).get? text = some ((lastNamed text after).getD n) := by
      rw [get?_enter, h, Option.or_some]
    refine ⟨hget, fun context reference hcandidate => (resolve_eq_get? hcandidate).trans hget, ?_⟩
    rw [hget, Option.some_inj]
    cases lastNamed text after with
    | none => simp
    | some m => simp

/-- A rent that was collected twice is the first one; it stays so when the rent of a house is
entered and when it is entered again itself, and a reference from the garden stands for it. -/
theorem identity_kept_of_rent :
    (ofList [⟨"rent", 0⟩, ⟨"rent", 1⟩]).get? "rent" = some ⟨"rent", 0⟩ ∧
    (ofList ([⟨"rent", 0⟩, ⟨"rent", 1⟩] ++ [⟨"house", 2⟩])).get? "rent" = some ⟨"rent", 0⟩ ∧
    ((ofList [⟨"rent", 0⟩, ⟨"rent", 1⟩]).enter
      [⟨"house . rent", 3⟩, ⟨"rent", 0⟩]).get? "rent" = some ⟨"rent", 0⟩ ∧
    ((ofList [⟨"rent", 0⟩, ⟨"rent", 1⟩]).enter
      [⟨"house . rent", 3⟩, ⟨"rent", 0⟩]).resolve ⟨"garden", 4⟩ "rent" = some ⟨"rent", 0⟩ ∧
    ((ofList [⟨"rent", 0⟩, ⟨"rent", 1⟩]).insert ⟨"rent", 0⟩).1 = .error .reinsertion ∧
    ((ofList [⟨"rent", 0⟩, ⟨"rent", 1⟩]).insert ⟨"rent", 0⟩).2 =
      ofList [⟨"rent", 0⟩, ⟨"rent", 1⟩] := by
  have h : (ofList [⟨"rent", 0⟩, ⟨"rent", 1⟩]).get? "rent" = some ⟨"rent", 0⟩ := by decide +kernel
  obtain ⟨hcollect, henter, hinsert⟩ := identity_kept_unless_entered_again h
  obtain ⟨-, hresolve, hkept⟩ := henter [⟨"house . rent", 3⟩, ⟨"rent", 0⟩]
  obtain ⟨hreported, hsame⟩ := hinsert ⟨"rent", 0⟩ rfl
  refine ⟨h, hcollect _ [⟨"house", 2⟩] rfl, hkept.mpr ?_, ?_, hreported, hsame.mpr rfl⟩
  · intro m hm
    cases hm
    rfl
  · exact hresolve ⟨"garden", 4⟩ "rent" (by decide +kernel)

/-- When a second rent is entered, this is reported, and yet look-ups and references yield the
second one from then on. -/
theorem identity_lost_of_rent :
    (ofList [⟨"rent", 0⟩]).get? "rent" = some ⟨"rent", 0⟩ ∧
    ((ofList [⟨"rent", 0⟩]).insert ⟨"rent", 1⟩).1 = .error .reinsertion ∧
    ((ofList [⟨"rent", 0⟩]).insert ⟨"rent", 1⟩).2.get? "rent" = some ⟨"rent", 1⟩ ∧
    ((ofList [⟨"rent", 0⟩]).insert ⟨"rent", 1⟩).2.resolve ⟨"house", 2⟩ "rent" = some ⟨"rent", 1⟩ ∧
    ((ofList [⟨"rent", 0⟩]).insert ⟨"rent", 1⟩).2 ≠ ofList [⟨"rent", 0⟩] := by
  have hfirst : (ofList [⟨"rent", 0⟩]).get? "rent" = some ⟨"rent", 0⟩ := by decide +kernel
  have hsecond : ((ofList [⟨"rent", 0⟩]).insert ⟨"rent", 1⟩).2.get? "rent" = some ⟨"rent", 1⟩ := by
    decide +kernel
  refine ⟨hfirst, insert_eq_reinsertion hfirst rfl, hsecond, by decide +kernel, ?_⟩
  intro heq
  rw [heq, hfirst] at hsecond
  exact absurd hsecond (by decide)

end NameTable

end RuleGraph
