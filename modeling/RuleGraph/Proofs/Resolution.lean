import Mathlib.Data.List.Infix
import RuleGraph.NameTable

/-! # Resolving references by components

    A dotted text is read twice: `Name.components` cuts it at every separator,
    and `Name.namespaces` collects what stands before each of them.  Separators
    may overlap, as in `a . . b`, so there can be several ways to divide a
    text; both scans take the leftmost one (`Name.IsLeftmost`), which is
    determined by the text (`Name.cut_intercalate`).

    * The components of a text make up the text again
      (`Name.intercalate_cut`), and the namespaces are made up of the first
      components (`Name.cutsAfter_eq`).
    * A reference made from within a rule stands for one of the paths that are
      made up of the first components of the rule and the reference
      (`NameTable.candidates_eq`), and those with more components are tried
      first. -/

namespace RuleGraph

namespace Name

/-! ## Cutting a text -/

/-- The words are what remains if a text is cut at each separator from left to right: no separator
lies in a word, nor begins in it and ends before the end of the separator that follows. -/
structure IsLeftmost (ws : List (List Char)) : Prop where
  dropLast : ∀ w ∈ ws.dropLast, ¬[' ', '.', ' '] <:+: w ++ [' ', '.']
  last : ∀ w ∈ ws.getLast?, ¬[' ', '.', ' '] <:+: w

/-- A single word must not hold a separator. -/
theorem isLeftmost_singleton {w : List Char} : IsLeftmost [w] ↔ ¬[' ', '.', ' '] <:+: w := by
  constructor
  · exact fun h => h.last w rfl
  · intro h
    refine ⟨by simp, ?_⟩
    rintro v ⟨⟩
    exact h

/-- The first word must neither hold a separator nor begin one that ends before the end of the
separator after it. -/
theorem isLeftmost_cons {w : List Char} {ws : List (List Char)} (hws : ws ≠ []) :
    IsLeftmost (w :: ws) ↔ ¬[' ', '.', ' '] <:+: w ++ [' ', '.'] ∧ IsLeftmost ws := by
  obtain ⟨v, vs, rfl⟩ := List.exists_cons_of_ne_nil hws
  constructor
  · intro h
    refine ⟨h.dropLast w (List.mem_cons_self ..), ⟨?_, ?_⟩⟩
    · exact fun u hu => h.dropLast u (List.mem_cons_of_mem w hu)
    · exact fun u hu => h.last u (by rwa [List.getLast?_cons_cons])
  · rintro ⟨hw, h⟩
    refine ⟨?_, ?_⟩
    · intro u hu
      rcases List.mem_cons.mp hu with rfl | hu
      · exact hw
      · exact h.dropLast u hu
    · exact fun u hu => h.last u (by rwa [List.getLast?_cons_cons] at hu)

/-- Cutting a text leaves one word at least. -/
theorem cut_ne_nil (cs : List Char) : cut cs ≠ [] := by
  fun_induction cut cs with
  | case1 => simp
  | case2 rest ih => simp
  | case3 c rest hc ih => simpa using ih

/-- A letter in front of the first word is a letter in front of the text. -/
theorem intercalate_modifyHead {ws : List (List Char)} (hws : ws ≠ []) (c : Char) :
    [' ', '.', ' '].intercalate (ws.modifyHead (c :: ·)) = c :: [' ', '.', ' '].intercalate ws := by
  obtain ⟨w, ws, rfl⟩ := List.exists_cons_of_ne_nil hws
  rw [List.modifyHead_cons]
  cases ws with
  | nil => rfl
  | cons v vs =>
      rw [List.intercalate_cons_cons, List.intercalate_cons_cons]
      rfl

theorem intercalate_cons {ws : List (List Char)} (hws : ws ≠ []) (w : List Char) :
    [' ', '.', ' '].intercalate (w :: ws) =
      w ++ [' ', '.', ' '] ++ [' ', '.', ' '].intercalate ws := by
  obtain ⟨v, vs, rfl⟩ := List.exists_cons_of_ne_nil hws
  exact List.intercalate_cons_cons

/-- The pieces of a text make up the text. -/
theorem intercalate_cut (cs : List Char) : [' ', '.', ' '].intercalate (cut cs) = cs := by
  fun_induction cut cs with
  | case1 => rfl
  | case2 rest ih =>
      rw [intercalate_cons (cut_ne_nil rest), ih]
      rfl
  | case3 c rest hc ih => rw [intercalate_modifyHead (cut_ne_nil rest), ih]

/-- A text without separators is left in one piece. -/
theorem cut_of_not_infix {w : List Char} (hw : ¬[' ', '.', ' '] <:+: w) : cut w = [w] := by
  induction w with
  | nil => rfl
  | cons c w ih =>
      have hc : ∀ rest, c = ' ' → w = '.' :: ' ' :: rest → False := by
        rintro rest rfl rfl
        exact hw ⟨[], rest, rfl⟩
      rw [cut.eq_3 c w hc, ih fun h => hw (List.infix_cons h)]
      rfl

/-- Where no separator comes earlier, a text is cut at the given one. -/
theorem cut_append {w : List Char} (hw : ¬[' ', '.', ' '] <:+: w ++ [' ', '.']) (rest : List Char) :
    cut (w ++ [' ', '.', ' '] ++ rest) = w :: cut rest := by
  induction w with
  | nil => rfl
  | cons c w ih =>
      have hc : ∀ tail, c = ' ' → w ++ [' ', '.', ' '] ++ rest = '.' :: ' ' :: tail → False := by
        rintro tail rfl h
        -- the first two characters of the remaining text belong to the word and the separator
        refine hw (List.IsPrefix.isInfix ?_)
        cases w with
        | nil => simp at h
        | cons a w =>
            obtain ⟨rfl, htail⟩ := List.cons.inj h
            cases w with
            | nil => exact ⟨['.'], rfl⟩
            | cons b w =>
                obtain ⟨rfl, -⟩ := List.cons.inj htail
                exact ⟨w ++ [' ', '.'], rfl⟩
      show cut (c :: (w ++ [' ', '.', ' '] ++ rest)) = _
      rw [cut.eq_3 _ _ hc, ih fun h => hw (List.infix_cons h)]
      rfl

/-- A leftmost division of a text is the one that cutting finds. -/
theorem cut_intercalate {ws : List (List Char)} (hws : ws ≠ []) (h : IsLeftmost ws) :
    cut ([' ', '.', ' '].intercalate ws) = ws := by
  induction ws with
  | nil => exact absurd rfl hws
  | cons w ws ih =>
      by_cases hne : ws = []
      · subst hne
        rw [List.intercalate_singleton]
        exact cut_of_not_infix (isLeftmost_singleton.mp h)
      · obtain ⟨hw, h⟩ := (isLeftmost_cons hne).mp h
        rw [intercalate_cons hne, cut_append hw, ih hne h]

/-- Cutting a text finds a leftmost division. -/
theorem isLeftmost_cut (cs : List Char) : IsLeftmost (cut cs) := by
  fun_induction cut cs with
  | case1 => exact isLeftmost_singleton.mpr (by decide)
  | case2 rest ih => exact (isLeftmost_cons (cut_ne_nil rest)).mpr ⟨by decide, ih⟩
  | case3 c rest hc ih =>
      obtain ⟨w, ws, hcut⟩ := List.exists_cons_of_ne_nil (cut_ne_nil rest)
      have hrest := intercalate_cut rest
      -- a separator at the front of the longer word would be one at the front of the text
      have hfront : ∀ {v}, v <+: rest → ¬[' ', '.', ' '] <+: c :: v := by
        rintro v ⟨tail, rfl⟩ ⟨u, hu⟩
        obtain ⟨rfl, rfl⟩ := List.cons.inj hu
        exact hc (u ++ tail) rfl (by simp)
      rw [hcut] at ih hrest ⊢
      rw [List.modifyHead_cons]
      by_cases hne : ws = []
      · subst hne
        rw [List.intercalate_singleton] at hrest
        rw [isLeftmost_singleton] at ih ⊢
        rw [List.infix_cons_iff, not_or]
        exact ⟨hfront (hrest ▸ List.prefix_rfl), ih⟩
      · rw [isLeftmost_cons hne] at ih ⊢
        refine ⟨?_, ih.2⟩
        rw [List.cons_append, List.infix_cons_iff, not_or]
        refine ⟨hfront ?_, ih.1⟩
        rw [← hrest, intercalate_cons hne]
        exact ⟨' ' :: [' ', '.', ' '].intercalate ws, by simp⟩

/-- The first pieces of a leftmost division are a leftmost division. -/
theorem IsLeftmost.take {ws : List (List Char)} (h : IsLeftmost ws) {k : Nat} (hk : k ≠ 0) :
    IsLeftmost (ws.take k) := by
  induction ws generalizing k with
  | nil => simpa using h
  | cons w ws ih =>
      obtain ⟨k, rfl⟩ := Nat.exists_eq_succ_of_ne_zero hk
      rw [List.take_succ_cons]
      by_cases hws : ws = []
      · subst hws
        rwa [List.take_nil]
      · obtain ⟨hw, h⟩ := (isLeftmost_cons hws).mp h
        by_cases hk : k = 0
        · subst hk
          rw [List.take_zero, isLeftmost_singleton]
          exact fun h => hw (List.IsInfix.trans h (List.prefix_append ..).isInfix)
        · exact (isLeftmost_cons (by simp [hk, hws])).mpr ⟨hw, ih h hk⟩

/-! ## Namespaces -/

/-- The text before each separator is made up of the pieces before it. -/
theorem cutsAfter_eq (read cs : List Char) :
    cutsAfter read cs = (List.range' 1 ((cut cs).length - 1)).map fun k =>
      read ++ [' ', '.', ' '].intercalate ((cut cs).take k) := by
  induction cs using cut.induct generalizing read with
  | case1 => rfl
  | case2 rest ih =>
      obtain ⟨m, hm⟩ := Nat.exists_eq_succ_of_ne_zero
        (List.length_eq_zero_iff.not.mpr (cut_ne_nil rest))
      rw [cutsAfter, cut, ih, List.length_cons, Nat.add_sub_cancel, hm, Nat.succ_sub_one,
        List.range'_succ, List.map_cons]
      congr 1
      · simp
      · -- every further piece comes after an empty one
        rw [Nat.add_comm 1 1, ← List.map_add_range', List.map_map]
        refine List.map_congr_left fun k hk => ?_
        have hk : k ≠ 0 := by
          simp at hk
          omega
        show _ = read ++ [' ', '.', ' '].intercalate (([] :: cut rest).take (1 + k))
        rw [Nat.add_comm 1 k, List.take_succ_cons, intercalate_cons (by simp [hk, cut_ne_nil])]
        simp
  | case3 c rest hc ih =>
      rw [cutsAfter.eq_3 _ _ _ hc, cut.eq_3 _ _ hc, ih, List.length_modifyHead]
      refine List.map_congr_left fun k hk => ?_
      have hk : k ≠ 0 := by
        simp at hk
        omega
      rw [List.take_modifyHead, intercalate_modifyHead (by simp [hk, cut_ne_nil])]
      simp

theorem toList_separator : separator.toList = [' ', '.', ' '] := rfl

variable (n : Name)

theorem components_ne_nil : n.components ≠ [] := by
  simpa [components] using cut_ne_nil n.text.toList

/-- The components of a name are the words that its text is cut into. -/
theorem map_toList_components : n.components.map String.toList = cut n.text.toList := by
  simp [components]

/-- The components of a name, joined by separators, give back its text. -/
theorem intercalate_components : String.intercalate separator n.components = n.text := by
  rw [← String.toList_inj, String.toList_intercalate, map_toList_components, toList_separator,
    intercalate_cut]

/-- The namespaces of a name are its components up to each of them but the last, joined by
separators. -/
theorem namespaces_eq :
    n.namespaces = (List.range' 1 (n.components.length - 1)).map fun k =>
      String.intercalate separator (n.components.take k) := by
  rw [namespaces, cutsAfter_eq, List.map_map, components, List.length_map]
  refine List.map_congr_left fun k _ => ?_
  rw [← String.toList_inj, String.toList_intercalate]
  simp [toList_separator, List.map_take]

/-- The first components of a name are the components of the text that they make up. -/
theorem components_intercalate {k : Nat} (hk : k ≠ 0) (id : Nat) :
    components ⟨String.intercalate separator (n.components.take k), id⟩ = n.components.take k := by
  rw [components, String.toList_intercalate, toList_separator, List.map_take,
    map_toList_components, cut_intercalate (by simp [hk, cut_ne_nil])
      ((isLeftmost_cut _).take hk), List.map_take]
  rfl

end Name

namespace NameTable

/-! ## References -/

variable {t : NameTable} {context : Name} {reference : String}

/-- The path of a reference below the first `k` components of a name. -/
def path (context : Name) (reference : String) (k : Nat) : String :=
  String.intercalate Name.separator (context.components.take k ++ [reference])

theorem path_zero : path context reference 0 = reference := by
  simp [path]

/-- Below components, a path is their joined text, a separator and the reference. -/
theorem path_of_ne_zero {k : Nat} (hk : k ≠ 0) :
    path context reference k =
      String.intercalate Name.separator (context.components.take k) ++ Name.separator ++
        reference := by
  have hconcat : ∀ {ws : List String}, ws ≠ [] →
      String.intercalate Name.separator (ws ++ [reference]) =
        String.intercalate Name.separator ws ++ Name.separator ++ reference := by
    intro ws hws
    rw [← String.toList_inj]
    simp only [String.toList_intercalate, String.toList_append, List.map_append, List.map_cons,
      List.map_nil]
    induction ws with
    | nil => exact absurd rfl hws
    | cons w ws ih =>
        by_cases hne : ws = []
        · subst hne
          simp
        · obtain ⟨v, vs, rfl⟩ := List.exists_cons_of_ne_nil hne
          have ih := ih hne
          simp only [List.map_cons, List.cons_append, List.intercalate_cons_cons] at ih ⊢
          rw [ih]
          simp only [List.append_assoc]
  exact hconcat (by simp [hk, context.components_ne_nil])

/-- The texts that a reference may stand for are its paths, those with more components first. -/
theorem candidates_eq (context : Name) (reference : String) :
    candidates context reference =
      (List.range (context.components.length + 1)).reverse.map (path context reference) := by
  obtain ⟨m, hm⟩ := Nat.exists_eq_succ_of_ne_zero
    (List.length_eq_zero_iff.not.mpr context.components_ne_nil)
  have hinner : (List.range' 1 m).map (path context reference) =
      context.namespaces.map (· ++ Name.separator ++ reference) := by
    rw [Name.namespaces_eq, hm, Nat.succ_sub_one, List.map_map]
    refine List.map_congr_left fun k hk => path_of_ne_zero ?_
    simp at hk
    omega
  have houter : path context reference (m + 1) = context.text ++ Name.separator ++ reference := by
    rw [path_of_ne_zero (Nat.succ_ne_zero m), List.take_of_length_le (Nat.le_of_eq hm),
      Name.intercalate_components]
  rw [hm, List.range_succ, List.reverse_concat, List.range_eq_range', List.range'_succ]
  simp only [List.reverse_cons, List.map_cons, List.map_append, List.map_nil, List.map_reverse]
  rw [candidates, houter, path_zero, Nat.zero_add, hinner]
  simp

/-- Searching downwards finds the largest number that has a value. -/
theorem findSome?_reverse_range {α : Type} {f : Nat → Option α} {n : Nat} {a : α} :
    (List.range n).reverse.findSome? f = some a ↔
      ∃ k < n, f k = some a ∧ ∀ j, k < j → j < n → f j = none := by
  induction n with
  | zero => simp
  | succ n ih =>
      rw [List.range_succ, List.reverse_concat, List.findSome?_cons]
      cases hn : f n with
      | some b =>
          constructor
          · rintro ⟨⟩
            exact ⟨n, Nat.lt_succ_self n, hn, fun j hj hj' => absurd hj (by omega)⟩
          · rintro ⟨k, hk, hfk, hlast⟩
            have hkn : k = n := by
              refine Decidable.byContradiction fun hne => ?_
              cases hn.symm.trans (hlast n (by omega) (Nat.lt_succ_self n))
            rw [← hfk, hkn, hn]
      | none =>
          refine ih.trans ⟨?_, ?_⟩
          · rintro ⟨k, hk, hfk, hlast⟩
            refine ⟨k, Nat.lt_succ_of_lt hk, hfk, fun j hj hj' => ?_⟩
            by_cases hjn : j = n
            · rw [hjn, hn]
            · exact hlast j hj (by omega)
          · rintro ⟨k, hk, hfk, hlast⟩
            have hkn : k ≠ n := by
              rintro rfl
              cases hn.symm.trans hfk
            exact ⟨k, by omega, hfk, fun j hj hj' => hlast j hj (Nat.lt_succ_of_lt hj')⟩

/-- Names are resolved by their components.  The components of a name make up its text, and they are
the leftmost way to divide it.  The namespaces are what the first components make up, and have just
these as their components.  A reference made from within a rule is resolved to the entry for the
longest path that has one, among those that are made up of some first components of the rule, all or
none included, and the reference; it cannot be resolved if no path has an entry. -/
theorem resolution_follows_components :
    (∀ n : Name, String.intercalate Name.separator n.components = n.text ∧
      Name.IsLeftmost (n.components.map String.toList) ∧
      n.namespaces = (List.range' 1 (n.components.length - 1)).map (fun k =>
        String.intercalate Name.separator (n.components.take k)) ∧
      ∀ k text, n.namespaces[k]? = some text →
        ∀ id, Name.components ⟨text, id⟩ = n.components.take (k + 1)) ∧
    ∀ (t : NameTable) (context : Name) (reference : String),
      (∀ m, t.resolve context reference = some m ↔
        ∃ k ≤ context.components.length,
          t.get? (path context reference k) = some m ∧
          ∀ j, k < j → j ≤ context.components.length → t.get? (path context reference j) = none) ∧
      (t.resolve context reference = none ↔
        ∀ k ≤ context.components.length, t.get? (path context reference k) = none) := by
  constructor
  · intro n
    refine ⟨n.intercalate_components, ?_, n.namespaces_eq, ?_⟩
    · rw [n.map_toList_components]
      exact Name.isLeftmost_cut _
    · intro k text htext id
      rw [n.namespaces_eq, List.getElem?_map, Option.map_eq_some_iff] at htext
      obtain ⟨i, hi, rfl⟩ := htext
      have hi : k + 1 = i := by
        obtain ⟨_, hi⟩ := List.getElem?_eq_some_iff.mp hi
        rw [List.getElem_range'] at hi
        omega
      subst hi
      exact n.components_intercalate (Nat.succ_ne_zero k) id
  · intro t context reference
    rw [resolve, candidates_eq, List.findSome?_map]
    constructor
    · intro m
      rw [findSome?_reverse_range]
      simp only [Function.comp_apply, Nat.lt_succ_iff]
    · simp only [List.findSome?_eq_none_iff, List.mem_reverse, List.mem_range,
        Function.comp_apply, Nat.lt_succ_iff]

/-- The innermost scope is tried first: from within the kitchen, the rent is that of the kitchen, and
the electricity that of the house around it. -/
example :
    let t := ofList [⟨"rent", 0⟩, ⟨"house . rent", 1⟩, ⟨"house . kitchen . rent", 2⟩,
      ⟨"electricity", 3⟩, ⟨"house . electricity", 4⟩]
    t.resolve ⟨"house . kitchen", 5⟩ "rent" = some ⟨"house . kitchen . rent", 2⟩ ∧
      t.resolve ⟨"house . kitchen", 5⟩ "electricity" = some ⟨"house . electricity", 4⟩ := by
  decide +kernel

end NameTable

end RuleGraph
