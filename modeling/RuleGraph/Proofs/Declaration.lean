import Mathlib.Data.List.Nodup
import RuleGraph.Declaration

/-! # Declarations as maps

    A declaration keeps its attributes in a list.  It behaves as a map from
    keys to attributes as long as no key is repeated, which all operations
    preserve.  Besides look-ups, the lemmas follow the attributes that a
    condition on keys picks out: setting or removing one that is not among them
    changes neither them nor their order. -/

namespace RuleGraph

namespace Declaration

variable {d : Declaration} {k key : String} {a : Attribute}

/-- A key has no attribute if and only if it is not among the keys. -/
theorem get?_eq_none : d.get? k = none ↔ k ∉ d.keys := by
  rw [get?, Option.map_eq_none_iff, List.find?_eq_none, keys, List.mem_map]
  constructor
  · rintro h ⟨e, he, rfl⟩
    exact h e he (beq_self_eq_true e.1)
  · intro h e he hk
    exact h ⟨e, he, beq_iff_eq.mp hk⟩

theorem nodup_keys_empty : ({} : Declaration).keys.Nodup := List.nodup_nil

/-- The attributes whose keys satisfy a condition, in their order. -/
def pick (d : Declaration) (p : String → Bool) : List (String × Attribute) :=
  d.entries.filter fun e => p e.1

/-! ## Setting an attribute -/

theorem get?_insert_self (d : Declaration) (key : String) (a : Attribute) :
    (d.insert key a).get? key = some a := by
  obtain ⟨entries⟩ := d
  show ((putEntry key a entries).find? (·.1 == key)).map Prod.snd = some a
  induction entries with
  | nil => simp [putEntry]
  | cons e rest ih =>
      rw [putEntry]
      split
      · rename_i he
        simp [he]
      · rename_i he
        rw [List.find?_cons_of_neg (by simpa using he)]
        exact ih

theorem get?_insert_of_ne (h : k ≠ key) : (d.insert key a).get? k = d.get? k := by
  obtain ⟨entries⟩ := d
  show ((putEntry key a entries).find? (·.1 == k)).map Prod.snd =
    (entries.find? (·.1 == k)).map Prod.snd
  induction entries with
  | nil => simp [putEntry, h.symm]
  | cons e rest ih =>
      rw [putEntry]
      split
      · rename_i he
        simp [he, h.symm]
      · by_cases hk : e.1 = k
        · rw [List.find?_cons_of_pos (by simpa using hk), List.find?_cons_of_pos (by simpa using hk)]
        · rw [List.find?_cons_of_neg (by simpa using hk), List.find?_cons_of_neg (by simpa using hk)]
          exact ih

/-- A key that is set for the first time comes last, and all keys keep their positions. -/
theorem keys_insert (d : Declaration) (key : String) (a : Attribute) :
    (d.insert key a).keys = if key ∈ d.keys then d.keys else d.keys ++ [key] := by
  obtain ⟨entries⟩ := d
  show (putEntry key a entries).map Prod.fst =
    if key ∈ entries.map Prod.fst then entries.map Prod.fst else entries.map Prod.fst ++ [key]
  induction entries with
  | nil => rfl
  | cons e rest ih =>
      rw [putEntry]
      split
      · rename_i he
        simp [he]
      · rename_i he
        have hne : key ≠ e.1 := fun h => he h.symm
        rw [List.map_cons, ih, List.map_cons]
        by_cases hkey : key ∈ rest.map Prod.fst
        · rw [if_pos hkey, if_pos (List.mem_cons_of_mem e.1 hkey)]
        · rw [if_neg hkey, if_neg (List.not_mem_cons_of_ne_of_not_mem hne hkey), List.cons_append]

theorem nodup_keys_insert (h : d.keys.Nodup) : (d.insert key a).keys.Nodup := by
  rw [keys_insert]
  split
  · exact h
  · rename_i hkey
    refine List.nodup_append.mpr ⟨h, List.nodup_singleton key, ?_⟩
    rintro k hk _ hmem rfl
    exact hkey (List.mem_singleton.mp hmem ▸ hk)

/-- Giving back the attribute that is replaced makes no other difference. -/
theorem exchange_eq (d : Declaration) (key : String) (a : Attribute) :
    d.exchange key a = (d.get? key, d.insert key a) := by
  obtain ⟨entries⟩ := d
  have hentries : exchangeEntry key a entries =
      ((entries.find? (·.1 == key)).map Prod.snd, putEntry key a entries) := by
    induction entries with
    | nil => rfl
    | cons e rest ih =>
        rw [exchangeEntry, putEntry]
        by_cases he : e.1 = key
        · rw [if_pos he, if_pos he, List.find?_cons_of_pos (by simpa using he)]
          rfl
        · rw [if_neg he, if_neg he, List.find?_cons_of_neg (by simpa using he), ih]
          rfl
  show (exchangeEntry key a entries).map id mk = _
  rw [hentries]
  rfl

/-- Setting a key that does not satisfy the condition picks the same attributes. -/
theorem pick_insert {p : String → Bool} (h : p key = false) :
    (d.insert key a).pick p = d.pick p := by
  obtain ⟨entries⟩ := d
  show (putEntry key a entries).filter (fun e => p e.1) = entries.filter fun e => p e.1
  induction entries with
  | nil => simp [putEntry, h]
  | cons e rest ih =>
      rw [putEntry]
      split
      · rename_i he
        simp [he, h]
      · rw [List.filter_cons, List.filter_cons, ih]

/-! ## Removing an attribute -/

/-- Removing an attribute removes its key, and the other keys keep their order. -/
theorem keys_erase (d : Declaration) (key : String) : (d.erase key).keys = d.keys.erase key := by
  rw [keys, keys, List.erase_eq_eraseP', List.eraseP_map]
  rfl

theorem nodup_keys_erase (h : d.keys.Nodup) : (d.erase key).keys.Nodup := by
  rw [keys_erase]
  exact h.erase key

/-- A key that was removed has no attribute, as keys occur only once. -/
theorem get?_erase_self (h : d.keys.Nodup) : (d.erase key).get? key = none := by
  rw [get?_eq_none, keys_erase]
  exact h.not_mem_erase

theorem get?_erase_of_ne (h : k ≠ key) : (d.erase key).get? k = d.get? k := by
  obtain ⟨entries⟩ := d
  show ((entries.eraseP (·.1 == key)).find? (·.1 == k)).map Prod.snd =
    (entries.find? (·.1 == k)).map Prod.snd
  induction entries with
  | nil => rfl
  | cons e rest ih =>
      by_cases hkey : e.1 = key
      · have hk : e.1 ≠ k := hkey ▸ h.symm
        rw [List.eraseP_cons_of_pos (by simpa using hkey),
          List.find?_cons_of_neg (by simpa using hk)]
      · rw [List.eraseP_cons_of_neg (by simpa using hkey), List.find?_cons, List.find?_cons]
        split
        · rfl
        · exact ih

/-- Giving back the attribute that is removed makes no other difference. -/
theorem take_eq (d : Declaration) (key : String) : d.take key = (d.get? key, d.erase key) := by
  rw [take, get?, erase, List.find?_eq_bind_findIdx?_getElem?, List.eraseP_eq_eraseIdx]
  cases d.entries.findIdx? (·.1 == key) with
  | none => rfl
  | some i => rfl

theorem pick_erase {p : String → Bool} (h : p key = false) : (d.erase key).pick p = d.pick p := by
  obtain ⟨entries⟩ := d
  show (entries.eraseP (·.1 == key)).filter (fun e => p e.1) = entries.filter fun e => p e.1
  induction entries with
  | nil => rfl
  | cons e rest ih =>
      by_cases hkey : e.1 = key
      · rw [List.eraseP_cons_of_pos (by simpa using hkey),
          List.filter_cons_of_neg (by simp [hkey, h])]
      · rw [List.eraseP_cons_of_neg (by simpa using hkey), List.filter_cons, List.filter_cons, ih]

end Declaration

end RuleGraph
