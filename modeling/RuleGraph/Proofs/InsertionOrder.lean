import Mathlib.Data.List.Induction
import RuleGraph.Proofs.Declaration

/-! # Declarations in the order of their insertions

    A declaration is a plain list, and each change of it searches the list for
    its key.  What a declaration holds after any changes is said here without
    that list, from the history alone, that is from what was inserted and
    removed: the attribute of a key is that of its last insertion since its
    last removal (`LastInserted`), and the keys stand in the order of their
    first insertions since their last removals (`InsertedBefore`).

    `Reflects` says that a declaration holds what a history demands.  What one
    more change does to each demand is said in the section on histories; it
    follows that every change preserves `Reflects` (`Reflects.change`), hence
    that all of them do (`Reflects.after`). -/

namespace RuleGraph

namespace Declaration

/-- A change of a declaration. -/
inductive Change where
  | insert (key : String) (a : Attribute)
  | remove (key : String)

def Change.key : Change → String
  | insert key _ => key
  | remove key => key

/-- Make a change, and give back the attribute that its key had. -/
def change (d : Declaration) : Change → Option Attribute × Declaration
  | .insert key a => d.exchange key a
  | .remove key => d.take key

/-- What changes make of a declaration, one after the other. -/
def after (d : Declaration) (changes : List Change) : Declaration :=
  changes.foldl (fun d c => (d.change c).2) d

/-- Inserting gives back the attribute that the key had, and sets it. -/
theorem change_insert (d : Declaration) (key : String) (a : Attribute) :
    d.change (.insert key a) = (d.get? key, d.insert key a) :=
  exchange_eq d key a

theorem change_remove (d : Declaration) (key : String) :
    d.change (.remove key) = (d.get? key, d.erase key) :=
  take_eq d key

/-- Every change gives back the attribute that its key had. -/
theorem change_fst (d : Declaration) (c : Change) : (d.change c).1 = d.get? c.key := by
  cases c with
  | insert key a => rw [change_insert, Change.key]
  | remove key => rw [change_remove, Change.key]

/-- Collecting entries inserts them. -/
def insertions (entries : List (String × Attribute)) : List Change :=
  entries.map fun e => .insert e.1 e.2

/-! ## Histories -/

variable {history : List Change} {c : Change} {k l : String} {a : Attribute} {i : Nat}

/-- The key was inserted since its last removal. -/
def Inserted (history : List Change) (k : String) : Prop :=
  ∃ a before after, history = before ++ .insert k a :: after ∧ .remove k ∉ after

/-- The last insertion of the key since its last removal gave it the attribute. -/
def LastInserted (history : List Change) (k : String) (a : Attribute) : Prop :=
  ∃ before after, history = before ++ .insert k a :: after ∧ ∀ c ∈ after, c.key ≠ k

/-- The first insertion of the key since its last removal has the position `i`. -/
def FirstInserted (history : List Change) (k : String) (i : Nat) : Prop :=
  ∃ a before after, history = before ++ .insert k a :: after ∧
    .remove k ∉ after ∧ ¬Inserted before k ∧ before.length = i

/-- Since their last removals, the one key was inserted before the other was. -/
def InsertedBefore (history : List Change) (k l : String) : Prop :=
  ∃ i j, FirstInserted history k i ∧ FirstInserted history l j ∧ i < j

/-- A change of a longer history is its last one, or one of the history before. -/
theorem exists_split_concat {x : Change} {P : List Change → List Change → Prop} :
    (∃ before after, history ++ [c] = before ++ x :: after ∧ P before after) ↔
      (c = x ∧ P history []) ∨
        ∃ before after, history = before ++ x :: after ∧ P before (after ++ [c]) := by
  constructor
  · rintro ⟨before, after, heq, hP⟩
    rcases List.eq_nil_or_concat after with rfl | ⟨rest, d, rfl⟩
    · obtain ⟨rfl, rfl⟩ := List.append_singleton_inj.mp heq
      exact Or.inl ⟨rfl, hP⟩
    · rw [List.concat_eq_append] at heq hP
      rw [← List.cons_append, ← List.append_assoc, List.append_singleton_inj] at heq
      obtain ⟨rfl, rfl⟩ := heq
      exact Or.inr ⟨before, rest, rfl, hP⟩
  · rintro (⟨rfl, hP⟩ | ⟨before, after, rfl, hP⟩)
    · exact ⟨history, [], rfl, hP⟩
    · exact ⟨before, after ++ [c], by simp, hP⟩

theorem not_inserted_nil : ¬Inserted [] k := by
  rintro ⟨a, before, after, heq, -⟩
  simp at heq

/-- After one more change, a key is inserted if the change inserts it, or if it was and the change
does not remove it. -/
theorem inserted_concat :
    Inserted (history ++ [c]) k ↔
      (∃ a, c = .insert k a) ∨ (Inserted history k ∧ c ≠ .remove k) := by
  simp only [Inserted, exists_split_concat, exists_or, List.mem_append, List.mem_singleton,
    List.not_mem_nil, not_or, not_false_eq_true, and_true, ← and_assoc, exists_and_right,
    ne_comm, ne_eq]

/-- An insertion becomes the last one of its key, and a removal leaves its key with none; other keys
keep theirs. -/
theorem lastInserted_concat :
    LastInserted (history ++ [c]) k a ↔
      c = .insert k a ∨ (LastInserted history k a ∧ c.key ≠ k) := by
  simp only [LastInserted, exists_split_concat, List.forall_mem_append, List.forall_mem_singleton,
    List.not_mem_nil, false_imp_iff, implies_true, and_true, ← and_assoc, exists_and_right]

/-- An insertion is the first one of a key that was not inserted; the first insertion of any other
key stays until the key is removed. -/
theorem firstInserted_concat :
    FirstInserted (history ++ [c]) k i ↔
      ((∃ a, c = .insert k a) ∧ ¬Inserted history k ∧ history.length = i) ∨
        (FirstInserted history k i ∧ c ≠ .remove k) := by
  simp only [FirstInserted, exists_split_concat, exists_or, List.mem_append, List.mem_singleton,
    List.not_mem_nil, not_or, not_false_eq_true, true_and, exists_and_right]
  refine or_congr_right ⟨?_, ?_⟩
  · rintro ⟨a, before, after, heq, ⟨hafter, hc⟩, hfirst⟩
    exact ⟨⟨a, before, after, heq, hafter, hfirst⟩, Ne.symm hc⟩
  · rintro ⟨⟨a, before, after, heq, hafter, hfirst⟩, hc⟩
    exact ⟨a, before, after, heq, ⟨hafter, Ne.symm hc⟩, hfirst⟩

theorem FirstInserted.inserted (h : FirstInserted history k i) : Inserted history k := by
  obtain ⟨a, before, after, heq, hafter, -⟩ := h
  exact ⟨a, before, after, heq, hafter⟩

theorem FirstInserted.lt_length (h : FirstInserted history k i) : i < history.length := by
  obtain ⟨a, before, after, rfl, -, -, rfl⟩ := h
  simp

/-- A key has one first insertion at most. -/
theorem FirstInserted.unique {j : Nat} (hi : FirstInserted history k i)
    (hj : FirstInserted history k j) : i = j := by
  induction history using List.reverseRecOn with
  | nil => exact absurd hi.inserted not_inserted_nil
  | append_singleton history c ih =>
      rcases firstInserted_concat.mp hi with ⟨-, hnew, rfl⟩ | ⟨hi, -⟩
      · rcases firstInserted_concat.mp hj with ⟨-, -, rfl⟩ | ⟨hj, -⟩
        · rfl
        · exact absurd hj.inserted hnew
      · rcases firstInserted_concat.mp hj with ⟨-, hnew, -⟩ | ⟨hj, -⟩
        · exact absurd hi.inserted hnew
        · exact ih hi hj

/-- What was inserted since its last removal was inserted a first time since. -/
theorem Inserted.exists_firstInserted (h : Inserted history k) : ∃ i, FirstInserted history k i := by
  induction history using List.reverseRecOn with
  | nil => exact absurd h not_inserted_nil
  | append_singleton history c ih =>
      by_cases hk : Inserted history k
      · -- an earlier insertion counts, unless the key is removed now
        obtain ⟨i, hi⟩ := ih hk
        have hc : c ≠ .remove k := by
          rintro rfl
          simp [inserted_concat] at h
        exact ⟨i, firstInserted_concat.mpr (Or.inr ⟨hi, hc⟩)⟩
      · have hc : ∃ a, c = .insert k a :=
          (inserted_concat.mp h).resolve_right fun h => hk h.1
        exact ⟨_, firstInserted_concat.mpr (Or.inl ⟨hc, hk, rfl⟩)⟩

/-- Keys keep their order as long as none of them is removed. -/
theorem InsertedBefore.concat (h : InsertedBefore history k l) (hk : c ≠ .remove k)
    (hl : c ≠ .remove l) : InsertedBefore (history ++ [c]) k l := by
  obtain ⟨i, j, hi, hj, hij⟩ := h
  exact ⟨i, j, firstInserted_concat.mpr (Or.inr ⟨hi, hk⟩),
    firstInserted_concat.mpr (Or.inr ⟨hj, hl⟩), hij⟩

/-- A new key comes after the others. -/
theorem Inserted.insertedBefore_concat (hk : Inserted history k) (hl : ¬Inserted history l) :
    InsertedBefore (history ++ [.insert l a]) k l := by
  obtain ⟨i, hi⟩ := hk.exists_firstInserted
  refine ⟨i, history.length, ?_, ?_, hi.lt_length⟩
  · exact firstInserted_concat.mpr (Or.inr ⟨hi, by simp⟩)
  · exact firstInserted_concat.mpr (Or.inl ⟨⟨a, rfl⟩, hl, rfl⟩)

/-! ## Declarations and their histories -/

/-- The declaration holds what the history demands, in the order that it demands. -/
structure Reflects (d : Declaration) (history : List Change) : Prop where
  nodup : d.keys.Nodup
  get?_iff : ∀ k a, d.get? k = some a ↔ LastInserted history k a
  mem_keys : ∀ k, k ∈ d.keys ↔ Inserted history k
  ordered : d.keys.Pairwise (InsertedBefore history)

variable {d : Declaration}

theorem reflects_empty : Reflects {} [] where
  nodup := nodup_keys_empty
  get?_iff k a := by
    constructor
    · intro h
      cases h
    · rintro ⟨before, after, heq, -⟩
      simp at heq
  mem_keys k := iff_of_false List.not_mem_nil not_inserted_nil
  ordered := .nil

/-- After an attribute was set, the declaration reflects the history with this insertion. -/
theorem Reflects.insert (h : d.Reflects history) (key : String) (a : Attribute) :
    (d.insert key a).Reflects (history ++ [.insert key a]) where
  nodup := nodup_keys_insert h.nodup
  get?_iff k b := by
    rw [lastInserted_concat, ← h.get?_iff]
    by_cases hk : k = key
    · subst hk
      rw [get?_insert_self]
      simp [Change.key]
    · rw [get?_insert_of_ne hk]
      simp [Change.key, Ne.symm hk]
  mem_keys k := by
    have hinsert : (∃ b, Change.insert key a = .insert k b) ↔ k = key := by simp [eq_comm]
    rw [inserted_concat, ← h.mem_keys, hinsert, and_iff_left (by simp), keys_insert]
    split
    · rename_i hkey
      exact (or_iff_right_of_imp fun hk => hk ▸ hkey).symm
    · rw [List.mem_append, List.mem_singleton, or_comm]
  ordered := by
    rw [keys_insert]
    have hold : d.keys.Pairwise (InsertedBefore (history ++ [.insert key a])) :=
      h.ordered.imp fun hkl => hkl.concat (by simp) (by simp)
    split
    · exact hold
    · rename_i hkey
      refine List.pairwise_append.mpr ⟨hold, List.pairwise_singleton _ _, ?_⟩
      intro k hk l hl
      obtain rfl := List.mem_singleton.mp hl
      exact ((h.mem_keys k).mp hk).insertedBefore_concat fun hl => hkey ((h.mem_keys l).mpr hl)

/-- After an attribute was removed, the declaration reflects the history with this removal. -/
theorem Reflects.erase (h : d.Reflects history) (key : String) :
    (d.erase key).Reflects (history ++ [.remove key]) where
  nodup := nodup_keys_erase h.nodup
  get?_iff k b := by
    rw [lastInserted_concat, ← h.get?_iff]
    by_cases hk : k = key
    · subst hk
      rw [get?_erase_self h.nodup]
      simp [Change.key]
    · rw [get?_erase_of_ne hk]
      simp [Change.key, Ne.symm hk]
  mem_keys k := by
    rw [inserted_concat, ← h.mem_keys, keys_erase, h.nodup.mem_erase_iff]
    simp [and_comm, eq_comm]
  ordered := by
    rw [keys_erase, h.nodup.erase_eq_filter]
    refine (h.ordered.filter _).imp_of_mem ?_
    -- the keys that are left are not removed
    have hleft : ∀ k ∈ d.keys.filter (· != key), Change.remove key ≠ .remove k := by
      intro k hk heq
      cases heq
      simp at hk
    intro k l hk hl hkl
    exact hkl.concat (hleft k hk) (hleft l hl)

/-- One change, whichever it is. -/
theorem Reflects.change (h : d.Reflects history) (c : Change) :
    (d.change c).2.Reflects (history ++ [c]) := by
  cases c with
  | insert key a =>
      rw [change_insert]
      exact h.insert key a
  | remove key =>
      rw [change_remove]
      exact h.erase key

/-- Any number of changes. -/
theorem Reflects.after (h : d.Reflects history) (changes : List Change) :
    (d.after changes).Reflects (history ++ changes) := by
  induction changes generalizing d history with
  | nil => rwa [List.append_nil]
  | cons c changes ih =>
      have hchanges := ih (h.change c)
      rwa [List.append_assoc] at hchanges

/-- Inserting entries one after the other is collecting them. -/
theorem after_insertions (d : Declaration) (entries : List (String × Attribute)) :
    d.after (insertions entries) = entries.foldl (fun d e => d.insert e.1 e.2) d := by
  rw [Declaration.after, insertions, List.foldl_map]
  simp only [change_insert]

/-- A declaration that was collected reflects the insertion of its entries. -/
theorem reflects_ofList (entries : List (String × Attribute)) :
    (ofList entries).Reflects (insertions entries) := by
  rw [ofList, ← after_insertions]
  exact reflects_empty.after (insertions entries)

/-- A declaration is a map that remembers the order of insertions.  After entries were collected
and any changes made, its keys are pairwise different, the attribute of a key is the one that its
last insertion since its last removal gave it, and the keys stand in the order of their first
insertions since their last removals.  Each further change gives back the attribute that its key
had; replacing it moves no key, a new key comes last, and removing one keeps the order of the
others. -/
theorem insertions_remembered (entries : List (String × Attribute)) (changes : List Change) :
    let d := (ofList entries).after changes
    let history := insertions entries ++ changes
    d.keys.Nodup ∧
    (∀ k a, d.get? k = some a ↔ LastInserted history k a) ∧
    (∀ k, k ∈ d.keys ↔ ∃! i, FirstInserted history k i) ∧
    d.keys.Pairwise (InsertedBefore history) ∧
    (∀ c, (d.change c).1 = d.get? c.key) ∧
    (∀ k a, (d.change (.insert k a)).2.keys = if k ∈ d.keys then d.keys else d.keys ++ [k]) ∧
    ∀ k, (d.change (.remove k)).2.keys = d.keys.filter (· != k) := by
  intro d history
  have h : d.Reflects history := (reflects_ofList entries).after changes
  refine ⟨h.nodup, h.get?_iff, ?_, h.ordered, d.change_fst, ?_, ?_⟩
  · intro k
    rw [h.mem_keys]
    constructor
    · intro hk
      obtain ⟨i, hi⟩ := hk.exists_firstInserted
      exact ⟨i, hi, fun j hj => hj.unique hi⟩
    · rintro ⟨i, hi, -⟩
      exact hi.inserted
  · intro k a
    rw [change_insert, keys_insert]
  · intro k
    rw [change_remove, keys_erase, h.nodup.erase_eq_filter]

/-- A key that was removed and inserted again comes last, one that was replaced stays. -/
example :
    ((ofList [("valeur", .null), ("question", .null), ("remplace", .null)]).after
      [.insert "valeur" (.bool true), .remove "question", .insert "question" .null]).keys =
        ["valeur", "remplace", "question"] := by
  decide

end Declaration

end RuleGraph
