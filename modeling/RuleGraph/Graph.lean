import RuleGraph.Rule

/-! # Rule graphs

A graph holds rules in increasing order of their texts, so no two of its rules
share a text.  Rules are found by name, that is by text and identity, or by
text alone. -/

namespace RuleGraph

/-- Rules in increasing order of their texts. -/
structure Graph where
  rules : List Rule := []
  increasing : rules.Pairwise (fun r s => r.name.text < s.name.text) := by exact .nil

namespace Graph

/-- Why a rule cannot be added to a graph. -/
inductive Error where
  /-- The graph already has a rule of this name. -/
  | reintroduction
  /-- The graph has a rule of the same text under another name. -/
  | ambiguous (text : String)
deriving DecidableEq, Repr

/-! ## Looking up rules -/

/-- The rule of a name. -/
def get? (g : Graph) (n : Name) : Option Rule := g.rules.find? (·.name = n)

def contains (g : Graph) (n : Name) : Bool := (g.get? n).isSome

/-- The name of the rule with a text. -/
def find? (g : Graph) (text : String) : Option Name :=
  (g.rules.find? (·.name.text = text)).map Rule.name

/-- The names of all rules, in increasing order of their texts. -/
def names (g : Graph) : List Name := g.rules.map Rule.name

def size (g : Graph) : Nat := g.rules.length

def isEmpty (g : Graph) : Bool := g.rules.isEmpty

/-- Accessible rules are in the graph, and neither private nor in the namespace of a private
rule. -/
def isAccessible (g : Graph) (n : Name) : Bool :=
  let isPrivate (m : Name) : Bool := (g.get? m).any Rule.isPrivate
  g.contains n && !isPrivate n && !(n.namespaces.filterMap g.find?).any isPrivate

/-- The rule of a name has that name. -/
theorem name_of_get? {g : Graph} {n : Name} {r : Rule} (h : g.get? n = some r) :
    r.name = n := by
  simpa using List.find?_some h

theorem mem_of_get? {g : Graph} {n : Name} {r : Rule} (h : g.get? n = some r) :
    r ∈ g.rules :=
  List.mem_of_find?_eq_some h

theorem mem_names_of_get? {g : Graph} {n : Name} {r : Rule} (h : g.get? n = some r) :
    n ∈ g.names :=
  List.mem_map.mpr ⟨r, mem_of_get? h, name_of_get? h⟩

/-! ## Adding, removing and changing rules -/

/-- Put a rule before the first one of a larger text. -/
def place (r : Rule) : List Rule → List Rule
  | [] => [r]
  | s :: rest => if r.name.text < s.name.text then r :: s :: rest else s :: place r rest

/-- Putting a rule in its place adds this rule and no other. -/
theorem mem_place {r s : Rule} {rest : List Rule} :
    s ∈ place r rest ↔ s = r ∨ s ∈ rest := by
  induction rest with
  | nil => simp [place]
  | cons t rest ih =>
    rw [place]
    split
    · simp
    · rw [List.mem_cons, ih, List.mem_cons]
      exact or_left_comm

/-- A rule with a new text is put where the order of texts demands it. -/
theorem increasing_place {r : Rule} {rest : List Rule}
    (h : rest.Pairwise (fun r s => r.name.text < s.name.text))
    (fresh : ∀ s ∈ rest, s.name.text ≠ r.name.text) :
    (place r rest).Pairwise (fun r s => r.name.text < s.name.text) := by
  induction rest with
  | nil => exact List.pairwise_singleton ..
  | cons t rest ih =>
    obtain ⟨ht, hrest⟩ := List.pairwise_cons.mp h
    rw [place]
    split
    · rename_i hr
      refine List.pairwise_cons.mpr ⟨?_, h⟩
      intro s hs
      rcases List.mem_cons.mp hs with rfl | hs
      · exact hr
      · exact String.lt_trans hr (ht s hs)
    · rename_i hr
      have hne : t.name.text ≠ r.name.text := fresh t (List.mem_cons_self ..)
      have hlt : t.name.text < r.name.text :=
        Decidable.byContradiction fun hn =>
          hne (String.le_antisymm (String.not_lt.mp hr) (String.not_lt.mp hn))
      refine List.pairwise_cons.mpr ⟨?_, ih hrest fun s hs => fresh s (List.mem_cons_of_mem _ hs)⟩
      intro s hs
      rcases mem_place.mp hs with rfl | hs
      · exact hlt
      · exact ht s hs

/-- If no rule is found for a text, none has it. -/
theorem text_ne_of_find?_eq_none {g : Graph} {text : String} (h : g.find? text = none) :
    ∀ r ∈ g.rules, r.name.text ≠ text := by
  intro r hr
  have := List.find?_eq_none.mp (Option.map_eq_none_iff.mp h) r hr
  simpa using this

/-- Add a new rule. -/
def insert (g : Graph) (r : Rule) : Except Error Graph :=
  match h : g.find? r.name.text with
  | some n => .error (if n = r.name then .reintroduction else .ambiguous r.name.text)
  | none => .ok ⟨place r g.rules, increasing_place g.increasing (text_ne_of_find?_eq_none h)⟩

/-- Add rules one after the other, up to the first that cannot be added. -/
def ofList (rules : List Rule) : Except Error Graph :=
  rules.foldlM insert {}

/-- Remove the rule of a name, if there is one. -/
def erase (g : Graph) (n : Name) : Graph :=
  ⟨g.rules.filter (·.name ≠ n), g.increasing.filter _⟩

/-- Change every rule; no rule changes its name. -/
def map (g : Graph) (f : Rule → Rule) : Graph where
  rules := g.rules.map fun r => { f r with name := r.name }
  increasing := g.increasing.map _ fun _ _ h => h

/-- Change the rule of a name, if there is one. -/
def modify (g : Graph) (n : Name) (f : Rule → Rule) : Graph :=
  g.map fun r => if r.name = n then f r else r

/-- Give rules the status that their declaration records under `marker`. -/
def restoreStatus (g : Graph) (marker : String) : Graph :=
  g.map fun r => { r with status := (r.recordedStatus marker).getD r.status }

/-! ## Writing back -/

/-- The declarations of all rules, in increasing order of their texts. -/
def toRulebook (g : Graph) (marker : String) : Rulebook :=
  ⟨g.rules.map fun r => (r.name.text, r.written marker)⟩

end Graph

end RuleGraph
