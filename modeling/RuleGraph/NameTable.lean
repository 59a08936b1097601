import Std.Data.ExtTreeMap
import RuleGraph.Name

/-! # Name tables

A table holds one name for each text that was entered, which is where names
get their identity.  A reference made from within a rule is looked up below
that rule first, then in its enclosing namespaces, and finally at top level. -/

namespace RuleGraph

/-- Names by their texts. -/
structure NameTable where
  names : Std.ExtTreeMap String Name := ∅

namespace NameTable

/-- The name of a text. -/
def get? (t : NameTable) (text : String) : Option Name := t.names[text]?

def size (t : NameTable) : Nat := t.names.size

def isEmpty (t : NameTable) : Bool := t.names.isEmpty

/-- Why entering a name is reported as an error. -/
inductive Error where
  /-- The text already had a name. -/
  | reinsertion
deriving DecidableEq, Repr

/-- Enter a name.  Its text has this name from now on, also where entering it a second time is
reported. -/
def insert (t : NameTable) (n : Name) : Except Error Name × NameTable :=
  (if t.names.contains n.text then .error .reinsertion else .ok n,
    ⟨t.names.insert n.text n⟩)

/-- Collect names; of several names with one text the first counts. -/
def ofList (ns : List Name) : NameTable :=
  ⟨ns.foldl (fun names n => names.insertIfNew n.text n) ∅⟩

/-- The texts that a reference made from within `context` may stand for, in the order in which
they are tried. -/
def candidates (context : Name) (reference : String) : List String :=
  (context.text :: context.namespaces.reverse).map (· ++ Name.separator ++ reference)
    ++ [reference]

/-- Resolve a reference made from within the rule `context`. -/
def resolve (t : NameTable) (context : Name) (reference : String) : Option Name :=
  (candidates context reference).findSome? t.get?

end NameTable

end RuleGraph
