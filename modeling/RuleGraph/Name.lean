import Std.Data.ExtTreeSet

/-! # Rule names

A rule name is a dotted text together with an identity.  Two names are the
same only if both agree: a second rule that happens to be spelled `a . b` has
another name.  The dots of a text divide it into components, from the outermost
namespace on; `components` cuts the text there, and `namespaces` lists the
texts that stand before each cut. -/

namespace RuleGraph

/-- A dotted text and the identity that it was given. -/
structure Name where
  text : String
  id : Nat := 0
deriving DecidableEq, Repr, Inhabited

namespace Name

/-! ## Order

Names are ordered by text, and names of one text by identity. -/

instance : Ord Name :=
  ⟨compareLex (compareOn Name.text) (compareOn Name.id)⟩

instance : Std.TransOrd Name :=
  inferInstanceAs (Std.TransCmp (compareLex (compareOn Name.text) (compareOn Name.id)))

instance : Std.LawfulEqOrd Name where
  eq_of_compare := by
    rintro ⟨s, i⟩ ⟨t, j⟩ h
    obtain ⟨hs, hi⟩ := compareLex_eq_eq.mp h
    have hs : s = t := Std.LawfulEqOrd.eq_of_compare hs
    have hi : i = j := Std.LawfulEqOrd.eq_of_compare hi
    rw [hs, hi]

/-! ## Components -/

/-- What stands between two components of a dotted text. -/
def separator : String := " . "

/-- Cut a text at every separator, from left to right. -/
def cut : List Char → List (List Char)
  | [] => [[]]
  | ' ' :: '.' :: ' ' :: rest => [] :: cut rest
  | c :: rest => (cut rest).modifyHead (c :: ·)

/-- The texts before each separator of a text, given what was read already. -/
def cutsAfter (read : List Char) : List Char → List (List Char)
  | [] => []
  | ' ' :: '.' :: ' ' :: rest => read :: cutsAfter (read ++ [' ', '.', ' ']) rest
  | c :: rest => cutsAfter (read ++ [c]) rest

/-- Components of the name, from the outermost namespace on. -/
def components (n : Name) : List String :=
  (cut n.text.toList).map String.ofList

/-- Texts of the enclosing namespaces, from the outermost one on. -/
def namespaces (n : Name) : List String :=
  (cutsAfter [] n.text.toList).map String.ofList

/-- Internal names shadow a rule in situations: their last component starts with `$`. -/
def isInternal (n : Name) : Bool :=
  n.components.getLast?.any fun last => last.toList.head? == some '$'

end Name

/-- Finite sets of names, equal as soon as they have the same members. -/
abbrev NameSet := Std.ExtTreeSet Name

end RuleGraph
