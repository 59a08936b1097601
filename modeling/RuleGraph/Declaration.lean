import RuleGraph.Value

/-! # Declarations

The written form of a rule is a list of attributes such as `valeur`,
`question` or `par défaut`, in the order in which they were written.  A
declaration is that list with the operations of a map: setting an attribute
that is already there moves nothing, and removing one keeps the order of the
others.  A rulebook is a list of named declarations. -/

namespace RuleGraph

/-- Value of an attribute. -/
inductive Attribute where
  | null
  | bool (b : Bool)
  | number (x : Float)
  | text (s : String)
  | list (items : List Attribute)
  | map (entries : List (String × Attribute))
deriving Repr, Inhabited

namespace Attribute

/-- The text of an attribute that is a text. -/
def text? : Attribute → Option String
  | text s => some s
  | _ => none

mutual

/-- Equality of attributes; numbers compare as numbers. -/
def equal : Attribute → Attribute → Bool
  | null, null => true
  | bool a, bool b => a == b
  | number x, number y => x == y
  | text s, text t => s == t
  | list xs, list ys => itemsEqual xs ys
  | map xs, map ys => entriesEqual xs ys
  | _, _ => false

def itemsEqual : List Attribute → List Attribute → Bool
  | [], [] => true
  | x :: xs, y :: ys => x.equal y && itemsEqual xs ys
  | _, _ => false

/-- Equality of entries, where their order counts. -/
def entriesEqual : List (String × Attribute) → List (String × Attribute) → Bool
  | [], [] => true
  | (k, x) :: xs, (l, y) :: ys => k == l && x.equal y && entriesEqual xs ys
  | _, _ => false

end

/-! ## Printing -/

mutual

/-- An attribute on one line. -/
def print : Attribute → String
  | null => "null"
  | bool b => Value.truthText b
  | number x => Decimal.text x
  | text s => if s = "" then "''" else s
  | list xs => "[" ++ String.intercalate ", " (printItems xs) ++ "]"
  | map xs => "\x7b" ++ String.intercalate ", " (printEntries xs) ++ "\x7d"

def printItems : List Attribute → List String
  | [] => []
  | x :: xs => x.print :: printItems xs

def printEntries : List (String × Attribute) → List String
  | [] => []
  | (k, x) :: xs => (k ++ ": " ++ x.print) :: printEntries xs

end

mutual

/-- What follows the colon of an attribute whose key is indented by `indent`. -/
def printAfterKey (indent : Nat) : Attribute → String
  | map (x :: xs) => "\n" ++ printBlock (indent + 2) (x :: xs)
  | a => " " ++ a.print ++ "\n"

/-- Entries one per line; a map that is not empty opens a block of its own. -/
def printBlock (indent : Nat) : List (String × Attribute) → String
  | [] => ""
  | (k, x) :: xs =>
    String.ofList (List.replicate indent ' ') ++ k ++ ":" ++ x.printAfterKey indent
      ++ printBlock indent xs

end

end Attribute

/-- Attributes of a rule, in the order in which they were written. -/
structure Declaration where
  entries : List (String × Attribute) := []
deriving Repr, Inhabited

namespace Declaration

/-- Set the entry of a key: in place if there is one, at the end otherwise. -/
def putEntry (key : String) (a : Attribute) :
    List (String × Attribute) → List (String × Attribute)
  | [] => [(key, a)]
  | (k, b) :: rest => if k = key then (k, a) :: rest else (k, b) :: putEntry key a rest

/-- Set the entry of a key in the same way, and give back the attribute that it had. -/
def exchangeEntry (key : String) (a : Attribute) :
    List (String × Attribute) → Option Attribute × List (String × Attribute)
  | [] => (none, [(key, a)])
  | (k, b) :: rest =>
    if k = key then (some b, (k, a) :: rest)
    else (exchangeEntry key a rest).map id ((k, b) :: ·)

def keys (d : Declaration) : List String := d.entries.map Prod.fst

def size (d : Declaration) : Nat := d.entries.length

def isEmpty (d : Declaration) : Bool := d.entries.isEmpty

/-- The attribute of a key. -/
def get? (d : Declaration) (key : String) : Option Attribute :=
  (d.entries.find? (·.1 == key)).map Prod.snd

def contains (d : Declaration) (key : String) : Bool := (d.get? key).isSome

/-- Set an attribute; one that is already present keeps its position. -/
def insert (d : Declaration) (key : String) (a : Attribute) : Declaration :=
  ⟨putEntry key a d.entries⟩

/-- Remove an attribute; the others keep their order. -/
def erase (d : Declaration) (key : String) : Declaration :=
  ⟨d.entries.eraseP (·.1 == key)⟩

/-- Set an attribute, and give back the one that it replaces. -/
def exchange (d : Declaration) (key : String) (a : Attribute) : Option Attribute × Declaration :=
  (exchangeEntry key a d.entries).map id mk

/-- Remove an attribute, and give it back. -/
def take (d : Declaration) (key : String) : Option Attribute × Declaration :=
  match d.entries.findIdx? (·.1 == key) with
  | none => (none, d)
  | some i => (d.entries[i]?.map Prod.snd, ⟨d.entries.eraseIdx i⟩)

/-- Collect entries; of a repeated key the last attribute and the first position count. -/
def ofList (entries : List (String × Attribute)) : Declaration :=
  entries.foldl (fun d e => d.insert e.1 e.2) {}

/-- A declaration as an attribute of another one. -/
def toAttribute (d : Declaration) : Attribute := .map d.entries

def equal (d e : Declaration) : Bool := Attribute.entriesEqual d.entries e.entries

/-- A declaration in block style, one attribute per line. -/
def print (d : Declaration) : String := Attribute.printBlock 0 d.entries

end Declaration

/-- Named declarations, in the order in which they are written.  A name may be repeated. -/
structure Rulebook where
  rules : List (String × Declaration) := []
deriving Repr, Inhabited

namespace Rulebook

def size (b : Rulebook) : Nat := b.rules.length

def isEmpty (b : Rulebook) : Bool := b.rules.isEmpty

/-- Add a declaration at the end. -/
def push (b : Rulebook) (name : String) (d : Declaration) : Rulebook :=
  ⟨b.rules ++ [(name, d)]⟩

/-- The first declaration of a name. -/
def get? (b : Rulebook) (name : String) : Option Declaration :=
  (b.rules.find? (·.1 == name)).map Prod.snd

/-- A named declaration: `null` on the line of the name if there are no attributes. -/
def printRule (name : String) (d : Declaration) : String :=
  if d.isEmpty then name ++ ": null\n"
  else name ++ ":\n" ++ Attribute.printBlock 2 d.entries

/-- All declarations in block style. -/
def print (b : Rulebook) : String :=
  String.join (b.rules.map fun r => printRule r.1 r.2)

end Rulebook

end RuleGraph
