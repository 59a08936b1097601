import RuleGraph.Expr

/-! # Events

What happens while rules are evaluated and folded, as it can be reported. -/

namespace RuleGraph

/-- How detailed a report has to be to mention an event. -/
inductive Level where
  | info
  | debug
  | trace
deriving DecidableEq, Repr, Inhabited

namespace Level

def print : Level → String
  | info => "info"
  | debug => "debug"
  | trace => "trace"

/-- Position among the levels, from the least detailed on. -/
def rank : Level → Nat
  | info => 0
  | debug => 1
  | trace => 2

/-- Does a report of this level mention events of the other one? -/
def mentions (l m : Level) : Bool := m.rank ≤ l.rank

end Level

/-- Something that happened while rules were evaluated or folded. -/
inductive Event where
  | evaluated (name : Name) (value : Value)
  | contextualVaries (name : Name)
  | classified (unfoldable total : Nat)
  | tainted (count : Nat)
  | varies (name : Name)
  | folded (name : Name) (constant : Quantity)
  | kept (target parent : Name)
  | replaced (count : Nat) (target parent : Name)
  | pruned (child parent : Name)
  | deleted (name : Name)
  | swept (before after folded : Nat)
  | sifted (before after : Nat)
deriving DecidableEq, Repr

namespace Event

def level : Event → Level
  | evaluated .. | contextualVaries .. | tainted .. | varies .. | kept .. | replaced .. => .trace
  | classified .. | folded .. | pruned .. | deleted .. => .debug
  | swept .. | sifted .. => .info

def message : Event → String
  | evaluated n v => "evaluated " ++ n.text ++ " to " ++ v.print
  | contextualVaries n => "contextual rule " ++ n.text ++ " depends on the situation"
  | classified k total => k.repr ++ " of " ++ total.repr ++ " rules are unfoldable"
  | tainted k => k.repr ++ " rules are tainted"
  | varies n => n.text ++ " depends on the situation"
  | folded n q => "fold " ++ n.text ++ " to " ++ q.print
  | kept target parent => "keep references to " ++ target.text ++ " in " ++ parent.text
  | replaced k target parent =>
    "replaced " ++ k.repr ++ " references to " ++ target.text ++ " in " ++ parent.text
  | pruned child parent => "pruned " ++ child.text ++ " after folding " ++ parent.text
  | deleted n => "delete " ++ n.text
  | swept before after count =>
    "folding sweep: " ++ before.repr ++ " -> " ++ after.repr ++ " rules, " ++ count.repr
      ++ " folded"
  | sifted before after => "keep filter: " ++ before.repr ++ " -> " ++ after.repr ++ " rules"

end Event

/-- The lines of a report: events that the level mentions, each after its own level. -/
def report (level : Level) (events : List Event) : List String :=
  (events.filter fun e => level.mentions e.level).map fun e => e.level.print ++ ": " ++ e.message

end RuleGraph
