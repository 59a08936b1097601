import RuleGraph.Event
import RuleGraph.Interpreter

/-! # Evaluators

Folding asks an evaluator for the values of rules in the default situation.  An
evaluator may be the interpreter, or anything else that answers; it may keep a
state, so that its answers need not agree with each other.  The graph is given
with every question, because answers have to reflect all changes made so far. -/

namespace RuleGraph

/-- What an evaluator gives back: its answer, its next state, and what happened meanwhile. -/
structure Answer (σ : Type) where
  result : Except EvalError Evaluation
  state : σ
  events : List Event := []

/-- An evaluator with states in `σ`. -/
structure Evaluator (σ : Type) where
  /-- Evaluate a rule in the default situation. -/
  evaluate : Graph → Name → σ → Answer σ
  /-- Is the rule open to references from all of the graph?  Asking changes no state, so the answer
  for a graph can change only when an evaluation changes the state. -/
  isAccessible : Graph → Name → σ → Bool := fun g n _ => g.isAccessible n

/-- An evaluator's state, and all that happened so far. -/
structure Session (σ : Type) where
  state : σ
  log : Array Event := #[]

namespace Session

variable {σ : Type}

/-- Note an event. -/
def emit (s : Session σ) (e : Event) : Session σ := { s with log := s.log.push e }

/-- Note an event, as a step of a session. -/
def note {ε : Type} (e : Event) : EStateM ε (Session σ) Unit := fun s => .ok () (s.emit e)

end Session

namespace Evaluator

variable {σ : Type}

/-- Ask for the value of a rule, within a session. -/
def ask (ev : Evaluator σ) (g : Graph) (n : Name) : EStateM EvalError (Session σ) Evaluation :=
  fun s =>
    let answer := ev.evaluate g n s.state
    let s := { s with state := answer.state, log := s.log ++ answer.events }
    match answer.result with
    | .ok y => .ok y s
    | .error e => .error e s

/-! ## Kinds of evaluators -/

/-- What is noted when a rule is interpreted: its value, if it has one. -/
def notes (n : Name) : Except EvalError Evaluation → List Event
  | .ok y => [.evaluated n y.value]
  | .error _ => []

/-- The evaluator that interprets rules, and notes the values it finds. -/
def interpreter : Evaluator Unit where
  evaluate g n _ :=
    let result := g.evaluate n
    { result, state := (), events := notes n result }

/-- The evaluator that answers for some names by itself, and asks another one for the rest. -/
def answering (ev : Evaluator σ) (answer? : Name → Option (Except EvalError Evaluation)) :
    Evaluator σ where
  evaluate g n s :=
    match answer? n with
    | some result => { result, state := s }
    | none => ev.evaluate g n s
  isAccessible := ev.isAccessible

/-- The evaluator that decides about the access to some names by itself. -/
def granting (ev : Evaluator σ) (access? : Name → Option Bool) : Evaluator σ where
  evaluate := ev.evaluate
  isAccessible g n s := (access? n).getD (ev.isAccessible g n s)

/-- The evaluator that asks another one and keeps the names it was asked for. -/
def recording (ev : Evaluator σ) : Evaluator (σ × Array Name) where
  evaluate g n s :=
    let answer := ev.evaluate g n s.1
    { result := answer.result, state := (answer.state, s.2.push n), events := answer.events }
  isAccessible g n s := ev.isAccessible g n s.1

end Evaluator

end RuleGraph
