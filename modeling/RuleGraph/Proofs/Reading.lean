import RuleGraph.Proofs.Grouping
import RuleGraph.Proofs.Meaning
import RuleGraph.Proofs.Symbols
import RuleGraph.Proofs.Tracking

/-! # Reading printed expressions

    A reader goes through the symbols of a text once, with a stack of what is
    begun and not finished.  Whatever follows an open end is taken to belong to
    it, so a printed expression is read as its regrouping (`read_print`), and
    two expressions have the same text if and only if they have the same
    regrouping (`print_eq_iff`).

    So the text determines the value of expressions that show their grouping.
    Other expressions can have the same text and another value
    (`text_hides_grouping`). -/

namespace RuleGraph

namespace Reading

/-! ## The reader -/

/-- An expression that is complete but for what stands at its open end. -/
inductive Opening where
  | cond (condition whenTrue : Expr)
  | applicable (value : Expr)
  | notApplicable (value : Expr)

def Opening.plug : Opening → Expr → Expr
  | cond c t, x => .cond c t x
  | applicable v, x => .applicable x v
  | notApplicable v, x => .notApplicable x v

/-- What was begun: it waits for an expression that is yet to come. -/
inductive Frame where
  | operand (o : Operator) (left : Expr)
  | condition
  | consequent (condition : Expr)
  | tail (opening : Opening)
  | group
  | members (conjunction : Bool) (es : List Expr)
  | block (inner : Expr) (os : List (Name × Expr))
  | override (inner : Expr) (os : List (Name × Expr)) (name : Name)

/-- Where a reader stands: before an expression, after one, or after the word that makes it the
value of a non-applicability. -/
inductive State where
  | before (frames : List Frame)
  | after (x : Expr) (frames : List Frame)
  | negated (x : Expr) (frames : List Frame)

/-- An operand is complete as soon as it is read. -/
def place (x : Expr) : List Frame → State
  | .operand o l :: fs => .after (.op o l x) fs
  | fs => .after x fs

/-- Finish all open ends. -/
def close (x : Expr) : List Frame → Expr × List Frame
  | .tail opening :: fs => close (opening.plug x) fs
  | fs => (x, fs)

/-- Put a member or an override into its list. -/
def enlist : Expr × List Frame → Option (List Frame)
  | (x, .members conjunction es :: fs) => some (.members conjunction (es ++ [x]) :: fs)
  | (x, .override inner os n :: fs) => some (.block inner (os ++ [(n, x)]) :: fs)
  | _ => none

/-- Finish a list. -/
def endList : List Frame → Option State
  | .members conjunction es :: fs => some (.after (if conjunction then .all es else .any es) fs)
  | .block inner os :: fs => some (.after (.contextual inner os) fs)
  | _ => none

def addUnit (unit : String) : Expr → Option Expr
  | .const ⟨v, none⟩ => some (.const ⟨v, some unit⟩)
  | .op o l (.const ⟨v, none⟩) => some (.op o l (.const ⟨v, some unit⟩))
  | _ => none

/-- Read a symbol where an expression is expected. -/
def stepBefore (name : String → Name) (fs : List Frame) : Symbol → Option State
  | .word w =>
    match fs with
    | .block inner os :: fs => some (.before (.override inner os (name w) :: fs))
    | fs => some (place (.ref (name w)) fs)
  | .constant v => some (place (.const { value := v }) fs)
  | .non => some (place (.const { value := .bool false }) fs)
  | .si => some (.before (.condition :: fs))
  | .list conjunction => some (.before (.members conjunction [] :: fs))
  | .opening => some (.before (.group :: fs))
  | .ending => endList fs
  -- the sign between the name of an override and its value
  | .operator _ => some (.before fs)
  | _ => none

/-- Read a symbol after an expression. -/
def stepAfter (x : Expr) (fs : List Frame) : Symbol → Option State
  | .word unit => (addUnit unit x).map (.after · fs)
  | .operator o => some (.before (.operand o x :: fs))
  | .si => some (.before (.tail (.applicable x) :: fs))
  | .non => some (.negated x fs)
  | .dans => some (.before (.block x [] :: fs))
  | .alors =>
    match close x fs with
    | (c, .condition :: fs) => some (.before (.consequent c :: fs))
    | _ => none
  | .sinon =>
    match close x fs with
    | (t, .consequent c :: fs) => some (.before (.tail (.cond c t) :: fs))
    | _ => none
  | .closing =>
    match close x fs with
    | (y, .group :: fs) => some (place y fs)
    | _ => none
  | .comma => (enlist (close x fs)).map .before
  | .ending => (enlist (close x fs)).bind endList
  | _ => none

def step (name : String → Name) : State → Symbol → Option State
  | .before fs, symbol => stepBefore name fs symbol
  | .after x fs, symbol => stepAfter x fs symbol
  | .negated x fs, .si => some (.before (.tail (.notApplicable x) :: fs))
  | .negated _ _, _ => none

def run (name : String → Name) (symbols : List Symbol) (state : State) : Option State :=
  symbols.foldlM (step name) state

/-- Read a whole text, in which nothing may be left unfinished but open ends. -/
def read (name : String → Name) (text : String) : Option Expr :=
  match run name (symbols text) (.before []) with
  | some (.after x fs) =>
    match close x fs with
    | (e, []) => some e
    | _ => none
  | _ => none

/-! ## Reading an expression -/

/-- Where a reader is that has read an expression: at its open end. -/
def enter : Expr → List Frame → Expr × List Frame
  | .cond c t e, fs => enter e (.tail (.cond c t) :: fs)
  | .applicable c v, fs => enter c (.tail (.applicable v) :: fs)
  | .notApplicable c v, fs => enter c (.tail (.notApplicable v) :: fs)
  | e, fs => (e, fs)

/-- A reader stays after an expression that has no open end. -/
theorem enter_of_not_isOpen {e : Expr} (h : e.isOpen = false) (fs : List Frame) :
    enter e fs = (e, fs) := by
  cases e with
  | cond c t e => cases h
  | applicable c v => cases h
  | notApplicable c v => cases h
  | ref n | const q | op o l r | all es | any es | contextual e os => rfl

/-- A reader that enters an opening goes on to what stands at its open end. -/
theorem enter_plug (opening : Opening) (e : Expr) (fs : List Frame) :
    enter (opening.plug e) fs = enter e (.tail opening :: fs) := by
  cases opening with
  | cond c t | applicable v | notApplicable v => rfl

/-- Finishing the open ends of an expression gives the expression. -/
theorem close_enter (e : Expr) (fs : List Frame) :
    close (enter e fs).1 (enter e fs).2 = close e fs := by
  induction e using Expr.atEnd_induction generalizing fs with
  | closed e he => rw [enter_of_not_isOpen he]
  | cond c t e ih => exact ih _
  | applicable c v ih => exact ih _
  | notApplicable c v ih => exact ih _

/-- What is changed at the end of an expression is changed where the reader is. -/
theorem enter_atEnd (f : Expr → Expr) (e : Expr) (fs : List Frame) :
    enter (e.atEnd f) fs = enter (f (enter e fs).1) (enter e fs).2 := by
  induction e using Expr.atEnd_induction generalizing fs with
  | closed e he => rw [enter_of_not_isOpen he, Expr.atEnd_of_not_isOpen he]
  | cond c t e ih => exact ih _
  | applicable c v ih => exact ih _
  | notApplicable c v ih => exact ih _

/-- After an expression, at its open end. -/
def entered (e : Expr) (fs : List Frame) : State := .after (enter e fs).1 (enter e fs).2

/-- After an expression that was changed at its open end, a reader is where the change leads it. -/
theorem entered_atEnd (f : Expr → Expr) (e : Expr) (fs : List Frame) :
    entered (e.atEnd f) fs = entered (f (enter e fs).1) (enter e fs).2 := by
  rw [entered, enter_atEnd]
  rfl

/-- Does a contextual block wait for the name of an override? -/
def isBlock : List Frame → Bool
  | .block .. :: _ => true
  | _ => false

/-- May any expression come next?  Operands are atomic or in parentheses. -/
def isBase : List Frame → Bool
  | .block .. :: _ => false
  | .operand .. :: _ => false
  | _ => true

/-- Where any expression may come, no name of an override is waited for. -/
theorem isBlock_of_isBase {fs : List Frame} (h : isBase fs = true) : isBlock fs = false := by
  cases fs with
  | nil => rfl
  | cons f fs =>
      cases f with
      | block inner os => cases h
      | operand o l | condition | consequent c | tail x | group | members b es | override e os n =>
          rfl

theorem place_of_isBase {fs : List Frame} (h : isBase fs = true) (x : Expr) :
    place x fs = .after x fs := by
  cases fs with
  | nil => rfl
  | cons f fs =>
      cases f with
      | operand o l => cases h
      | block inner os | condition | consequent c | tail x | group | members b es
      | override e os n => rfl

variable {name : String → Name} {fs : List Frame}

theorem run_singleton (symbol : Symbol) (state : State) :
    run name [symbol] state = step name state symbol := Option.bind_fun_some _

theorem run_append (ss ts : List Symbol) (state : State) :
    run name (ss ++ ts) state = (run name ss state).bind (run name ts) := List.foldlM_append

/-! ### Atoms -/

/-- A reader of a plain name comes to the reference to it. -/
theorem run_ref {n : Name} (h : isPlainWord n.text = true) (hn : name n.text = n)
    (hfs : isBlock fs = false) :
    run name (symbols n.text) (.before fs) = some (place (.ref n) fs) := by
  have hstep : stepBefore name fs (.word n.text) = some (place (.ref (name n.text)) fs) := by
    cases fs with
    | nil => rfl
    | cons f fs =>
        cases f with
        | block inner os => cases hfs
        | operand o l | condition | consequent c | tail x | group | members b es
        | override e os n => rfl
  rw [symbols_plainWord h, run_singleton, step, hstep, hn]

theorem step_unit (v : Value) (u : String) (fs : List Frame) :
    step name (place (.const { value := v }) fs) (.word u) =
      some (place (.const ⟨v, some u⟩) fs) := by
  cases fs with
  | nil => rfl
  | cons f fs =>
      cases f with
      | operand o l | block inner os | condition | consequent c | tail x | group | members b es
      | override e os n => rfl

/-- A reader of a plain constant comes to this constant. -/
theorem run_const {q : Quantity} (h : q.isPlain = true) :
    run name (symbols q.print) (.before fs) = some (place (.const q) fs) := by
  obtain ⟨v, unit⟩ := q
  rw [Quantity.isPlain, Bool.and_eq_true] at h
  have hvalue : run name (symbols v.print) (.before fs) =
      some (place (.const { value := v }) fs) := by
    cases v with
    | null => rfl
    | bool b =>
        cases b with
        | true => rfl
        | false => rfl
    | number x => cases h.1
    | text s =>
        rw [Value.print, symbols_text h.1]
        rfl
  cases unit with
  | none => exact hvalue
  | some u =>
      have hu : symbols u = [.word u] := symbols_plainWord h.2
      show run name (symbols (v.print ++ " " ++ u)) _ = _
      rw [symbols_between (by decide), hu, List.append_assoc, run_append, hvalue]
      exact (run_singleton ..).trans (step_unit v u fs)

/-! ### One constructor at a time -/

/-- Wherever any expression may come, a reader of the text gets to the open end of the
regrouping. -/
def Reads (name : String → Name) (e : Expr) : Prop :=
  ∀ fs, isBase fs = true → run name (symbols e.print) (.before fs) = some (entered e.regroup fs)

theorem run_entered (e : Expr) (fs : List Frame) (symbol : Symbol) :
    run name [symbol] (entered e fs) = stepAfter (enter e fs).1 (enter e fs).2 symbol :=
  run_singleton ..

/-- An operand is read as such, with or without parentheses around it. -/
theorem run_enclose {e : Expr} (he : Reads name e)
    (hatom : e.isAtomic = true →
      run name (symbols e.print) (.before fs) = some (place e.regroup fs)) :
    run name (symbols (e.enclose e.print)) (.before fs) = some (place e.regroup fs) := by
  rw [Expr.enclose]
  split
  · rename_i hatomic
    exact hatom hatomic
  · have hopening : run name (symbols "(") (.before fs) = some (.before (.group :: fs)) := rfl
    have hclosing : run name (symbols ")") (entered e.regroup (.group :: fs)) =
        some (place e.regroup fs) := by
      show run name [.closing] _ = _
      rw [run_entered, stepAfter, close_enter]
      rfl
    rw [symbols_append_of_head (by decide), symbols_append_of_last (by decide), run_append,
      run_append, hopening, Option.bind_some, he _ rfl, Option.bind_some, hclosing]

/-- A reader of an operation comes to it by way of its operands. -/
theorem reads_op {o : Operator} {l r : Expr}
    (hl : ∀ {fs}, isBlock fs = false →
      run name (symbols (l.enclose l.print)) (.before fs) = some (place l.regroup fs))
    (hr : ∀ {fs}, isBlock fs = false →
      run name (symbols (r.enclose r.print)) (.before fs) = some (place r.regroup fs)) :
    Reads name (.op o l r) := by
  intro fs hfs
  have hoperator : run name [.operator o] (.after l.regroup fs) =
      some (.before (.operand o l.regroup :: fs)) := rfl
  have hblank : symbols " " = [] := rfl
  rw [Expr.print_op, symbols_between (by decide), symbols_between (by decide), hblank,
    symbols_operator, List.append_nil, List.append_nil, run_append, run_append,
    hl (isBlock_of_isBase hfs), place_of_isBase hfs, Option.bind_some, hoperator, Option.bind_some,
    hr rfl, Expr.regroup]
  rfl

/-- A reader of a conditional comes to the open end of its last branch. -/
theorem reads_cond {c t e : Expr} (hc : Reads name c) (ht : Reads name t) (he : Reads name e) :
    Reads name (.cond c t e) := by
  intro fs hfs
  have hsi : run name (symbols "si ") (.before fs) = some (.before (.condition :: fs)) := rfl
  have halors : run name (symbols " alors ") (entered c.regroup (.condition :: fs)) =
      some (.before (.consequent c.regroup :: fs)) := by
    show run name [.alors] _ = _
    rw [run_entered, stepAfter, close_enter]
    rfl
  have hsinon : run name (symbols " sinon ") (entered t.regroup (.consequent c.regroup :: fs)) =
      some (.before (.tail (.cond c.regroup t.regroup) :: fs)) := by
    show run name [.sinon] _ = _
    rw [run_entered, stepAfter, close_enter]
    rfl
  rw [Expr.print_cond, symbols_between (by decide), symbols_between (by decide),
    symbols_append_of_last (by decide)]
  simp only [run_append]
  rw [hsi, Option.bind_some, hc _ rfl, Option.bind_some, halors, Option.bind_some, ht _ rfl,
    Option.bind_some, hsinon, Option.bind_some, he _ rfl, Expr.regroup]
  rfl

/-- The condition of an applicability is read at the open end of the value, and goes on as the open
end itself. -/
theorem reads_applied {e c v : Expr} {between : String} {opening : Expr → Opening}
    (hprint : e.print = v.print ++ between ++ c.print)
    (hregroup : e.regroup = v.regroup.atEnd fun x => (opening x).plug c.regroup)
    (hapart : isApart between = true)
    (hbetween : ∀ x fs,
      run name (symbols between) (.after x fs) = some (.before (.tail (opening x) :: fs)))
    (hc : Reads name c) (hv : Reads name v) : Reads name e := by
  intro fs hfs
  -- `enter` gives the place in the value to which regrouping moves the condition
  rw [hprint, symbols_between hapart, run_append, run_append, hv fs hfs, Option.bind_some, entered,
    hbetween, Option.bind_some, hc _ rfl, hregroup, entered_atEnd, entered, entered, enter_plug]

/-- A list is read one item at a time, if each item is read and put into the list. -/
theorem run_list {α β : Type} {frame : List β → Frame} {text : α → List Symbol} {item : α → β}
    {xs : List α} (hxs : ∀ x ∈ xs, ∀ ys, ∃ e gs,
      run name (text x) (.before (frame ys :: fs)) = some (.after e gs) ∧
      enlist (close e gs) = some (frame (ys ++ [item x]) :: fs)) (ys : List β) :
    run name ([Symbol.comma].intercalate (xs.map text) ++ [.ending]) (.before (frame ys :: fs)) =
      endList (frame (ys ++ xs.map item) :: fs) := by
  -- on the items that are still to come; those before them are in the list already
  induction xs generalizing ys with
  | nil =>
      rw [List.map_nil, List.map_nil, List.append_nil]
      exact run_singleton ..
  | cons x xs ih =>
      obtain ⟨e, gs, hrun, henlist⟩ := hxs x (List.mem_cons_self ..) ys
      cases xs with
      | nil =>
          rw [List.map_singleton, List.map_singleton, List.intercalate_singleton, run_append, hrun,
            Option.bind_some, run_singleton, step, stepAfter, henlist, Option.bind_some]
      | cons x' xs =>
          have ih := ih (fun z hz => hxs z (List.mem_cons_of_mem x hz)) (ys ++ [item x])
          have hcomma : run name [.comma] (.after e gs) =
              some (.before (frame (ys ++ [item x]) :: fs)) := by
            rw [run_singleton, step, stepAfter, henlist, Option.map_some]
          rw [List.map_cons, List.map_cons, List.intercalate_cons_cons, ← List.map_cons,
            List.append_assoc, List.append_assoc, run_append, hrun, Option.bind_some, run_append,
            hcomma, Option.bind_some, ih, List.map_cons (f := item) (a := x), List.append_assoc,
            List.singleton_append]

/-- A reader of a conjunction or a disjunction comes to it by way of its members. -/
theorem reads_members (conjunction : Bool) {e : Expr} {es : List Expr} {opening : String}
    (hprint : e.print = opening ++ String.intercalate ", " (Expr.printMembers es) ++ "]")
    (hregroup : e.regroup =
      if conjunction then .all (Expr.regroupMembers es) else .any (Expr.regroupMembers es))
    (hlast : opening.toList.getLast?.any isMark = true)
    (hopening : symbols opening = [.list conjunction]) (hes : ∀ e ∈ es, Reads name e) :
    Reads name e := by
  intro fs hfs
  have hlist : run name [.list conjunction] (.before fs) =
      some (.before (.members conjunction [] :: fs)) := rfl
  have hending : symbols "]" = [.ending] := rfl
  have hclosed : e.regroup.isOpen = false := by
    rw [hregroup]
    split
    · rfl
    · rfl
  rw [hprint, symbols_append_of_head (by decide), symbols_append_of_last hlast, hopening, hending,
    symbols_intercalate, Expr.printMembers_eq, List.map_map, List.append_assoc, run_append, hlist,
    Option.bind_some, entered, enter_of_not_isOpen hclosed, hregroup, Expr.regroupMembers_eq]
  refine run_list ?_ []
  intro e he ys
  refine ⟨_, _, hes e he _ rfl, ?_⟩
  rw [close_enter]
  rfl

/-- A reader of a contextual block puts it at the open end of the inner expression. -/
theorem reads_contextual {e : Expr} {os : List (Name × Expr)} (he : Reads name e)
    (hos : ∀ o ∈ os, isPlainWord o.1.text = true ∧ name o.1.text = o.1 ∧ Reads name o.2) :
    Reads name (.contextual e os) := by
  intro fs hfs
  have hdans : run name (symbols " dans le contexte [") (entered e.regroup fs) =
      some (.before (.block (enter e.regroup fs).1 [] :: (enter e.regroup fs).2)) := rfl
  have hending : symbols "]" = [.ending] := rfl
  rw [Expr.print_contextual, symbols_append_of_head (by decide), symbols_between (by decide),
    symbols_intercalate, Expr.printOverrides_eq, List.map_map, hending, List.append_assoc,
    run_append, run_append, he fs hfs, Option.bind_some, hdans, Option.bind_some, Expr.regroup,
    entered_atEnd, Expr.regroupOverrides_eq]
  refine run_list ?_ []
  intro o ho ys
  obtain ⟨hplain, hname, hread⟩ := hos o ho
  -- the name and the sign lead into the override, whose value is then read
  have hrun : ∀ inner gs, run name (symbols (o.1.text ++ " = " ++ o.2.print))
      (.before (.block inner ys :: gs)) =
        some (entered o.2.regroup (.override inner ys o.1 :: gs)) := by
    intro inner gs
    have hbegin : run name ([.word o.1.text] ++ symbols " = ") (.before (.block inner ys :: gs)) =
        some (.before (.override inner ys (name o.1.text) :: gs)) := rfl
    rw [symbols_between (by decide), symbols_plainWord hplain, run_append, hbegin,
      Option.bind_some, hname, hread _ rfl]
  refine ⟨_, _, hrun _ _, ?_⟩
  rw [close_enter]
  rfl

/-! ### Whole expressions -/

/-- Operands that need no parentheses are read as they are. -/
theorem run_atomic {e : Expr} (hatomic : e.isAtomic = true) (he : e.isPlain = true)
    (hname : ∀ n ∈ e.dependencies, name n.text = n) (hfs : isBlock fs = false) :
    run name (symbols e.print) (.before fs) = some (place e.regroup fs) := by
  cases e with
  | ref n =>
      exact run_ref (by simpa using he) (hname n (by simp [Expr.dependencies])) hfs
  | const q => exact run_const (by simpa using he)
  | op o l r => cases hatomic
  | cond c t e => cases hatomic
  | applicable c v => cases hatomic
  | notApplicable c v => cases hatomic
  | all es => cases hatomic
  | any es => cases hatomic
  | contextual e os => cases hatomic

/-- The text of a plain expression leads a reader to the open end of its regrouping. -/
theorem reads_of_isPlain {e : Expr} (he : e.isPlain = true)
    (hname : ∀ n ∈ e.dependencies, name n.text = n) : Reads name e := by
  have hatom : ∀ {e : Expr}, e.isAtomic = true → e.isPlain = true →
      (∀ n ∈ e.dependencies, name n.text = n) → e.regroup.isOpen = false → Reads name e := by
    intro e hatomic he hname hclosed fs hfs
    rw [run_atomic hatomic he hname (isBlock_of_isBase hfs), place_of_isBase hfs, entered,
      enter_of_not_isOpen hclosed]
  induction e with
  | ref n => exact hatom rfl he hname rfl
  | const q => exact hatom rfl he hname rfl
  | op o l r ihl ihr =>
      simp only [Expr.isPlain, Bool.and_eq_true] at he
      rw [Expr.dependencies, List.forall_mem_append] at hname
      refine reads_op ?_ ?_
      · exact fun hfs => run_enclose (ihl he.1 hname.1) fun h => run_atomic h he.1 hname.1 hfs
      · exact fun hfs => run_enclose (ihr he.2 hname.2) fun h => run_atomic h he.2 hname.2 hfs
  | cond c t e ihc iht ihe =>
      simp only [Expr.isPlain, Bool.and_eq_true] at he
      rw [Expr.dependencies, List.forall_mem_append, List.forall_mem_append] at hname
      exact reads_cond (ihc he.1.1 hname.1.1) (iht he.1.2 hname.1.2) (ihe he.2 hname.2)
  | applicable c v ihc ihv =>
      simp only [Expr.isPlain, Bool.and_eq_true] at he
      rw [Expr.dependencies, List.forall_mem_append] at hname
      have hregroup : (Expr.applicable c v).regroup =
          v.regroup.atEnd fun x => (Opening.applicable x).plug c.regroup := by
        rw [Expr.regroup]
        rfl
      exact reads_applied (Expr.print_applicable c v) hregroup (by decide) (fun _ _ => rfl)
        (ihc he.1 hname.1) (ihv he.2 hname.2)
  | notApplicable c v ihc ihv =>
      simp only [Expr.isPlain, Bool.and_eq_true] at he
      rw [Expr.dependencies, List.forall_mem_append] at hname
      have hregroup : (Expr.notApplicable c v).regroup =
          v.regroup.atEnd fun x => (Opening.notApplicable x).plug c.regroup := by
        rw [Expr.regroup]
        rfl
      exact reads_applied (Expr.print_notApplicable c v) hregroup (by decide) (fun _ _ => rfl)
        (ihc he.1 hname.1) (ihv he.2 hname.2)
  | all es ih =>
      rw [Expr.isPlain, Expr.membersPlain_eq, List.all_eq_true] at he
      rw [Expr.dependencies, Expr.memberDependencies_eq, List.forall_mem_flatMap] at hname
      have hes : ∀ e ∈ es, Reads name e := fun e hmem => ih e hmem (he e hmem) (hname e hmem)
      exact reads_members true (Expr.print_all es) rfl (by decide) rfl hes
  | any es ih =>
      rw [Expr.isPlain, Expr.membersPlain_eq, List.all_eq_true] at he
      rw [Expr.dependencies, Expr.memberDependencies_eq, List.forall_mem_flatMap] at hname
      have hes : ∀ e ∈ es, Reads name e := fun e hmem => ih e hmem (he e hmem) (hname e hmem)
      exact reads_members false (Expr.print_any es) rfl (by decide) rfl hes
  | contextual e os ihe ihos =>
      simp only [Expr.isPlain, Expr.overridesPlain_eq, Bool.and_eq_true, List.all_eq_true] at he
      rw [Expr.dependencies, List.forall_mem_append, Expr.overrideDependencies_eq] at hname
      refine reads_contextual (ihe he.1 hname.2) ?_
      intro o ho
      have hname : ∀ n ∈ o.1 :: o.2.dependencies, name n.text = n :=
        fun n hn => hname.1 n (List.mem_flatMap.mpr ⟨o, ho, hn⟩)
      rw [List.forall_mem_cons] at hname
      exact ⟨(he.2 o ho).1, hname.1, ihos o ho (he.2 o ho).2 hname.2⟩

/-- A printed expression is read as its regrouping. -/
theorem read_print {e : Expr} (he : e.isPlain = true)
    (hname : ∀ n ∈ e.dependencies, name n.text = n) : read name e.print = some e.regroup := by
  simp only [read, reads_of_isPlain he hname [] rfl, entered, close_enter, close]

/-- The name that has a text, among given ones. -/
def naming (names : List Name) (text : String) : Name :=
  (names.find? (·.text == text)).getD ⟨text, 0⟩

/-- If no two of the given names have the same text, a text stands for the name that has it. -/
theorem naming_text {names : List Name}
    (h : ∀ m ∈ names, ∀ n ∈ names, m.text = n.text → m = n) {n : Name} (hn : n ∈ names) :
    naming names n.text = n := by
  rw [naming]
  cases hfind : names.find? (·.text == n.text) with
  | none => simpa using List.find?_eq_none.mp hfind n hn
  | some m =>
      have htext : m.text = n.text := by simpa using List.find?_some hfind
      exact h m (List.mem_of_find?_eq_some hfind) n hn htext

end Reading

open Reading

namespace Expr

/-- Two expressions have the same text if and only if they differ by their grouping at most. -/
theorem print_eq_iff {e f : Expr} (he : e.isPlain = true) (hf : f.isPlain = true)
    (hnames : ∀ m ∈ e.dependencies ++ f.dependencies, ∀ n ∈ e.dependencies ++ f.dependencies,
      m.text = n.text → m = n) :
    e.print = f.print ↔ e.regroup = f.regroup := by
  constructor
  · intro h
    have hread := fun n hn => naming_text hnames (n := n) hn
    have hre := read_print he fun n hn => hread n (List.mem_append_left _ hn)
    have hrf := read_print hf fun n hn => hread n (List.mem_append_right _ hn)
    rw [h, hrf] at hre
    exact (Option.some.inj hre).symm
  · intro h
    rw [← e.print_regroup, h, f.print_regroup]

end Expr

namespace Graph

variable {g : Graph} {n : Name} {e f : Expr}

/-- Values that evaluate alike may stand for each other in a rule. -/
theorem meaning_withValue (h : ∀ (m : Meaning) (scope : Scope), e.eval m scope = f.eval m scope)
    (s : Situation) :
    (g.modify n (·.withValue e)).meaning s = (g.modify n (·.withValue f)).meaning s := by
  have hrule : ∀ (r : Rule) (k : Name),
      Rule.evalBody { r.withValue e with name := k } =
        Rule.evalBody { r.withValue f with name := k } := by
    intro r k
    have hasked : Rule.isAsked { r.withValue e with name := k } =
        Rule.isAsked { r.withValue f with name := k } := rfl
    funext m scope
    rw [Rule.evalBody, Rule.evalBody, Rule.body, Rule.body, hasked]
    cases Rule.isAsked { r.withValue f with name := k } with
    | true => rfl
    | false => exact congrArg (· >>= _) (h m scope)
  refine meaning_congr ?_
  intro k
  rw [get?_modify, get?_modify, Option.map_map, Option.map_map]
  refine Option.map_congr ?_
  intro r _
  by_cases hk : k = n
  · simp only [Function.comp_apply, if_pos hk, hrule]
  · simp only [Function.comp_apply, if_neg hk]

end Graph

namespace Expr

/-- A text stands for the value of an expression, as far as it shows what belongs together.  Take
two plain expressions over names with different texts.  They have the same text if and only if they
differ by their grouping at most.  Every text belongs to an expression that shows its grouping, and
if two of these have the same text, they evaluate alike, by themselves and as the value of a rule in
any graph and situation. -/
theorem text_determines_value {e f : Expr} (he : e.isPlain = true) (hf : f.isPlain = true)
    (hnames : ∀ m ∈ e.dependencies ++ f.dependencies, ∀ n ∈ e.dependencies ++ f.dependencies,
      m.text = n.text → m = n) :
    (e.print = f.print ↔ e.regroup = f.regroup) ∧
    (e.regroup.print = e.print ∧ e.regroup.showsGrouping = true) ∧
    (e.showsGrouping = true → f.showsGrouping = true → e.print = f.print →
      (∀ (m : Meaning) (scope : Scope), e.eval m scope = f.eval m scope) ∧
      ∀ (g : Graph) (n k : Name) (s : Situation),
        (g.modify n (·.withValue e)).evaluate k s =
          (g.modify n (·.withValue f)).evaluate k s) := by
  refine ⟨print_eq_iff he hf hnames, ⟨e.print_regroup, e.showsGrouping_regroup⟩, ?_⟩
  intro hshows hshows' hprint
  have heval : ∀ (m : Meaning) (scope : Scope), e.eval m scope = f.eval m scope := by
    intro m scope
    rw [← eval_regroup hshows, (print_eq_iff he hf hnames).mp hprint, eval_regroup hshows']
  refine ⟨heval, ?_⟩
  intro g n k s
  rw [Graph.evaluate, Graph.evaluate, Graph.meaning_withValue heval]

end Expr

namespace Graph

/-- The entry to a fair, with a value that may depend on three conditions and on a price. -/
def admission (entry : Expr) : Graph where
  rules := [
    { name := ⟨"child", 0⟩, expr := some (.const { value := .bool true }) },
    { name := ⟨"entry", 1⟩, expr := some entry },
    { name := ⟨"guest", 2⟩, expr := some (.const { value := .bool false }) },
    { name := ⟨"member", 3⟩, expr := some (.const { value := .bool true }) },
    { name := ⟨"price", 4⟩, expr := some (.const { value := .text "full" }) }]
  increasing := List.pairwise_map.mp (show List.Pairwise (· < ·)
    ["child", "entry", "guest", "member", "price"] from by decide)

namespace admission

def child : Expr := .ref ⟨"child", 0⟩

def guest : Expr := .ref ⟨"guest", 2⟩

def member : Expr := .ref ⟨"member", 3⟩

def price : Expr := .ref ⟨"price", 4⟩

/-- An expression in the case of a reduced price. -/
def reduced (e : Expr) : Expr :=
  .contextual e [(⟨"price", 4⟩, .const { value := .text "half" })]

/-- Every way to hide what belongs together: an applicability after a condition or after a
non-applicability, and a block after an open end. -/
def lookalikes : List (Expr × Expr) := [
  (.applicable guest (.cond member price guest), .cond member price (.applicable guest guest)),
  (.notApplicable child (.cond member price guest),
    .cond member price (.notApplicable child guest)),
  (.applicable guest (.notApplicable member price),
    .notApplicable (.applicable guest member) price),
  (.notApplicable child (.notApplicable member price),
    .notApplicable (.notApplicable child member) price),
  (reduced (.cond member price guest), .cond member price (reduced guest)),
  (reduced (.applicable member price), .applicable (reduced member) price),
  (reduced (.notApplicable guest price), .notApplicable (reduced guest) price)]

/-- Members enter at the reduced price, but guests do not. -/
def unlessGuest : Expr := .notApplicable guest (.applicable member (reduced price))

/-- The reduced price for all who are members, where guests do not count as such. -/
def ifMember : Expr := .applicable (.notApplicable guest member) (reduced price)

end admission

open admission

/-- Whether guests are excluded from the entry or from the members, the text is the same, and so is
the value. -/
theorem text_determines_value_of_admission :
    unlessGuest.isPlain = true ∧ ifMember.isPlain = true ∧
    unlessGuest.showsGrouping = true ∧ ifMember.showsGrouping = true ∧
    unlessGuest.print = ifMember.print ∧ unlessGuest.regroup = ifMember.regroup ∧
    ∀ (n k : Name) (s : Situation),
      ((admission price).modify n (·.withValue unlessGuest)).evaluate k s =
        ((admission price).modify n (·.withValue ifMember)).evaluate k s := by
  have hprint : unlessGuest.print = ifMember.print := by decide
  have h := Expr.text_determines_value (e := unlessGuest) (f := ifMember) (by decide) (by decide)
    (by decide)
  obtain ⟨-, hvalue⟩ := h.2.2 (by decide) (by decide) hprint
  exact ⟨by decide, by decide, by decide, by decide, hprint, h.1.mp hprint, hvalue _⟩

/-- A text can hide what belongs together.  In all of these cases, the two expressions are plain,
name rules with different texts and are printed alike, but the second one gives the full price and
the first one does not. -/
theorem text_hides_grouping :
    lookalikes.Forall fun p =>
      p.1.isPlain = true ∧ p.2.isPlain = true ∧
      (∀ m ∈ p.1.dependencies ++ p.2.dependencies, ∀ n ∈ p.1.dependencies ++ p.2.dependencies,
        m.text = n.text → m = n) ∧
      p.1.print = p.2.print ∧
      ((admission p.1).evaluate ⟨"entry", 1⟩).toOption.any (·.value ≠ .text "full") = true ∧
      ((admission p.2).evaluate ⟨"entry", 1⟩).toOption.any (·.value = .text "full") = true := by
  rw [List.forall_iff_forall_mem]
  decide +kernel

end Graph

end RuleGraph
