import RuleGraph.Evaluation
import RuleGraph.Proofs.Blocks

/-! # What belongs together in a printed expression

    Only operands are printed in parentheses.  The last part of a condition or
    of an applicability has an open end, and what follows the text of such an
    expression may as well belong to its last part.  `regroup` moves all that
    follows an open end into it, without a change to the text
    (`print_regroup`).

    This can change the value.  An expression shows its grouping if no
    applicability follows a condition or a non-applicability, and no block
    follows an open end; then the value stays (`eval_regroup`), since it does
    not matter how a chain of applicabilities is grouped
    (`applied_assoc`).  The result of regrouping always shows its
    grouping (`showsGrouping_regroup`). -/

namespace RuleGraph

namespace Expr

/-! ## Open ends -/

/-- Apply a function to what stands at the open end of an expression, or to all of it if it has no
open end. -/
def atEnd (f : Expr → Expr) : Expr → Expr
  | cond c t e => cond c t (e.atEnd f)
  | applicable c v => applicable (c.atEnd f) v
  | notApplicable c v => notApplicable (c.atEnd f) v
  | e => f e

/-- Does the text end with a part that could go on? -/
def isOpen : Expr → Bool
  | cond .. => true
  | applicable .. => true
  | notApplicable .. => true
  | _ => false

/-- Is the way to the open end made of applicabilities only? -/
def isChain : Expr → Bool
  | cond .. => false
  | notApplicable .. => false
  | applicable c _ => c.isChain
  | _ => true

mutual

/-- The expression in which everything that follows an open end belongs to it. -/
@[simp] def regroup : Expr → Expr
  | ref n => ref n
  | const q => const q
  | op o l r => op o l.regroup r.regroup
  | cond c t e => cond c.regroup t.regroup e.regroup
  | applicable c v => v.regroup.atEnd (applicable c.regroup)
  | notApplicable c v => v.regroup.atEnd (notApplicable c.regroup)
  | all es => all (regroupMembers es)
  | any es => any (regroupMembers es)
  | contextual e os => e.regroup.atEnd (contextual · (regroupOverrides os))

@[simp] def regroupMembers : List Expr → List Expr
  | [] => []
  | e :: es => e.regroup :: regroupMembers es

@[simp] def regroupOverrides : List (Name × Expr) → List (Name × Expr)
  | [] => []
  | (n, e) :: os => (n, e.regroup) :: regroupOverrides os

end

mutual

/-- Does nothing follow an open end that would mean something else inside? -/
@[simp] def showsGrouping : Expr → Bool
  | ref _ => true
  | const _ => true
  | op _ l r => l.showsGrouping && r.showsGrouping
  | cond c t e => c.showsGrouping && t.showsGrouping && e.showsGrouping
  | applicable c v => v.isChain && c.showsGrouping && v.showsGrouping
  | notApplicable c v => v.isChain && c.showsGrouping && v.showsGrouping
  | all es => membersShowGrouping es
  | any es => membersShowGrouping es
  | contextual e os => !e.isOpen && e.showsGrouping && overridesShowGrouping os

@[simp] def membersShowGrouping : List Expr → Bool
  | [] => true
  | e :: es => e.showsGrouping && membersShowGrouping es

@[simp] def overridesShowGrouping : List (Name × Expr) → Bool
  | [] => true
  | (_, e) :: os => e.showsGrouping && overridesShowGrouping os

end

theorem regroupMembers_eq (es : List Expr) : regroupMembers es = es.map regroup := by
  induction es with
  | nil => rfl
  | cons e es ih => rw [regroupMembers, ih, List.map_cons]

theorem regroupOverrides_eq (os : List (Name × Expr)) :
    regroupOverrides os = os.map fun o => (o.1, o.2.regroup) := by
  induction os with
  | nil => rfl
  | cons o os ih =>
      obtain ⟨n, e⟩ := o
      rw [regroupOverrides, ih, List.map_cons]

theorem membersShowGrouping_eq (es : List Expr) :
    membersShowGrouping es = es.all showsGrouping := by
  induction es with
  | nil => rfl
  | cons e es ih => rw [membersShowGrouping, ih, List.all_cons]

theorem overridesShowGrouping_eq (os : List (Name × Expr)) :
    overridesShowGrouping os = os.all fun o => o.2.showsGrouping := by
  induction os with
  | nil => rfl
  | cons o os ih =>
      obtain ⟨n, e⟩ := o
      rw [overridesShowGrouping, ih, List.all_cons]

theorem printMembers_eq (es : List Expr) : printMembers es = es.map print := by
  induction es with
  | nil => rfl
  | cons e es ih => rw [printMembers, ih, List.map_cons]

theorem printOverrides_eq (os : List (Name × Expr)) :
    printOverrides os = os.map fun o => o.1.text ++ " = " ++ o.2.print := by
  induction os with
  | nil => rfl
  | cons o os ih =>
      obtain ⟨n, e⟩ := o
      rw [printOverrides, ih, List.map_cons]

/-- An expression without an open end is changed as a whole. -/
theorem atEnd_of_not_isOpen {e : Expr} (h : e.isOpen = false) (f : Expr → Expr) :
    e.atEnd f = f e := by
  cases e with
  | cond c t e => cases h
  | applicable c v => cases h
  | notApplicable c v => cases h
  | ref n | const q | op o l r | all es | any es | contextual e os => rfl

theorem isChain_of_not_isOpen {e : Expr} (h : e.isOpen = false) : e.isChain = true := by
  cases e with
  | cond c t e => cases h
  | applicable c v => cases h
  | notApplicable c v => cases h
  | ref n | const q | op o l r | all es | any es | contextual e os => rfl

/-- Induction along the way to the open end of an expression. -/
theorem atEnd_induction {motive : Expr → Prop}
    (closed : ∀ e, e.isOpen = false → motive e)
    (cond : ∀ c t e, motive e → motive (cond c t e))
    (applicable : ∀ c v, motive c → motive (applicable c v))
    (notApplicable : ∀ c v, motive c → motive (notApplicable c v))
    (e : Expr) : motive e := by
  induction e with
  | cond c t e ihc iht ihe => exact cond c t e ihe
  | applicable c v ihc ihv => exact applicable c v ihc
  | notApplicable c v ihc ihv => exact notApplicable c v ihc
  | ref n => exact closed _ rfl
  | const q => exact closed _ rfl
  | op o l r ihl ihr => exact closed _ rfl
  | all es ih => exact closed _ rfl
  | any es ih => exact closed _ rfl
  | contextual e os ihe ihos => exact closed _ rfl

/-! ## The text -/

section

variable (c t e v l r : Expr) (o : Operator) (es : List Expr) (os : List (Name × Expr))

-- these hold by computation; the general way to unfold `print` takes very long on its literals
theorem print_op :
    (op o l r).print = l.enclose l.print ++ " " ++ o.print ++ " " ++ r.enclose r.print := rfl

theorem print_cond :
    (cond c t e).print = "si " ++ c.print ++ " alors " ++ t.print ++ " sinon " ++ e.print := rfl

theorem print_applicable : (applicable c v).print = v.print ++ " applicable si " ++ c.print := rfl

theorem print_notApplicable :
    (notApplicable c v).print = v.print ++ " non applicable si " ++ c.print := rfl

theorem print_all :
    (all es).print =
      "toutes ces conditions [" ++ String.intercalate ", " (printMembers es) ++ "]" := rfl

theorem print_any :
    (any es).print =
      "une de ces conditions [" ++ String.intercalate ", " (printMembers es) ++ "]" := rfl

theorem print_contextual :
    (contextual e os).print =
      e.print ++ " dans le contexte [" ++ String.intercalate ", " (printOverrides os) ++ "]" := rfl

end

/-- What is printed after an expression may as well be printed after its open end. -/
theorem print_atEnd {f : Expr → Expr} {text : String} (h : ∀ x, (f x).print = x.print ++ text)
    (e : Expr) : (e.atEnd f).print = e.print ++ text := by
  induction e using atEnd_induction with
  | closed e he => rw [atEnd_of_not_isOpen he, h]
  | cond c t e ih => simp only [atEnd, print_cond, ih, String.append_assoc]
  | applicable c v ih => simp only [atEnd, print_applicable, ih, String.append_assoc]
  | notApplicable c v ih => simp only [atEnd, print_notApplicable, ih, String.append_assoc]

/-- A change at the open end makes no expression atomic. -/
theorem isAtomic_atEnd {f : Expr → Expr} (h : ∀ x, (f x).isAtomic = false) (e : Expr) :
    (e.atEnd f).isAtomic = false := by
  induction e using atEnd_induction with
  | closed e he => rw [atEnd_of_not_isOpen he, h]
  | cond c t e ih => rfl
  | applicable c v ih => rfl
  | notApplicable c v ih => rfl

/-- Regrouping does not change whether an operand needs parentheses. -/
theorem isAtomic_regroup (e : Expr) : e.regroup.isAtomic = e.isAtomic := by
  cases e with
  | applicable c v => exact isAtomic_atEnd (fun _ => rfl) _
  | notApplicable c v => exact isAtomic_atEnd (fun _ => rfl) _
  | contextual e os => exact isAtomic_atEnd (fun _ => rfl) _
  | ref n | const q | op o l r | cond c t e | all es | any es => simp only [regroup, isAtomic]

/-- Regrouping does not change the text. -/
theorem print_regroup (e : Expr) : e.regroup.print = e.print := by
  have hmembers : ∀ {es : List Expr}, (∀ e ∈ es, e.regroup.print = e.print) →
      printMembers (regroupMembers es) = printMembers es := by
    intro es ih
    rw [printMembers_eq, printMembers_eq, regroupMembers_eq, List.map_map]
    exact List.map_congr_left ih
  induction e with
  | ref n => rw [regroup]
  | const q => rw [regroup]
  | op o l r ihl ihr => simp only [regroup, print_op, enclose, isAtomic_regroup, ihl, ihr]
  | cond c t e ihc iht ihe => simp only [regroup, print_cond, ihc, iht, ihe]
  | applicable c v ihc ihv =>
      have hprint := fun x => (print_applicable c.regroup x).trans String.append_assoc
      rw [regroup, print_atEnd hprint, ihc, ihv, print_applicable, String.append_assoc]
  | notApplicable c v ihc ihv =>
      have hprint := fun x => (print_notApplicable c.regroup x).trans String.append_assoc
      rw [regroup, print_atEnd hprint, ihc, ihv, print_notApplicable, String.append_assoc]
  | all es ih => rw [regroup, print_all, print_all, hmembers ih]
  | any es ih => rw [regroup, print_any, print_any, hmembers ih]
  | contextual e os ihe ihos =>
      have hoverrides : printOverrides (regroupOverrides os) = printOverrides os := by
        rw [printOverrides_eq, printOverrides_eq, regroupOverrides_eq, List.map_map]
        refine List.map_congr_left fun o ho => ?_
        rw [Function.comp_apply, ihos o ho]
      have hprint : ∀ x, (contextual x (regroupOverrides os)).print = x.print ++
          (" dans le contexte [" ++ (String.intercalate ", " (printOverrides os) ++ "]")) := by
        intro x
        simp only [print_contextual, hoverrides, String.append_assoc]
      rw [regroup, print_atEnd hprint, ihe]
      simp only [print_contextual, String.append_assoc]

/-! ## Showing the grouping -/

/-- If something open is put at the open end, the whole is open. -/
theorem isOpen_atEnd {f : Expr → Expr} (h : ∀ x, (f x).isOpen = true) (e : Expr) :
    (e.atEnd f).isOpen = true := by
  induction e using atEnd_induction with
  | closed e he => rw [atEnd_of_not_isOpen he, h]
  | cond c t e ih => rfl
  | applicable c v ih => rfl
  | notApplicable c v ih => rfl

/-- Inside an open end, closed expressions take the place of closed ones. -/
theorem showsGrouping_atEnd {f : Expr → Expr}
    (h : ∀ x, x.isOpen = false → x.showsGrouping = true → (f x).showsGrouping = true) {e : Expr}
    (he : e.showsGrouping = true) : (e.atEnd f).showsGrouping = true := by
  induction e using atEnd_induction with
  | closed e hclosed =>
      rw [atEnd_of_not_isOpen hclosed]
      exact h e hclosed he
  | cond c t e ih =>
      simp only [showsGrouping, Bool.and_eq_true] at he
      simp only [atEnd, showsGrouping, Bool.and_eq_true]
      exact ⟨he.1, ih he.2⟩
  | applicable c v ih | notApplicable c v ih =>
      simp only [showsGrouping, Bool.and_eq_true] at he
      simp only [atEnd, showsGrouping, Bool.and_eq_true]
      exact ⟨⟨he.1.1, ih he.1.2⟩, he.2⟩

/-- The grouping of a regrouped expression can be seen from its text. -/
theorem showsGrouping_regroup (e : Expr) : e.regroup.showsGrouping = true := by
  have hmembers : ∀ {es : List Expr}, (∀ e ∈ es, e.regroup.showsGrouping = true) →
      membersShowGrouping (regroupMembers es) = true := by
    intro es ih
    rw [membersShowGrouping_eq, regroupMembers_eq, List.all_map, List.all_eq_true]
    exact ih
  induction e with
  | ref n => rfl
  | const q => rfl
  | op o l r ihl ihr => simp only [regroup, showsGrouping, ihl, ihr, Bool.and_self]
  | cond c t e ihc iht ihe => simp only [regroup, showsGrouping, ihc, iht, ihe, Bool.and_self]
  | applicable c v ihc ihv | notApplicable c v ihc ihv =>
      rw [regroup]
      refine showsGrouping_atEnd ?_ ihv
      intro x hclosed hx
      simp only [showsGrouping, isChain_of_not_isOpen hclosed, ihc, hx, Bool.and_self]
  | all es ih => rw [regroup, showsGrouping, hmembers ih]
  | any es ih => rw [regroup, showsGrouping, hmembers ih]
  | contextual e os ihe ihos =>
      have hoverrides : overridesShowGrouping (regroupOverrides os) = true := by
        rw [overridesShowGrouping_eq, regroupOverrides_eq, List.all_map, List.all_eq_true]
        exact ihos
      rw [regroup]
      refine showsGrouping_atEnd ?_ ihe
      intro x hclosed hx
      simp only [showsGrouping, hclosed, hx, hoverrides, Bool.not_false, Bool.and_self]

/-- Regrouping opens no end that was closed, if the grouping can be seen. -/
theorem isOpen_regroup {e : Expr} (h : e.showsGrouping = true) : e.regroup.isOpen = e.isOpen := by
  induction e with
  | ref n => rfl
  | const q => rfl
  | op o l r ihl ihr => simp only [regroup, isOpen]
  | cond c t e ihc iht ihe => simp only [regroup, isOpen]
  | applicable c v ihc ihv => exact isOpen_atEnd (fun _ => rfl) _
  | notApplicable c v ihc ihv => exact isOpen_atEnd (fun _ => rfl) _
  | all es ih => simp only [regroup, isOpen]
  | any es ih => simp only [regroup, isOpen]
  | contextual e os ihe ihos =>
      simp only [showsGrouping, Bool.and_eq_true, Bool.not_eq_true'] at h
      rw [regroup, atEnd_of_not_isOpen ((ihe h.1.2).trans h.1.1)]
      rfl

theorem isChain_atEnd {f : Expr → Expr} (h : ∀ x, (f x).isChain = true) {e : Expr}
    (he : e.isChain = true) : (e.atEnd f).isChain = true := by
  induction e using atEnd_induction with
  | closed e hclosed => rw [atEnd_of_not_isOpen hclosed, h]
  | cond c t e ih => cases he
  | applicable c v ih => exact ih he
  | notApplicable c v ih => cases he

/-- Regrouping keeps the chains of expressions that show their grouping. -/
theorem isChain_regroup {e : Expr} (h : e.showsGrouping = true) (he : e.isChain = true) :
    e.regroup.isChain = true := by
  induction e with
  | cond c t e ihc iht ihe => cases he
  | notApplicable c v ihc ihv => cases he
  | applicable c v ihc ihv =>
      simp only [showsGrouping, Bool.and_eq_true] at h
      rw [regroup]
      refine isChain_atEnd ?_ (ihv h.2 h.1.1)
      intro x
      show c.regroup.isChain = true
      exact ihc h.1.2 he
  | ref n | const q | op o l r ihl ihr | all es ih | any es ih | contextual e os ihe ihos =>
      exact isChain_of_not_isOpen (isOpen_regroup h)

/-! ## The value -/

/-- What a value gives under a condition that is evaluated already, and that lets it apply or
not. -/
def applied (applies : Bool) (x : Evaluation) (value : Except EvalError Evaluation) :
    Except EvalError Evaluation := do
  if applies then
    return evalApplied x (← value)
  else
    return evalApplied x {}

/-- Conditions on a value can be applied one by one or all at once. -/
theorem evalApplied_assoc (x y z : Evaluation) :
    evalApplied (evalApplied x y) z = evalApplied x (evalApplied y z) := by
  simp only [evalApplied, Evaluation.absorb, Bool.true_or]
  congr 1
  ext n
  simp [or_assoc]

/-- Ruling out a value under a condition that has ruled one out adds nothing. -/
theorem evalApplied_null (x : Evaluation) :
    evalApplied (evalApplied x {}) {} = evalApplied x {} := by
  rw [evalApplied_assoc]
  rfl

/-- A condition that applies under another condition lets a value apply just as if the value applied
under both. -/
theorem applied_assoc (applies : Bool) (x : Evaluation) (b v : Except EvalError Evaluation) :
    (applied applies x b >>= fun z => applied z.value.isTruthy z v) =
      applied applies x (b >>= fun y => applied y.value.isTruthy y v) := by
  cases applies with
  | false => exact congrArg Except.ok (evalApplied_null x)
  | true =>
      cases b with
      | error e => rfl
      | ok y =>
          show applied y.value.isTruthy (evalApplied x y) v =
            (applied y.value.isTruthy y v).map (evalApplied x)
          cases y.value.isTruthy with
          | false => exact congrArg Except.ok (evalApplied_assoc x y {})
          | true =>
              cases v with
              | error e => rfl
              | ok z => exact congrArg Except.ok (evalApplied_assoc x y z)

section

variable {m : Meaning}

/-- An applicability evaluates its condition, and then applies it to the value. -/
theorem eval_applicable (scope : Scope) (c v : Expr) :
    eval m scope (applicable c v) =
      eval m scope c >>= fun x => applied x.value.isTruthy x (eval m scope v) := by
  rw [eval]
  rfl

/-- A non-applicability does the same with the opposite truth. -/
theorem eval_notApplicable (scope : Scope) (c v : Expr) :
    eval m scope (notApplicable c v) =
      eval m scope c >>= fun x => applied (!x.value.isTruthy) x (eval m scope v) := by
  rw [eval]
  refine bind_congr fun x => ?_
  cases x.value.isTruthy with
  | true => rfl
  | false => rfl

/-- At the end of a chain of applicabilities, one more condition applies just as to the whole
chain. -/
theorem eval_atEnd (applies : Value → Bool) {c : Expr} {f : Expr → Expr}
    (h : ∀ scope x, eval m scope (f x) =
      eval m scope c >>= fun y => applied (applies y.value) y (eval m scope x))
    {e : Expr} (he : e.isChain = true) (scope : Scope) :
    eval m scope (e.atEnd f) = eval m scope (f e) := by
  induction e using atEnd_induction with
  | closed e hclosed => rw [atEnd_of_not_isOpen hclosed]
  | cond c t e ih => cases he
  | notApplicable c v ih => cases he
  | applicable b v ih =>
      calc eval m scope (applicable (b.atEnd f) v)
        _ = (eval m scope c >>= fun y => applied (applies y.value) y (eval m scope b)) >>= fun z =>
              applied z.value.isTruthy z (eval m scope v) := by
            rw [eval_applicable, ih he, h]
        _ = eval m scope c >>= fun y =>
              applied (applies y.value) y (eval m scope (applicable b v)) := by
            rw [bind_assoc]
            refine bind_congr fun y => ?_
            rw [applied_assoc, eval_applicable]
        _ = eval m scope (f (applicable b v)) := (h scope _).symm

/-- Members keep their values if regrouping each of them does. -/
theorem evalMembers_regroup {es : List Expr} {scope : Scope}
    (h : ∀ e ∈ es, eval m scope e.regroup = eval m scope e) :
    evalMembers m scope (regroupMembers es) = evalMembers m scope es := by
  induction es with
  | nil => rfl
  | cons e es ih =>
      rw [List.forall_mem_cons] at h
      rw [regroupMembers, evalMembers, evalMembers, h.1, ih h.2]

theorem evalOverrides_regroup {os : List (Name × Expr)} {scope : Scope}
    (h : ∀ o ∈ os, eval m scope o.2.regroup = eval m scope o.2) :
    evalOverrides m scope (regroupOverrides os) = evalOverrides m scope os := by
  induction os with
  | nil => rfl
  | cons o os ih =>
      obtain ⟨n, e⟩ := o
      rw [List.forall_mem_cons] at h
      rw [regroupOverrides, evalOverrides, evalOverrides, h.1, ih h.2]

/-- Regrouping keeps the value of an expression whose grouping can be seen. -/
theorem eval_regroup {e : Expr} (h : e.showsGrouping = true) (scope : Scope) :
    eval m scope e.regroup = eval m scope e := by
  induction e generalizing scope with
  | ref n => rfl
  | const q => rfl
  | op o l r ihl ihr =>
      simp only [showsGrouping, Bool.and_eq_true] at h
      rw [regroup, eval, eval, ihl h.1, ihr h.2]
  | cond c t e ihc iht ihe =>
      simp only [showsGrouping, Bool.and_eq_true] at h
      rw [regroup, eval, eval, ihc h.1.1, iht h.1.2, ihe h.2]
  | applicable c v ihc ihv =>
      simp only [showsGrouping, Bool.and_eq_true] at h
      have hend := eval_atEnd (m := m) Value.isTruthy
        (fun scope x => eval_applicable scope c.regroup x) (isChain_regroup h.2 h.1.1) scope
      rw [regroup, hend, eval_applicable, eval_applicable, ihc h.1.2, ihv h.2]
  | notApplicable c v ihc ihv =>
      simp only [showsGrouping, Bool.and_eq_true] at h
      have hend := eval_atEnd (m := m) (fun v => !v.isTruthy)
        (fun scope x => eval_notApplicable scope c.regroup x) (isChain_regroup h.2 h.1.1) scope
      rw [regroup, hend, eval_notApplicable, eval_notApplicable, ihc h.1.2, ihv h.2]
  | all es ih | any es ih =>
      rw [showsGrouping, membersShowGrouping_eq, List.all_eq_true] at h
      rw [regroup, eval, eval, evalMembers_regroup fun e he => ih e he (h e he) scope]
  | contextual e os ihe ihos =>
      simp only [showsGrouping, overridesShowGrouping_eq, Bool.and_eq_true, Bool.not_eq_true',
        List.all_eq_true] at h
      have hoverrides := evalOverrides_regroup fun o ho => ihos o ho (h.2 o ho) scope
      rw [regroup, atEnd_of_not_isOpen ((isOpen_regroup h.1.2).trans h.1.1)]
      simp only [eval, hoverrides, ihe h.1.2]

end

end Expr

end RuleGraph
