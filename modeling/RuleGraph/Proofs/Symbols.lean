import RuleGraph.Expr

/-! # The symbols of a text

    The text of an expression is a sequence of words and marks.  Some of the
    words only serve the reader; the others, and some of the marks, are its
    `symbols`.  A text that begins and ends with a mark keeps its neighbours
    apart, so the symbols of a printed expression are found part by part
    (`symbols_between`).  Names, units and quoted texts are told from the words
    of the language if they are plain (`symbols_plainWord`, `symbols_text`). -/

namespace RuleGraph

namespace Reading

/-! ## Symbols -/

/-- What matters in the text of an expression. -/
inductive Symbol where
  | word (text : String)
  | constant (value : Value)
  | operator (o : Operator)
  | si
  | alors
  | sinon
  /-- Either the constant or the begin of a non-applicability. -/
  | non
  | list (conjunction : Bool)
  | dans
  | opening
  | closing
  | comma
  | ending
deriving DecidableEq

/-- The characters that belong to no word. -/
def isMark (c : Char) : Bool := [' ', '(', ')', '[', ']', ','].contains c

/-- The marks that matter. -/
def markSymbol? : Char → Option Symbol
  | '(' => some .opening
  | ')' => some .closing
  | ',' => some .comma
  | ']' => some .ending
  | _ => none

def operators : List Operator := [.add, .sub, .mul, .div, .lt, .le, .gt, .ge, .eq, .ne]

/-- The words of the language, the empty one included, and what those that matter stand for. -/
def vocabulary : List (String × Option Symbol) :=
  [("", none), ("null", some (.constant .null)), ("oui", some (.constant (.bool true))),
    ("non", some .non), ("si", some .si), ("alors", some .alors), ("sinon", some .sinon),
    ("applicable", none), ("toutes", some (.list true)), ("une", some (.list false)), ("de", none),
    ("ces", none), ("conditions", none), ("dans", some .dans), ("le", none), ("contexte", none)] ++
  operators.map fun o => (o.print, some (.operator o))

def quote : Char := Char.ofNat 39

/-- What a word stands for. -/
def wordSymbol? (w : String) : Option Symbol :=
  match vocabulary.lookup w with
  | some symbol => symbol
  | none =>
    if w.toList.head? = some quote then
      some (.constant (.text (String.ofList w.toList.tail.dropLast)))
    else some (.word w)

/-- Letters that make up a word, in front of symbols. -/
def flush (w : List Char) (symbols : List Symbol) : List Symbol :=
  (wordSymbol? (String.ofList w)).toList ++ symbols

/-- The letters up to the first mark, and the symbols from there on. -/
def scan : List Char → List Char × List Symbol
  | [] => ([], [])
  | c :: cs =>
    if isMark c then ([], (markSymbol? c).toList ++ flush (scan cs).1 (scan cs).2)
    else (c :: (scan cs).1, (scan cs).2)

/-- The symbols of a text. -/
def symbols (text : String) : List Symbol := flush (scan text.toList).1 (scan text.toList).2

theorem flush_nil (ss : List Symbol) : flush [] ss = ss := rfl

theorem flush_append (w : List Char) (ss ts : List Symbol) :
    flush w (ss ++ ts) = flush w ss ++ ts := (List.append_assoc ..).symm

/-- What begins with a mark does not change the words before it. -/
theorem scan_append {ds : List Char} (h : (scan ds).1 = []) (cs : List Char) :
    scan (cs ++ ds) = ((scan cs).1, (scan cs).2 ++ (scan ds).2) := by
  induction cs with
  | nil => rw [List.nil_append, scan, ← h, List.nil_append]
  | cons c cs ih =>
      simp only [List.cons_append, scan, ih]
      split
      · rw [flush_append, List.append_assoc]
      · rfl

/-- A mark ends a word, and what comes after it is scanned on its own. -/
theorem scan_mark {c : Char} (hc : isMark c = true) (cs : List Char) :
    scan (c :: cs) = ([], (markSymbol? c).toList ++ flush (scan cs).1 (scan cs).2) := by
  rw [scan, if_pos hc]

/-- A text without marks is one word. -/
theorem scan_word {w : List Char} (hw : w.all (!isMark ·) = true) : scan w = (w, []) := by
  induction w with
  | nil => rfl
  | cons c w ih =>
      simp only [List.all_cons, Bool.and_eq_true, Bool.not_eq_true'] at hw
      rw [scan, if_neg (by simp [hw.1]), ih hw.2]

/-- Does the text begin with a mark, and end with one? -/
def isApart (text : String) : Bool :=
  text.toList.head?.any isMark && text.toList.getLast?.any isMark

section

variable {s t : String}

/-- Before a text that begins with a mark, the last text has its own symbols. -/
theorem symbols_append_of_head (h : t.toList.head?.any isMark = true) :
    symbols (s ++ t) = symbols s ++ symbols t := by
  obtain ⟨c, hc, hmark⟩ := (Option.any_eq_true ..).mp h
  obtain ⟨cs, hcs⟩ := List.head?_eq_some_iff.mp hc
  have hscan : (scan t.toList).1 = [] := by rw [hcs, scan_mark hmark]
  rw [symbols, String.toList_append, scan_append hscan, flush_append, symbols, symbols, hscan,
    flush_nil]

/-- After a text that ends with a mark, the next text has its own symbols. -/
theorem symbols_append_of_last (h : s.toList.getLast?.any isMark = true) :
    symbols (s ++ t) = symbols s ++ symbols t := by
  obtain ⟨c, hc, hmark⟩ := (Option.any_eq_true ..).mp h
  obtain ⟨cs, hcs⟩ := List.getLast?_eq_some_iff.mp hc
  -- the last mark is the first one of what follows the rest
  have hscan : ∀ ds, scan (cs ++ c :: ds) =
      ((scan cs).1, (scan cs).2 ++ ((markSymbol? c).toList ++ flush (scan ds).1 (scan ds).2)) := by
    intro ds
    rw [scan_append (by rw [scan_mark hmark]), scan_mark hmark]
  have hs : scan s.toList = ((scan cs).1, (scan cs).2 ++ (markSymbol? c).toList) := by
    rw [hcs, hscan, scan, flush_nil, List.append_nil]
  rw [symbols, String.toList_append, hcs, List.append_assoc, List.singleton_append, hscan, symbols,
    hs, symbols, ← flush_append, List.append_assoc]

/-- A text between two others that keeps them apart. -/
theorem symbols_between {u : String} (h : isApart u = true) :
    symbols (s ++ u ++ t) = symbols s ++ symbols u ++ symbols t := by
  rw [isApart, Bool.and_eq_true] at h
  rw [symbols_append_of_last, symbols_append_of_head h.1]
  obtain ⟨c, hc, hmark⟩ := (Option.any_eq_true ..).mp h.2
  obtain ⟨cs, hcs⟩ := List.getLast?_eq_some_iff.mp hc
  rw [String.toList_append, hcs, ← List.append_assoc, List.getLast?_concat]
  exact hmark

end

/-- Texts in a list have their own symbols, with commas between them. -/
theorem symbols_intercalate (texts : List String) :
    symbols (String.intercalate ", " texts) = [Symbol.comma].intercalate (texts.map symbols) := by
  induction texts with
  | nil => rfl
  | cons s texts ih =>
      cases texts with
      | nil => rw [String.intercalate_singleton, List.map_singleton, List.intercalate_singleton]
      | cons t texts =>
          rw [String.intercalate_cons_cons, symbols_between (by decide), ih, List.map_cons,
            List.map_cons, List.map_cons, List.intercalate_cons_cons]
          rfl

/-! ## Plain words -/

/-- A word that is no word of the language and holds no mark, and is not a quoted text. -/
def isPlainWord (w : String) : Bool :=
  (vocabulary.lookup w).isNone && w.toList.all (!isMark ·) && w.toList.head? != some quote

/-- A text without marks has the symbol of a word, if the word matters. -/
theorem symbols_word {w : String} (h : w.toList.all (!isMark ·) = true) :
    symbols w = (wordSymbol? w).toList := by
  rw [symbols, scan_word h, flush, String.ofList_toList, List.append_nil]

/-- A plain word stands for itself. -/
theorem symbols_plainWord {w : String} (h : isPlainWord w = true) : symbols w = [.word w] := by
  simp only [isPlainWord, Bool.and_eq_true, Option.isNone_iff_eq_none, bne_iff_ne] at h
  rw [symbols_word h.1.2, wordSymbol?, h.1.1]
  simp only [if_neg h.2]
  rfl

/-- The text of an operator stands for it. -/
theorem symbols_operator (o : Operator) : symbols o.print = [.operator o] := by
  cases o with
  | add | sub | mul | div | lt | le | gt | ge | eq | ne => rfl

/-- A quoted text without marks stands for the text. -/
theorem symbols_text {s : String} (h : s.toList.all (!isMark ·) = true) :
    symbols ("'" ++ s ++ "'") = [.constant (.text s)] := by
  have hlist : ("'" ++ s ++ "'").toList = quote :: (s.toList ++ [quote]) := by
    simp [String.toList_append, quote]
  have hlookup : vocabulary.lookup ("'" ++ s ++ "'") = none := by
    have hhead : ∀ p ∈ vocabulary, p.1.toList.head? ≠ some quote := by decide
    rw [List.lookup_eq_none_iff]
    intro p hp
    rw [bne_iff_ne]
    intro heq
    refine hhead p hp ?_
    rw [← heq, hlist]
    rfl
  have hmarks : ("'" ++ s ++ "'").toList.all (!isMark ·) = true := by
    rw [hlist, List.all_cons, List.all_append, h]
    rfl
  rw [symbols_word hmarks, wordSymbol?, hlookup]
  simp [hlist, String.ofList_toList]

end Reading

open Reading

/-- Null, a truth value or a text without marks, with a plain word as its unit, if it has one. -/
def Quantity.isPlain (q : Quantity) : Bool :=
  (match q.value with
    | .number _ => false
    | .text s => s.toList.all (!isMark ·)
    | _ => true) && q.unit.all isPlainWord

namespace Expr

mutual

/-- Are all names plain words, and all constants plain? -/
@[simp] def isPlain : Expr → Bool
  | ref n => isPlainWord n.text
  | const q => q.isPlain
  | op _ l r => l.isPlain && r.isPlain
  | cond c t e => c.isPlain && t.isPlain && e.isPlain
  | applicable c v => c.isPlain && v.isPlain
  | notApplicable c v => c.isPlain && v.isPlain
  | all es => membersPlain es
  | any es => membersPlain es
  | contextual e os => e.isPlain && overridesPlain os

@[simp] def membersPlain : List Expr → Bool
  | [] => true
  | e :: es => e.isPlain && membersPlain es

@[simp] def overridesPlain : List (Name × Expr) → Bool
  | [] => true
  | (n, e) :: os => isPlainWord n.text && e.isPlain && overridesPlain os

end

theorem membersPlain_eq (es : List Expr) : membersPlain es = es.all isPlain := by
  induction es with
  | nil => rfl
  | cons e es ih => rw [membersPlain, ih, List.all_cons]

theorem overridesPlain_eq (os : List (Name × Expr)) :
    overridesPlain os = os.all fun o => isPlainWord o.1.text && o.2.isPlain := by
  induction os with
  | nil => rfl
  | cons o os ih =>
      obtain ⟨n, e⟩ := o
      rw [overridesPlain, ih, List.all_cons]

end Expr

end RuleGraph
