import Mathlib
import FlowFacts.Graph.Drawing
import FlowFacts.Proofs.Lexing

/-!
# Drawings can be read back

`Drawing.read` reads the text of a drawing. It goes through the text one character at a time and knows whether it is inside
quotation marks, where a backslash takes its meaning from the next character (`Drawing.Reader.step`). The words, quoted
texts and marks that it finds are put together to statements about nodes and arcs.

A text that was escaped stays inside its quotation marks, whatever it contains (`Drawing.quotable_escape`), and undoing the
escapes gives it back (`Drawing.linesFrom_escape`). So a reader of the drawing of a graph finds its nodes and arcs and what
is written at them (`Graph.read_draw`).
-/

namespace FlowFacts

namespace Drawing

/-! ## A reader of drawings -/

/-- What the text of a drawing is made of. A text between quotation marks is kept as it is written. -/
inductive Piece where
  | word (text : List Char)
  | quoted (text : List Char)
  | mark (c : Char)
  deriving DecidableEq

/-- Where a reader stands: outside quotation marks with a word begun or none, inside them, or there behind a backslash. -/
inductive Place where
  | outside (word : List Char)
  | inside (text : List Char)
  | escaping (text : List Char)

/-- A reader, with the pieces it has found. The last one comes first. -/
structure Reader where
  found : List Piece
  place : Place

def marks : List Char := ['\x7b', '\x7d', '[', ']', '=', ',', ';']

/-- The pieces found when a word ends. -/
def ended (word : List Char) (found : List Piece) : List Piece :=
  match word with
  | [] => found
  | c :: rest => .word (c :: rest) :: found

namespace Reader

/-- Reading one character. -/
def step (r : Reader) (c : Char) : Reader :=
  match r.place with
  | .outside word =>
    if c = '"' then ⟨ended word r.found, .inside []⟩
    else if marks.contains c then ⟨.mark c :: ended word r.found, .outside []⟩
    else if isBlank c then ⟨ended word r.found, .outside []⟩
    else ⟨r.found, .outside (word ++ [c])⟩
  | .inside text =>
    if c = '"' then ⟨.quoted text :: r.found, .outside []⟩
    else if c = '\\' then ⟨r.found, .escaping text⟩
    else ⟨r.found, .inside (text ++ [c])⟩
  | .escaping text => ⟨r.found, .inside (text ++ ['\\', c])⟩

def run (r : Reader) (text : List Char) : Reader := text.foldl step r

/-- All pieces, unless the text ends inside quotation marks. -/
def pieces? (r : Reader) : Option (List Piece) :=
  match r.place with
  | .outside word => some (ended word r.found).reverse
  | .inside _ | .escaping _ => none

end Reader

/-- The lines of a quoted text. A backslash and an `n` stand for the end of a line, a backslash and another character for
that character. -/
def linesFrom (line : List Char) : List Char → List String
  | [] => [String.ofList line]
  | '\\' :: c :: rest =>
    if c = 'n' then String.ofList line :: linesFrom [] rest else linesFrom (line ++ [c]) rest
  | c :: rest => linesFrom (line ++ [c]) rest

def Piece.lines? : Piece → Option (List String)
  | word text => some [String.ofList text]
  | quoted text => some (linesFrom [] text)
  | mark _ => none

/-- Properties with their values, each value as the lines of its text. -/
abbrev Attributes := List (String × List String)

/-- The statements of a drawing. -/
inductive Item where
  /-- What holds for all nodes. -/
  | defaults (attributes : Attributes)
  | node (number : Nat) (attributes : Attributes)
  | arc (source target : Nat) (attributes : Attributes)
  deriving DecidableEq

/-- Attributes up to the bracket that closes them. -/
def attributes : List Piece → Option Attributes
  | [.word key, .mark '=', value, .mark ']'] => do return [(String.ofList key, ← value.lines?)]
  | .word key :: .mark '=' :: value :: .mark ',' :: rest => do
    return (String.ofList key, ← value.lines?) :: (← attributes rest)
  | _ => none

def number? (word : List Char) : Option Nat :=
  if word ≠ [] ∧ word.all Char.isDigit then some (Token.digitsValue word) else none

/-- The statement that some pieces make. -/
def Item.ofPieces : List Piece → Option Item
  | .word name :: .mark '[' :: rest =>
    if name = "node".toList then do return defaults (← attributes rest)
    else do return node (← number? name) (← attributes rest)
  | .word source :: .word arrow :: .word target :: .mark '[' :: rest =>
    if arrow = "->".toList then do return arc (← number? source) (← number? target) (← attributes rest) else none
  | _ => none

/-- Statements, each up to its semicolon, and the brace that closes the drawing. -/
def items (begun : List Piece) : List Piece → Option (List Item)
  | [] => none
  | p :: rest =>
    if p = .mark ';' then do return (← Item.ofPieces begun) :: (← items [] rest)
    else if p = .mark '\x7d' then if begun = [] ∧ rest = [] then some [] else none
    else items (begun ++ [p]) rest

/-- The statements of a drawing, if its text is one. -/
def read (text : String) : Option (List Item) := do
  match ← (Reader.run ⟨[], .outside []⟩ text.toList).pieces? with
  | .word kind :: .mark '\x7b' :: rest => if kind = "digraph".toList then items [] rest else none
  | _ => none

/-! ## Escaped texts -/

/-- What a character becomes in a quoted text. -/
def escapeChar (c : Char) : List Char := if c = '\\' ∨ c = '"' then ['\\', c] else [c]

/-- The two rounds of escaping act on each character on its own. -/
theorem toList_escape (text : String) : (escape text).toList = text.toList.flatMap escapeChar := by
  rw [escape, String.toList_ofList, escapeEach, escapeEach, List.flatMap_assoc]
  congr 1
  funext c
  unfold escapeChar
  by_cases hb : c = '\\'
  · subst hb
    rfl
  · by_cases hq : c = '"' <;> simp [hb, hq]

/-- A text through which a reader passes inside quotation marks. -/
def Quotable (text : List Char) : Prop :=
  ∀ found front, Reader.run ⟨found, .inside front⟩ text = ⟨found, .inside (front ++ text)⟩

theorem run_append (r : Reader) (text more : List Char) : r.run (text ++ more) = (r.run text).run more :=
  List.foldl_append

theorem Quotable.append {text more : List Char} (h : Quotable text) (h' : Quotable more) : Quotable (text ++ more) := by
  intro found front
  rw [run_append, h, h', List.append_assoc]

theorem quotable_escapeChar (c : Char) : Quotable (escapeChar c) := by
  intro found front
  unfold escapeChar
  by_cases h : c = '\\' ∨ c = '"'
  · rw [if_pos h]
    rfl
  · rw [if_neg h]
    rw [not_or] at h
    simp [Reader.run, Reader.step, h.1, h.2]

theorem quotable_escape (text : String) : Quotable (escape text).toList := by
  rw [toList_escape]
  induction text.toList with
  | nil =>
    intro found front
    rw [List.flatMap_nil, List.append_nil]
    rfl
  | cons c rest ih =>
    rw [List.flatMap_cons]
    exact (quotable_escapeChar c).append ih

theorem linesFrom_escapeChar (line : List Char) (c : Char) (rest : List Char) :
    linesFrom line (escapeChar c ++ rest) = linesFrom (line ++ [c]) rest := by
  unfold escapeChar
  by_cases h : c = '\\' ∨ c = '"'
  · have hn : c ≠ 'n' := by rcases h with rfl | rfl <;> decide
    rw [if_pos h]
    simp [linesFrom, hn]
  · rw [if_neg h]
    rw [not_or] at h
    simp [linesFrom, h.1]

/-- Undoing the escapes gives the text back, as part of the line that has begun. -/
theorem linesFrom_escape (line : List Char) (text : String) (rest : List Char) :
    linesFrom line ((escape text).toList ++ rest) = linesFrom (line ++ text.toList) rest := by
  rw [toList_escape]
  induction text.toList generalizing line with
  | nil => rw [List.flatMap_nil, List.nil_append, List.append_nil]
  | cons c more ih =>
    rw [List.flatMap_cons, List.append_assoc, linesFrom_escapeChar, ih, List.append_assoc, List.singleton_append]

theorem lines_escape (text : String) : linesFrom [] (escape text).toList = [text] := by
  have h := linesFrom_escape [] text []
  rwa [List.append_nil, List.nil_append, linesFrom, String.ofList_toList] at h

theorem lines_break (text : String) (rest : List Char) :
    linesFrom [] ((escape text).toList ++ '\\' :: 'n' :: rest) = text :: linesFrom [] rest := by
  rw [linesFrom_escape, List.nil_append, linesFrom, if_pos rfl, String.ofList_toList]

/-! ## Words and numbers -/

/-- A word of letters, digits and underscores. -/
structure IsWord (word : List Char) : Prop where
  nonempty : word ≠ []
  parts : ∀ c ∈ word, Token.isWordPart c = true

theorem step_wordPart {c : Char} (hc : Token.isWordPart c = true) (found : List Piece) (front : List Char) :
    Reader.step ⟨found, .outside front⟩ c = ⟨found, .outside (front ++ [c])⟩ := by
  have hmarks : marks.contains c = false := by
    have hparts : marks.any Token.isWordPart = false := by decide
    rw [← Bool.not_eq_true, List.contains_iff_mem]
    exact fun hmem => List.any_eq_false.1 hparts c hmem hc
  have hquote : c ≠ '"' := Token.ne_of_part hc (by decide)
  simp only [Reader.step, if_neg hquote, hmarks, Token.isBlank_eq_false hc, Bool.false_eq_true, if_false]

theorem run_wordParts {word : List Char} (h : ∀ c ∈ word, Token.isWordPart c = true) (found : List Piece)
    (front : List Char) : Reader.run ⟨found, .outside front⟩ word = ⟨found, .outside (front ++ word)⟩ := by
  induction word generalizing front with
  | nil =>
    rw [List.append_nil]
    rfl
  | cons c rest ih =>
    show Reader.run (Reader.step ⟨found, .outside front⟩ c) rest = _
    rw [step_wordPart (h c List.mem_cons_self), ih fun d hd => h d (List.mem_cons_of_mem _ hd), List.append_assoc,
      List.singleton_append]

theorem IsWord.run {word : List Char} (h : IsWord word) (found : List Piece) :
    Reader.run ⟨found, .outside []⟩ word = ⟨found, .outside word⟩ :=
  run_wordParts h.parts found []

theorem IsWord.ended {word : List Char} (h : IsWord word) (found : List Piece) :
    ended word found = .word word :: found := by
  obtain ⟨c, rest, rfl⟩ := List.exists_cons_of_ne_nil h.nonempty
  rfl

theorem toList_number (n : Nat) : (toString n).toList = Nat.toDigits 10 n := Nat.toList_repr

theorem isWord_number (n : Nat) : IsWord (toString n).toList := by
  rw [toList_number]
  exact ⟨Nat.toDigits_ne_nil, fun c hc => Token.isWordPart_of_digit (Token.isDigit_toDigits n c hc)⟩

theorem number?_number (n : Nat) : number? (toString n).toList = some n := by
  rw [toList_number, number?, Token.digitsValue_toDigits, if_pos]
  exact ⟨Nat.toDigits_ne_nil, List.all_eq_true.2 (Token.isDigit_toDigits n)⟩

/-! ## Statements -/

/-- A text from which a reader takes one statement. -/
def Says (text : String) (item : Item) : Prop :=
  ∃ pieces, (∀ found, Reader.run ⟨found, .outside []⟩ text.toList = ⟨.mark ';' :: pieces.reverse ++ found, .outside []⟩) ∧
    (∀ p ∈ pieces, p ≠ .mark ';' ∧ p ≠ .mark '\x7d') ∧ Item.ofPieces pieces = some item

theorem items_append {pieces : List Piece} (h : ∀ p ∈ pieces, p ≠ .mark ';' ∧ p ≠ .mark '\x7d') (begun rest : List Piece) :
    items begun (pieces ++ rest) = items (begun ++ pieces) rest := by
  induction pieces generalizing begun with
  | nil => rw [List.append_nil, List.nil_append]
  | cons p pieces ih =>
    obtain ⟨hsemicolon, hbrace⟩ := h p List.mem_cons_self
    rw [List.cons_append, items, if_neg hsemicolon, if_neg hbrace, ih fun q hq => h q (List.mem_cons_of_mem _ hq),
      List.append_assoc, List.singleton_append]

/-- From statements one after the other a reader takes all of them. -/
theorem exists_pieces_of_says {texts : List String} {found : List Item} (h : List.Forall₂ Says texts found) :
    ∃ pieces, (∀ front, Reader.run ⟨front, .outside []⟩ (String.join texts).toList = ⟨pieces.reverse ++ front, .outside []⟩) ∧
      ∀ rest, items [] (pieces ++ rest) = (found ++ ·) <$> items [] rest := by
  simp only [String.toList_join]
  induction h with
  | nil => exact ⟨[], fun _ => rfl, fun rest => by simp⟩
  | @cons text item texts found hsays _ ih =>
    obtain ⟨pieces, hrun, hplain, hitem⟩ := hsays
    obtain ⟨more, hmore, hitems⟩ := ih
    refine ⟨pieces ++ .mark ';' :: more, fun front => ?_, fun rest => ?_⟩
    · rw [List.flatMap_cons, run_append, hrun, hmore]
      simp
    · rw [List.append_assoc, items_append hplain, List.nil_append, List.cons_append, items, if_pos rfl, hitem, hitems]
      cases items [] rest <;> rfl

/-- A drawing is read as the statements between its braces. -/
theorem read_join {texts : List String} {found : List Item} (h : List.Forall₂ Says texts found) :
    read ("digraph \x7b\n" ++ String.join texts ++ "\x7d\n") = some found := by
  obtain ⟨pieces, hrun, hitems⟩ := exists_pieces_of_says h
  have hopen : Reader.run ⟨[], .outside []⟩ "digraph \x7b\n".toList =
      ⟨[.mark '\x7b', .word "digraph".toList], .outside []⟩ := rfl
  have hclose : ∀ front, Reader.run ⟨front, .outside []⟩ "\x7d\n".toList = ⟨.mark '\x7d' :: front, .outside []⟩ :=
    fun _ => rfl
  have hpieces : (Reader.run ⟨[], .outside []⟩ ("digraph \x7b\n" ++ String.join texts ++ "\x7d\n").toList).pieces? =
      some (.word "digraph".toList :: .mark '\x7b' :: (pieces ++ [.mark '\x7d'])) := by
    rw [String.toList_append, String.toList_append, run_append, run_append, hopen, hrun, hclose]
    simp [Reader.pieces?, ended]
  rw [read, hpieces]
  show items [] (pieces ++ [.mark '\x7d']) = _
  rw [hitems, items]
  simp

theorem ofPieces_node {name : List Char} {n : Nat} {rest : List Piece} {values : Attributes}
    (hname : number? name = some n) (hrest : attributes rest = some values) :
    Item.ofPieces (.word name :: .mark '[' :: rest) = some (.node n values) := by
  have hnode : name ≠ "node".toList := by
    rintro rfl
    cases hname
  rw [Item.ofPieces, if_neg hnode, hname, hrest]
  rfl

theorem ofPieces_arc {source target : List Char} {m n : Nat} {rest : List Piece} {values : Attributes}
    (hsource : number? source = some m) (htarget : number? target = some n) (hrest : attributes rest = some values) :
    Item.ofPieces (.word source :: .word "->".toList :: .word target :: .mark '[' :: rest) = some (.arc m n values) := by
  rw [Item.ofPieces, if_pos rfl, hsource, htarget, hrest]
  rfl

/-! ## The statements of a graph -/

theorem escape_eq_self {text : String} (h : ∀ c ∈ text.toList, Token.isWordPart c = true) : escape text = text := by
  have hchar : ∀ c ∈ text.toList, escapeChar c = [c] := by
    intro c hc
    refine if_neg ?_
    rintro (rfl | rfl)
    · exact absurd (h _ hc) (by decide)
    · exact absurd (h _ hc) (by decide)
  rw [← String.toList_inj, toList_escape, List.flatMap_congr hchar, List.flatMap_singleton']

theorem escape_label (label : Nat) : escape (renderLabel label) = renderLabel label := by
  refine escape_eq_self fun c hc => ?_
  rw [renderLabel, String.toList_append, toList_number, List.mem_append] at hc
  rcases hc with hc | hc
  · obtain rfl : c = 'L' := by simpa using hc
    decide
  · exact Token.isWordPart_of_digit (Token.isDigit_toDigits label c hc)

/-- The text of a node stays inside its quotation marks, and its lines are the label and the state. -/
theorem nodeText_spec (label : Nat) (state : Option String) : Quotable (nodeText label state).toList ∧
    linesFrom [] (nodeText label state).toList = renderLabel label :: state.toList := by
  cases state with
  | none =>
    have htext : (nodeText label none).toList = (escape (renderLabel label)).toList := by
      rw [nodeText, escape_label]
    rw [htext, lines_escape]
    exact ⟨quotable_escape _, rfl⟩
  | some s =>
    have htext : (nodeText label (some s)).toList =
        (escape (renderLabel label)).toList ++ '\\' :: 'n' :: (escape s).toList := by
      rw [nodeText, escape_label, String.toList_append, String.toList_append, List.append_assoc]
      rfl
    have hbreak : Quotable ['\\', 'n'] := fun _ _ => rfl
    rw [htext, lines_break, lines_escape]
    exact ⟨(quotable_escape _).append (hbreak.append (quotable_escape s)), rfl⟩

/-- The end of a statement with a label. -/
theorem run_close (text : List Char) (found : List Piece) :
    Reader.run ⟨found, .inside text⟩ "\"];\n".toList = ⟨.mark ';' :: .mark ']' :: .quoted text :: found, .outside []⟩ :=
  rfl

theorem says_defaults : Says "node [shape=box];\n" (.defaults [("shape", ["box"])]) :=
  ⟨[.word "node".toList, .mark '[', .word "shape".toList, .mark '=', .word "box".toList, .mark ']'], fun _ => rfl,
    by simp, rfl⟩

/-- The shape of a node is there for the entry only. -/
theorem exists_shape (entry i : Nat) : ∃ shape : List Piece,
    (∀ found, Reader.run ⟨found, .outside []⟩
      (if i = entry then "shape=" ++ ({} : Style).entryShape ++ ", " else "").toList = ⟨shape.reverse ++ found, .outside []⟩) ∧
    (∀ p ∈ shape, p ≠ .mark ';' ∧ p ≠ .mark '\x7d') ∧
    ∀ {rest : List Piece} {values : Attributes}, attributes rest = some values →
      attributes (shape ++ rest) = some ((if i = entry then [("shape", ["doublecircle"])] else []) ++ values) := by
  by_cases hi : i = entry
  · simp only [if_pos hi]
    refine ⟨[.word "shape".toList, .mark '=', .word "doublecircle".toList, .mark ','], fun _ => rfl, by simp, ?_⟩
    intro rest values h
    simp [attributes, Piece.lines?, h]
  · simp only [if_neg hi]
    exact ⟨[], fun _ => rfl, by simp, id⟩

theorem says_nodeLine (entry i : Nat) {text : String} (h : Quotable text.toList) :
    Says (nodeLine {} entry i text) (.node i
      ((if i = entry then [("shape", ["doublecircle"])] else []) ++ [("label", linesFrom [] text.toList)])) := by
  have hopen : ∀ word found, Reader.run ⟨found, .outside word⟩ " [".toList = ⟨.mark '[' :: ended word found, .outside []⟩ :=
    fun _ _ => rfl
  have hlabel : ∀ found, Reader.run ⟨found, .outside []⟩ "label=\"".toList =
      ⟨.mark '=' :: .word "label".toList :: found, .inside []⟩ := fun _ => rfl
  have hnumber := isWord_number i
  obtain ⟨shape, hshape, hplain, hvalues⟩ := exists_shape entry i
  refine ⟨.word (toString i).toList :: .mark '[' ::
    (shape ++ [.word "label".toList, .mark '=', .quoted text.toList, .mark ']']), fun found => ?_, ?_,
    ofPieces_node (number?_number i) (hvalues rfl)⟩
  · simp only [nodeLine, String.toList_append, run_append, hnumber.run, hopen, hnumber.ended, hshape, hlabel, h _ _, run_close]
    simp
  · simpa [or_imp, forall_and] using hplain

/-- The style of an arc is that of its kind. -/
def stroke : Statement → String
  | .assume _ => "dashed"
  | .assert _ => "bold"
  | .skip | .assign _ _ => "solid"

theorem arcStyle_default (s : Statement) : arcStyle {} s = stroke s := by
  cases s with
  | skip | assign | assume | assert => rfl

theorem isWord_stroke (s : Statement) : IsWord (stroke s).toList := by
  have hcases : stroke s = "dashed" ∨ stroke s = "bold" ∨ stroke s = "solid" := by
    cases s <;> simp [stroke]
  rcases hcases with h | h | h <;> rw [h] <;> exact ⟨by decide, List.all_eq_true.1 rfl⟩

theorem says_arcLine (a : Arc) : Says (arcLine {} a) (.arc a.source a.target
    [("style", [stroke a.statement]), ("label", [a.statement.render])]) := by
  have harrow : ∀ word found, Reader.run ⟨found, .outside word⟩ " -> ".toList =
      ⟨.word "->".toList :: ended word found, .outside []⟩ := fun _ _ => rfl
  have hopen : ∀ word found, Reader.run ⟨found, .outside word⟩ " [style=".toList =
      ⟨.mark '=' :: .word "style".toList :: .mark '[' :: ended word found, .outside []⟩ := fun _ _ => rfl
  have hlabel : ∀ word found, Reader.run ⟨found, .outside word⟩ ", label=\"".toList =
      ⟨.mark '=' :: .word "label".toList :: .mark ',' :: ended word found, .inside []⟩ := fun _ _ => rfl
  have hsource := isWord_number a.source
  have htarget := isWord_number a.target
  have hstroke := isWord_stroke a.statement
  refine ⟨[.word (toString a.source).toList, .word "->".toList, .word (toString a.target).toList, .mark '[',
    .word "style".toList, .mark '=', .word (stroke a.statement).toList, .mark ',', .word "label".toList, .mark '=',
    .quoted (escape a.statement.render).toList, .mark ']'], fun found => ?_, by simp, ?_⟩
  · simp only [arcLine, String.toList_append, run_append, hsource.run, harrow, hsource.ended, htarget.run, hopen,
      htarget.ended, arcStyle_default, hstroke.run, hlabel, hstroke.ended, quotable_escape _ _ _, run_close]
    simp only [List.reverse_cons, List.reverse_nil, List.nil_append, List.cons_append]
  · refine ofPieces_arc (number?_number a.source) (number?_number a.target) ?_
    simp [attributes, Piece.lines?, lines_escape, String.ofList_toList]

/-- What a drawing says about a node: the entry has a shape of its own, and below the label stands the node's state. -/
def nodeItem (g : Graph) (states : Option (List String)) (i label : Nat) : Item :=
  .node i ((if i = g.entry then [("shape", ["doublecircle"])] else []) ++
    [("label", renderLabel label :: (states.map fun texts => texts.getD i "").toList)])

/-- What a drawing says about an arc. -/
def arcItem (a : Arc) : Item :=
  .arc a.source a.target [("style", [stroke a.statement]), ("label", [a.statement.render])]

theorem says_node {g : Graph} {states : Option (List String)} (h : ∀ texts ∈ states, texts.length = g.size) {i : Nat}
    (hi : i < g.size) (label : Nat) :
    Says (nodeLine {} g.entry i (nodeText label (states.bind fun texts => texts[i]?))) (nodeItem g states i label) := by
  have hstate : (states.bind fun texts => texts[i]?) = states.map fun texts => texts.getD i "" := by
    cases states with
    | none => rfl
    | some texts =>
      have hlt : i < texts.length := h texts rfl ▸ hi
      show texts[i]? = some (texts.getD i "")
      rw [List.getElem?_eq_getElem hlt, List.getD_eq_getElem _ _ hlt]
  rw [hstate]
  obtain ⟨hquotable, hlines⟩ := nodeText_spec label (states.map fun texts => texts.getD i "")
  have hsays := says_nodeLine g.entry i hquotable
  rw [hlines] at hsays
  exact hsays

end Drawing

open Drawing

/-- The drawing of a graph is read as one statement for each node and one for each arc, in their order and after the shape
of all nodes. Whatever the names in the statements and the texts of the states contain, each label is read as what was
written: that of an arc as its statement, that of a node as its label and, on a line of its own, its state. -/
theorem Graph.read_draw (g : Graph) {states : Option (List String)} (h : ∀ texts ∈ states, texts.length = g.size) :
    ∃ text, g.draw states {} = .ok text ∧
      read text = some (.defaults [("shape", ["box"])] :: (g.labels.mapIdx (nodeItem g states) ++ g.arcs.map arcItem)) := by
  have hcount : ¬ states.any (·.length ≠ g.size) = true := by
    intro hany
    obtain ⟨texts, htexts, hne⟩ := (Option.any_eq_true _ _).1 hany
    exact absurd (h texts htexts) (by simpa using hne)
  let nodeLines := g.labels.zipIdx.map fun p =>
    nodeLine {} g.entry p.2 (nodeText p.1 (states.bind fun texts => texts[p.2]?))
  have hdraw : g.draw states {} = .ok ("digraph \x7b\n" ++
      String.join ("node [shape=box];\n" :: (nodeLines ++ g.arcs.map (arcLine {}))) ++ "\x7d\n") := by
    have hshape : "node [shape=" ++ ({} : Style).nodeShape ++ "];\n" = "node [shape=box];\n" := rfl
    rw [draw, if_neg hcount, String.join_cons, String.join_append, ← hshape]
    simp only [String.append_assoc]
    rfl
  refine ⟨_, hdraw, read_join (.cons says_defaults (List.rel_append ?_ ?_))⟩
  · rw [List.mapIdx_eq_zipIdx_map, List.forall₂_map_left_iff, List.forall₂_map_right_iff, List.forall₂_same]
    intro p hp
    have hlt : p.2 < g.labels.length := by simpa using List.snd_lt_of_mem_zipIdx hp
    exact says_node h hlt p.1
  · rw [List.forall₂_map_left_iff, List.forall₂_map_right_iff, List.forall₂_same]
    intro a _
    exact says_arcLine a

/-- Two nodes, and a variable with a quotation mark and a backslash in its name. -/
def Graph.scribbled : Graph := ⟨["x\"\\"], [0, 7], [⟨0, 1, .assume (.equal "x\"\\" .unknown)⟩], 0⟩

/-- A state that ends with a backslash does not take the closing quotation mark with it, and neither a line break nor a
backslash before an `n` is taken for the end of the label's line. -/
theorem Graph.read_draw_scribbled : ∃ text, scribbled.draw (some ["\\", "\"\n\\n"]) {} = .ok text ∧
    read text = some [.defaults [("shape", ["box"])],
      .node 0 [("shape", ["doublecircle"]), ("label", ["L0", "\\"])],
      .node 1 [("label", ["L7", "\"\n\\n"])],
      .arc 0 1 [("style", ["dashed"]), ("label", ["assume(x\"\\ = ?)"])]] :=
  scribbled.read_draw (by rintro texts ⟨⟩; rfl)

end FlowFacts
