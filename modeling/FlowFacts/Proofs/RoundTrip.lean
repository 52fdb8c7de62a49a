import Mathlib
import FlowFacts.Program.Printer
import FlowFacts.Proofs.Lexing

/-!
# Printing and parsing

A program is `WellFormed` if the text that it prints to can stand for it: names are names, labels have 64
bits, offsets carry no sign, and no list of the grammar is empty. What proper tokens spell is well formed
(`Program.wellFormed_of_spelled`), and a well-formed program prints to a text whose tokens spell it
(`Program.exists_reads`). Hence `Program.parse_render_inverse`: parsing gives well-formed programs only, and
gives each of them back from its text.
-/

namespace FlowFacts

/-! ## Well-formed programs -/

def Value.WellFormed : Value → Prop
  | const _ | unknown => True
  | var u => IsName u
  | plus u c | minus u c => IsName u ∧ 0 ≤ c

def Condition.WellFormed : Condition → Prop
  | always | never => True
  | equal x value | unequal x value => IsName x ∧ value.WellFormed

def Atom.WellFormed : Atom → Prop
  | even x | odd x => IsName x
  | sum left right => (left ≠ [] ∧ ∀ x ∈ left, IsName x) ∧ (right ≠ [] ∧ ∀ x ∈ right, IsName x)

def Clause.WellFormed (c : Clause) : Prop := c ≠ [] ∧ ∀ a ∈ c, a.WellFormed

def Assertion.WellFormed (a : Assertion) : Prop := a.clauses ≠ [] ∧ ∀ c ∈ a.clauses, Clause.WellFormed c

def Statement.WellFormed : Statement → Prop
  | skip => True
  | assign x value => IsName x ∧ value.WellFormed
  | assume c => c.WellFormed
  | assert a => a.WellFormed

def Edge.WellFormed (e : Edge) : Prop :=
  e.source < UInt64.size ∧ e.statement.WellFormed ∧ e.target < UInt64.size

def Program.WellFormed (p : Program) : Prop :=
  (∀ x ∈ p.declared.toList, IsName x) ∧ ∀ e ∈ p.edges, e.WellFormed

instance : DecidablePred Value.WellFormed
  | .const _ | .unknown => .isTrue trivial
  | .var u => inferInstanceAs (Decidable (IsName u))
  | .plus u c | .minus u c => inferInstanceAs (Decidable (IsName u ∧ 0 ≤ c))

instance : DecidablePred Condition.WellFormed
  | .always | .never => .isTrue trivial
  | .equal x value | .unequal x value => inferInstanceAs (Decidable (IsName x ∧ value.WellFormed))

instance : DecidablePred Atom.WellFormed
  | .even x | .odd x => inferInstanceAs (Decidable (IsName x))
  | .sum left right =>
    inferInstanceAs (Decidable ((left ≠ [] ∧ ∀ x ∈ left, IsName x) ∧ (right ≠ [] ∧ ∀ x ∈ right, IsName x)))

instance : DecidablePred Clause.WellFormed :=
  fun c => inferInstanceAs (Decidable (c ≠ [] ∧ ∀ a ∈ c, a.WellFormed))

instance : DecidablePred Assertion.WellFormed :=
  fun a => inferInstanceAs (Decidable (a.clauses ≠ [] ∧ ∀ c ∈ a.clauses, Clause.WellFormed c))

instance : DecidablePred Statement.WellFormed
  | .skip => .isTrue trivial
  | .assign x value => inferInstanceAs (Decidable (IsName x ∧ value.WellFormed))
  | .assume c => inferInstanceAs (Decidable c.WellFormed)
  | .assert a => inferInstanceAs (Decidable a.WellFormed)

instance : DecidablePred Edge.WellFormed :=
  fun e => inferInstanceAs (Decidable (e.source < UInt64.size ∧ e.statement.WellFormed ∧ e.target < UInt64.size))

instance : DecidablePred Program.WellFormed :=
  fun p => inferInstanceAs (Decidable ((∀ x ∈ p.declared.toList, IsName x) ∧ ∀ e ∈ p.edges, e.WellFormed))

/-! ## What proper tokens spell -/

theorem Value.wellFormed_of_spelled {value : Value} {ts : List Token} (h : value.Spelled ts)
    (hts : ∀ t ∈ ts, t.Proper) : value.WellFormed := by
  cases h with
  | unknown | const n | negative n => trivial
  | var u => exact hts (.ident u) List.mem_cons_self
  | plus u n | minus u n => exact ⟨hts (.ident u) List.mem_cons_self, Int.natCast_nonneg n⟩

theorem Condition.wellFormed_of_spelled {c : Condition} {ts : List Token} (h : c.Spelled ts)
    (hts : ∀ t ∈ ts, t.Proper) : c.WellFormed := by
  cases h with
  | always | never => trivial
  | equal x hvalue | unequal x hvalue =>
    rw [List.forall_mem_cons, List.forall_mem_cons] at hts
    exact ⟨hts.1, Value.wellFormed_of_spelled hvalue hts.2.2⟩

theorem isName_of_proper {names : List String} (h : ∀ t ∈ names.map Token.ident, t.Proper) :
    ∀ x ∈ names, IsName x :=
  fun x hx => h (.ident x) (List.mem_map_of_mem hx)

theorem Atom.wellFormed_of_spelled {a : Atom} {ts : List Token} (h : a.Spelled ts)
    (hts : ∀ t ∈ ts, t.Proper) : a.WellFormed := by
  cases h with
  | even x | odd x => exact hts (.ident x) (List.mem_cons_of_mem _ List.mem_cons_self)
  | sum hl hr =>
    rw [List.forall_mem_cons, List.forall_mem_append, List.forall_mem_cons, List.forall_mem_cons] at hts
    exact ⟨⟨hl, isName_of_proper hts.2.1⟩, ⟨hr, isName_of_proper hts.2.2.2.2⟩⟩

/-- What holds of each phrase that proper tokens spell holds of all of a sequence. -/
theorem Sequence.forall_mem {α : Type} {S : α → List Token → Prop} {P : α → Prop} {as : List α} {ts : List Token}
    (h : Sequence S as ts) (hts : ∀ t ∈ ts, t.Proper) (hP : ∀ {a us}, S a us → (∀ t ∈ us, t.Proper) → P a) :
    ∀ a ∈ as, P a := by
  induction h with
  | nil => exact fun a ha => absurd ha List.not_mem_nil
  | cons ha _ ih =>
    rw [List.forall_mem_append] at hts
    exact List.forall_mem_cons.2 ⟨hP ha hts.1, ih hts.2⟩

theorem Clause.wellFormed_of_spelled {c : Clause} {ts : List Token} (h : Clause.Spelled c ts)
    (hts : ∀ t ∈ ts, t.Proper) : Clause.WellFormed c := by
  obtain ⟨hne, us, hus, rfl⟩ := h
  rw [List.forall_mem_cons, List.forall_mem_append] at hts
  exact ⟨hne, hus.forall_mem hts.2.1 Atom.wellFormed_of_spelled⟩

theorem Statement.wellFormed_of_spelled {s : Statement} {ts : List Token} (h : s.Spelled ts)
    (hts : ∀ t ∈ ts, t.Proper) : s.WellFormed := by
  cases h with
  | skip => trivial
  | assign x hvalue =>
    rw [List.forall_mem_cons, List.forall_mem_cons] at hts
    exact ⟨hts.1, Value.wellFormed_of_spelled hvalue hts.2.2⟩
  | assume hc =>
    rw [List.forall_mem_cons] at hts
    exact Condition.wellFormed_of_spelled hc hts.2
  | assumeParen hc =>
    rw [List.forall_mem_cons, List.forall_mem_cons, List.forall_mem_append] at hts
    exact Condition.wellFormed_of_spelled hc hts.2.2.1
  | assert hne hclauses =>
    rw [List.forall_mem_cons] at hts
    exact ⟨hne, hclauses.forall_mem hts.2 Clause.wellFormed_of_spelled⟩

theorem Edge.wellFormed_of_spelled {e : Edge} {ts : List Token} (h : e.Spelled ts)
    (hts : ∀ t ∈ ts, t.Proper) : e.WellFormed := by
  obtain ⟨us, hus, rfl⟩ := h
  rw [List.forall_mem_cons, List.forall_mem_append] at hts
  exact ⟨hts.1, Statement.wellFormed_of_spelled hus hts.2.1, hts.2.2 _ List.mem_cons_self⟩

theorem Program.wellFormed_of_spelled {p : Program} {ts : List Token} (h : p.Spelled ts)
    (hts : ∀ t ∈ ts, t.Proper) : p.WellFormed := by
  obtain ⟨names, us, -, hdeclared, hus, rfl⟩ := h
  rw [List.forall_mem_append] at hts
  refine ⟨fun x hx => isName_of_proper hts.1 x ?_, hus.forall_mem hts.2 Edge.wellFormed_of_spelled⟩
  rw [hdeclared] at hx
  exact SortedSet.mem_ofList.1 hx

/-! ## What is printed -/

theorem Value.exists_lexes {value : Value} (h : value.WellFormed) :
    ∃ ts, value.Spelled ts ∧ Lexes value.render.toList ts := by
  have hnumber : ∀ n : Nat, Lexes (toString n).toList [.number n] := fun n => .text (t := .number n) trivial
  cases value with
  | unknown => exact ⟨_, .unknown, .sign rfl .nil⟩
  | var u => exact ⟨_, .var u, .text (t := .ident u) h⟩
  | const c =>
    cases c with
    | ofNat n => exact ⟨_, .const n, hnumber n⟩
    | negSucc n =>
      have htext : (Value.const (Int.negSucc n)).render.toList = '-' :: (toString (n + 1)).toList :=
        String.toList_append
      exact ⟨_, .negative (n + 1), htext ▸ .sign rfl (hnumber (n + 1))⟩
  | plus u c =>
    obtain ⟨n, rfl⟩ := Int.eq_ofNat_of_zero_le h.2
    exact ⟨_, .plus u n, .between (t := .plus) trivial rfl (.text (t := .ident u) h.1) (hnumber n)⟩
  | minus u c =>
    obtain ⟨n, rfl⟩ := Int.eq_ofNat_of_zero_le h.2
    exact ⟨_, .minus u n, .between (t := .minus) trivial rfl (.text (t := .ident u) h.1) (hnumber n)⟩

theorem Condition.exists_lexes {c : Condition} (h : c.WellFormed) :
    ∃ ts, c.Spelled ts ∧ Lexes c.render.toList ts := by
  cases c with
  | always => exact ⟨_, .always, .text (t := .always) trivial⟩
  | never => exact ⟨_, .never, .text (t := .never) trivial⟩
  | equal x value =>
    obtain ⟨ts, hts, hlex⟩ := Value.exists_lexes h.2
    exact ⟨_, .equal x hts, .between (t := .equals) trivial rfl (.text (t := .ident x) h.1) hlex⟩
  | unequal x value =>
    obtain ⟨ts, hts, hlex⟩ := Value.exists_lexes h.2
    exact ⟨_, .unequal x hts, .between (t := .differs) trivial rfl (.text (t := .ident x) h.1) hlex⟩

theorem lexes_names {names : List String} (h : ∀ x ∈ names, IsName x) :
    Lexes (" ".intercalate names).toList (names.map .ident) := by
  have hname : ∀ x ∈ names, ∃ ts, ts = [Token.ident x] ∧ Lexes (id x).toList ts :=
    fun x hx => ⟨_, rfl, .text (t := .ident x) (h x hx)⟩
  obtain ⟨ts, hts, hlex⟩ := exists_lexes_intercalate hname
  have heq : ts = names.map .ident := by
    clear hlex hname h
    induction hts with
    | nil => rfl
    | cons ha _ ih => rw [ha, ih]; rfl
  rwa [heq, List.map_id] at hlex

theorem Atom.exists_lexes {a : Atom} (h : a.WellFormed) : ∃ ts, a.Spelled ts ∧ Lexes a.render.toList ts := by
  cases a with
  | even x => exact ⟨_, .even x, .before (t := .even) trivial rfl (.text (t := .ident x) h)⟩
  | odd x => exact ⟨_, .odd x, .before (t := .odd) trivial rfl (.text (t := .ident x) h)⟩
  | sum left right =>
    have hsum : ∀ {xs : List String}, (∀ x ∈ xs, IsName x) →
        Lexes ("SUM " ++ " ".intercalate xs).toList (.sum :: xs.map .ident) :=
      fun hxs => .before (t := .sum) trivial rfl (lexes_names hxs)
    refine ⟨_, .sum h.1.1 h.2.1, ?_⟩
    have htext : (Atom.sum left right).render =
        "SUM " ++ " ".intercalate left ++ " = " ++ ("SUM " ++ " ".intercalate right) := by
      rw [Atom.render, show " = SUM " = " = " ++ "SUM " from rfl]
      simp only [String.append_assoc]
    rw [htext]
    exact .between (t := .equals) trivial rfl (hsum h.1.2) (hsum h.2.2)

theorem Clause.exists_lexes {c : Clause} (h : Clause.WellFormed c) :
    ∃ ts, Clause.Spelled c ts ∧ Lexes (Clause.render c).toList ts := by
  obtain ⟨us, hus, hlex⟩ := exists_lexes_intercalate fun a ha => Atom.exists_lexes (h.2 a ha)
  refine ⟨_, ⟨h.1, us, hus, rfl⟩, ?_⟩
  have htext : (Clause.render c).toList = '(' :: ((" ".intercalate (c.map Atom.render)).toList ++ [')']) := by
    simp [Clause.render, String.toList_append]
  rw [htext]
  exact hlex.parens

theorem Statement.exists_lexes {s : Statement} (h : s.WellFormed) :
    ∃ ts, s.Spelled ts ∧ Lexes s.render.toList ts := by
  cases s with
  | skip => exact ⟨_, .skip, .text (t := .skip) trivial⟩
  | assign x value =>
    obtain ⟨ts, hts, hlex⟩ := Value.exists_lexes h.2
    exact ⟨_, .assign x hts, .between (t := .assign) trivial rfl (.text (t := .ident x) h.1) hlex⟩
  | assume c =>
    obtain ⟨ts, hts, hlex⟩ := Condition.exists_lexes h
    refine ⟨_, .assumeParen hts, ?_⟩
    have htext : (Statement.assume c).render.toList =
        Token.assume.text.toList ++ '(' :: (c.render.toList ++ [')']) := by
      simp [Statement.render, Token.text, String.toList_append]
    rw [htext]
    exact .append (.text (t := .assume) trivial) (.cons rfl _) hlex.parens
  | assert a =>
    obtain ⟨ts, hts, hlex⟩ := exists_lexes_intercalate fun c hc => Clause.exists_lexes (h.2 c hc)
    exact ⟨_, .assert h.1 hts, .before (t := .assert) trivial rfl hlex⟩

theorem Edge.exists_lexes {e : Edge} (h : e.WellFormed) : ∃ ts, e.Spelled ts ∧ Lexes e.render.toList ts := by
  obtain ⟨us, hus, hlex⟩ := Statement.exists_lexes h.2.1
  refine ⟨_, ⟨us, hus, rfl⟩, ?_⟩
  exact (.spaced (.spaced (.text (t := .label e.source) h.1) hlex) (.text (t := .label e.target) h.2.2))

/-- The lines of a program that follow its first. -/
theorem exists_reads_lines {es : List Edge} (h : ∀ e ∈ es, e.WellFormed) :
    ∃ ts, Sequence Edge.Spelled es ts ∧ Reads (String.join (es.map fun e => e.render ++ "\n")).toList ts := by
  rw [String.toList_join]
  induction es with
  | nil => exact ⟨[], .nil, .nil⟩
  | cons e es ih =>
    rw [List.forall_mem_cons] at h
    obtain ⟨ts, hts, hlex⟩ := Edge.exists_lexes h.1
    obtain ⟨us, hus, hreads⟩ := ih h.2
    refine ⟨ts ++ us, .cons hts hus, ?_⟩
    rw [List.map_cons, List.flatMap_cons, String.toList_append, List.append_assoc]
    exact hlex _ _ (.cons rfl _) hreads.newline

theorem Program.exists_reads {p : Program} (h : p.WellFormed) : ∃ ts, p.Spelled ts ∧ Reads p.render.toList ts := by
  obtain ⟨us, hus, hreads⟩ := exists_reads_lines h.2
  refine ⟨_, ⟨p.declared.toList, us, ?_, ?_, hus, rfl⟩, ?_⟩
  · exact p.declared.nodup_toList
  · exact SortedSet.ext_mem fun x => SortedSet.mem_ofList.symm
  · rw [Program.render, String.toList_append, String.toList_append, List.append_assoc]
    exact lexes_names h.1 _ _ (.cons rfl _) hreads.newline

theorem Program.ofTokens_eq_ok {tokens : List Placed} {p : Program} :
    Program.ofTokens tokens = .ok p ↔ Parser.program tokens = .ok p := by
  unfold Program.ofTokens
  cases Parser.program tokens <;> simp [Except.mapError]

/-- Parsing gives well-formed programs only, and gives each of them back from what it prints to. -/
theorem Program.parse_render_inverse :
    (∀ source p, Program.parse source = .ok p → p.WellFormed) ∧
      ∀ p : Program, p.WellFormed → Program.parse p.render = .ok p := by
  constructor
  · intro source p h
    obtain ⟨ps, hread, hparse⟩ := ok_of_bind h
    have hprogram := Parser.program_sound (Program.ofTokens_eq_ok.1 hparse)
    exact Program.wellFormed_of_spelled hprogram (Token.proper_of_readAll hread)
  · intro p h
    obtain ⟨ts, hspelled, hreads⟩ := Program.exists_reads h
    obtain ⟨ps, hread, rfl⟩ := hreads 1
    rw [Program.parse, hread]
    exact Program.ofTokens_eq_ok.2 (Parser.program_complete hspelled)

/-- A program with statements of every kind, and the largest label. -/
def Program.everyKind : Program where
  declared := .ofList ["y", "x_1"]
  edges :=
    [⟨0, .skip, 1⟩, ⟨1, .assign "x_1" (.const (-5)), 2⟩, ⟨2, .assign "y" (.plus "x_1" 3), 3⟩,
      ⟨3, .assume (.unequal "y" .unknown), 4⟩,
      ⟨4, .assert ⟨[[.even "y", .odd "x_1"], [.sum ["x_1"] ["y", "y"]]]⟩, UInt64.size - 1⟩]

theorem Program.parse_render_inverse_everyKind :
    Program.everyKind.WellFormed ∧ Program.parse Program.everyKind.render = .ok Program.everyKind := by
  have hparse := Program.parse_render_inverse.2 Program.everyKind (by decide)
  exact ⟨Program.parse_render_inverse.1 _ _ hparse, hparse⟩

end FlowFacts
