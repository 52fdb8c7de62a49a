import Mathlib
import FlowFacts.Program.Parser
import FlowFacts.Proofs.SortedSets

/-!
# The grammar of programs

`Program.Spelled` says which tokens spell a program, one relation for each kind of phrase. A reader is
`Sound` for such a relation if the tokens that it has taken spell what it gives back, and `Complete` if it
takes the tokens of a phrase wherever they stand before a token that could not belong to it.
`Parser.program_sound` and `Parser.program_complete`: programs are read from exactly the tokens that spell
them. Tokens therefore spell one program at most (`Parser.program_ok_iff`).
-/

namespace FlowFacts

/-! ## Phrases -/

/-- A value is `?`, a number with or without a sign, a variable, or a variable and an offset. -/
inductive Value.Spelled : Value → List Token → Prop where
  | unknown : Spelled .unknown [.question]
  | const (n : Nat) : Spelled (.const n) [.number n]
  | negative (n : Nat) : Spelled (.const (-n)) [.minus, .number n]
  | var (u : String) : Spelled (.var u) [.ident u]
  | plus (u : String) (n : Nat) : Spelled (.plus u n) [.ident u, .plus, .number n]
  | minus (u : String) (n : Nat) : Spelled (.minus u n) [.ident u, .minus, .number n]

inductive Condition.Spelled : Condition → List Token → Prop where
  | always : Spelled .always [.always]
  | never : Spelled .never [.never]
  | equal (x : String) {value : Value} {ts : List Token} (h : value.Spelled ts) :
    Spelled (.equal x value) (.ident x :: .equals :: ts)
  | unequal (x : String) {value : Value} {ts : List Token} (h : value.Spelled ts) :
    Spelled (.unequal x value) (.ident x :: .differs :: ts)

inductive Atom.Spelled : Atom → List Token → Prop where
  | even (x : String) : Spelled (.even x) [.even, .ident x]
  | odd (x : String) : Spelled (.odd x) [.odd, .ident x]
  | sum {left right : List String} (hl : left ≠ []) (hr : right ≠ []) :
    Spelled (.sum left right) (.sum :: (left.map .ident ++ .equals :: .sum :: right.map .ident))

/-- Phrases of one kind, one after the other. -/
inductive Sequence {α : Type} (S : α → List Token → Prop) : List α → List Token → Prop where
  | nil : Sequence S [] []
  | cons {a : α} {as : List α} {ts us : List Token} (h : S a ts) (hs : Sequence S as us) :
    Sequence S (a :: as) (ts ++ us)

/-- A clause is one or more atoms in parentheses. -/
def Clause.Spelled (clause : Clause) (ts : List Token) : Prop :=
  clause ≠ [] ∧ ∃ us, Sequence Atom.Spelled clause us ∧ ts = .leftParen :: (us ++ [.rightParen])

/-- A condition that is assumed may stand in parentheses. -/
inductive Statement.Spelled : Statement → List Token → Prop where
  | skip : Spelled .skip [.skip]
  | assign (x : String) {value : Value} {ts : List Token} (h : value.Spelled ts) :
    Spelled (.assign x value) (.ident x :: .assign :: ts)
  | assume {c : Condition} {ts : List Token} (h : c.Spelled ts) : Spelled (.assume c) (.assume :: ts)
  | assumeParen {c : Condition} {ts : List Token} (h : c.Spelled ts) :
    Spelled (.assume c) (.assume :: .leftParen :: (ts ++ [.rightParen]))
  | assert {clauses : List Clause} {ts : List Token} (hne : clauses ≠ []) (h : Sequence Clause.Spelled clauses ts) :
    Spelled (.assert ⟨clauses⟩) (.assert :: ts)

/-- An edge is a statement between two labels. -/
def Edge.Spelled (e : Edge) (ts : List Token) : Prop :=
  ∃ us, e.statement.Spelled us ∧ ts = .label e.source :: (us ++ [.label e.target])

/-- A program is its variables, each of them once, and then its edges. -/
def Program.Spelled (p : Program) (ts : List Token) : Prop :=
  ∃ names us, names.Nodup ∧ p.declared = .ofList names ∧ Sequence Edge.Spelled p.edges us ∧
    ts = names.map .ident ++ us

namespace Parser

/-! ## Readers -/

/-- The tokens without their lines. -/
def bare (ts : List Placed) : List Token := ts.map Placed.token

@[simp] theorem bare_nil : bare [] = [] := rfl

@[simp] theorem bare_cons (q : Placed) (ts : List Placed) : bare (q :: ts) = q.token :: bare ts := rfl

@[simp] theorem bare_append (ts us : List Placed) : bare (ts ++ us) = bare ts ++ bare us := List.map_append

/-- What a reader takes spells what it gives back. -/
def Sound {α : Type} (p : Parser α) (S : α → List Token → Prop) : Prop :=
  ∀ ⦃ts a rest⦄, p ts = .ok (a, rest) → ∃ front, ts = front ++ rest ∧ S a (bare front)

/-- A reader takes what spells a phrase, if the next token could not belong to the phrase as well. -/
def Complete {α : Type} (p : Parser α) (S : α → List Token → Prop) (Next : Token → Prop) : Prop :=
  ∀ ⦃front a rest⦄, S a (bare front) → (∀ q ∈ rest.head?, Next q.token) → p (front ++ rest) = .ok (a, rest)

theorem bare_eq_nil {ts : List Placed} : bare ts = [] ↔ ts = [] := List.map_eq_nil_iff

theorem bare_eq_cons {ts : List Placed} {t : Token} {us : List Token} :
    bare ts = t :: us ↔ ∃ line rest, ts = ⟨t, line⟩ :: rest ∧ bare rest = us := by
  constructor
  · intro h
    obtain ⟨q, rest, rfl, rfl, hrest⟩ := List.map_eq_cons_iff.1 h
    exact ⟨q.line, rest, rfl, hrest⟩
  · rintro ⟨line, rest, rfl, rfl⟩
    rfl

theorem bare_eq_append {ts : List Placed} {us ws : List Token} (h : bare ts = us ++ ws) :
    ∃ front rest, ts = front ++ rest ∧ bare front = us ∧ bare rest = ws := List.map_eq_append_iff.1 h

theorem ident_ok {ts rest : List Placed} {x : String} :
    ident ts = .ok (x, rest) ↔ ∃ line, ts = ⟨.ident x, line⟩ :: rest := by
  constructor
  · intro h
    unfold ident at h
    split at h
    · cases h
      exact ⟨_, rfl⟩
    · cases h
  · rintro ⟨line, rfl⟩
    rfl

theorem label_ok {ts rest : List Placed} {n : Nat} :
    label ts = .ok (n, rest) ↔ ∃ line, ts = ⟨.label n, line⟩ :: rest := by
  constructor
  · intro h
    unfold label at h
    split at h
    · cases h
      exact ⟨_, rfl⟩
    · cases h
  · rintro ⟨line, rfl⟩
    rfl

theorem number_ok {ts rest : List Placed} {n : Nat} :
    number ts = .ok (n, rest) ↔ ∃ line, ts = ⟨.number n, line⟩ :: rest := by
  constructor
  · intro h
    unfold number at h
    split at h
    · cases h
      exact ⟨_, rfl⟩
    · cases h
  · rintro ⟨line, rfl⟩
    rfl

theorem expect_ok {t : Token} {ts rest : List Placed} :
    expect t ts = .ok rest ↔ ∃ line, ts = ⟨t, line⟩ :: rest := by
  constructor
  · intro h
    unfold expect at h
    split at h
    · next q _ =>
      split at h
      · next hq =>
        cases h
        exact ⟨q.line, by rw [← hq]⟩
      · cases h
    · cases h
  · rintro ⟨line, rfl⟩
    exact if_pos rfl

/-! ## Values and conditions -/

/-- A value that is a variable could go on with an offset. -/
def NotOffset (t : Token) : Prop := t ≠ .plus ∧ t ≠ .minus

theorem value_sound : Sound value Value.Spelled := by
  intro ts v rest h
  unfold value at h
  split at h
  case h_1 =>
    cases h
    exact ⟨[_], rfl, .unknown⟩
  case h_2 =>
    cases h
    exact ⟨[_], rfl, .const _⟩
  case h_6 =>
    cases h
    exact ⟨[_], rfl, .var _⟩
  case h_7 => cases h
  all_goals
    obtain ⟨⟨n, r⟩, hn, h⟩ := ok_of_bind h
    cases h
    obtain ⟨line, rfl⟩ := number_ok.1 hn
  case h_3 => exact ⟨[_, _], rfl, .negative n⟩
  case h_4 => exact ⟨[_, _, _], rfl, .plus _ n⟩
  case h_5 => exact ⟨[_, _, _], rfl, .minus _ n⟩

theorem value_complete : Complete value Value.Spelled NotOffset := by
  intro front v rest h hnext
  generalize hb : bare front = ts at h
  cases h <;> simp only [bare_eq_cons, bare_eq_nil] at hb
  case unknown | const =>
    obtain ⟨_, _, rfl, rfl⟩ := hb
    rfl
  case negative n =>
    obtain ⟨_, _, rfl, _, _, rfl, rfl⟩ := hb
    rfl
  case var u =>
    obtain ⟨line, _, rfl, rfl⟩ := hb
    show value (⟨.ident u, line⟩ :: rest) = .ok (.var u, rest)
    unfold value
    split <;> simp_all [NotOffset]
  case plus u n | minus u n =>
    obtain ⟨_, _, rfl, _, _, rfl, _, _, rfl, rfl⟩ := hb
    rfl

theorem condition_sound : Sound condition Condition.Spelled := by
  intro ts c rest h
  unfold condition at h
  split at h
  case h_1 =>
    cases h
    exact ⟨[_], rfl, .always⟩
  case h_2 =>
    cases h
    exact ⟨[_], rfl, .never⟩
  case h_4 => cases h
  case h_3 x line r =>
    unfold comparison at h
    split at h
    case h_3 => cases h
    all_goals
      obtain ⟨⟨v, r⟩, hv, h⟩ := ok_of_bind h
      cases h
      obtain ⟨front, rfl, hspelled⟩ := value_sound hv
    · exact ⟨_ :: _ :: front, rfl, .equal x hspelled⟩
    · exact ⟨_ :: _ :: front, rfl, .unequal x hspelled⟩

theorem condition_complete : Complete condition Condition.Spelled NotOffset := by
  intro front c rest h hnext
  generalize hb : bare front = ts at h
  cases h <;> simp only [bare_eq_cons, bare_eq_nil] at hb
  case always | never =>
    obtain ⟨_, _, rfl, rfl⟩ := hb
    rfl
  case equal x v ts hv | unequal x v ts hv =>
    obtain ⟨_, _, rfl, _, front, rfl, rfl⟩ := hb
    simp only [List.cons_append, condition, comparison, value_complete hv hnext, bind, Except.bind, pure, Except.pure]

/-! ## Atoms and clauses -/

/-- A list of names could go on with another name. -/
def NotName (t : Token) : Prop := ∀ x, t ≠ .ident x

theorem names_sound (ts : List Placed) :
    ∃ front, ts = front ++ (names ts).2 ∧ bare front = (names ts).1.map .ident := by
  induction ts with
  | nil => exact ⟨[], rfl, rfl⟩
  | cons q rest ih =>
    unfold names
    split
    · next x line r heq =>
      cases heq
      obtain ⟨front, hrest, hfront⟩ := ih
      refine ⟨⟨.ident x, line⟩ :: front, ?_, ?_⟩
      · rw [List.cons_append, ← hrest]
      · exact congrArg (Token.ident x :: ·) hfront
    · exact ⟨[], rfl, rfl⟩

theorem names_complete {front rest : List Placed} {xs : List String} (h : bare front = xs.map .ident)
    (hnext : ∀ q ∈ rest.head?, NotName q.token) : names (front ++ rest) = (xs, rest) := by
  induction xs generalizing front with
  | nil =>
    obtain rfl := bare_eq_nil.1 h
    rw [List.nil_append]
    unfold names
    split
    · next x _ _ => exact absurd rfl (hnext _ rfl x)
    · rfl
  | cons x xs ih =>
    obtain ⟨line, tail, rfl, htail⟩ := bare_eq_cons.1 h
    rw [List.cons_append, names, ih htail]

theorem nameList_sound : Sound nameList fun xs ts => xs ≠ [] ∧ ts = xs.map .ident := by
  intro ts xs rest h
  unfold nameList at h
  split at h
  · next x line r =>
    cases h
    obtain ⟨front, hr, hfront⟩ := names_sound r
    refine ⟨⟨.ident x, line⟩ :: front, ?_, List.cons_ne_nil _ _, ?_⟩
    · rw [List.cons_append, ← hr]
    · exact congrArg (Token.ident x :: ·) hfront
  · cases h

theorem nameList_complete : Complete nameList (fun xs ts => xs ≠ [] ∧ ts = xs.map .ident) NotName := by
  rintro front xs rest ⟨hne, hfront⟩ hnext
  cases xs with
  | nil => exact absurd rfl hne
  | cons x xs =>
    obtain ⟨line, tail, rfl, htail⟩ := bare_eq_cons.1 hfront
    rw [List.cons_append, nameList, names_complete htail hnext]

theorem atom_sound : Sound atom Atom.Spelled := by
  intro ts a rest h
  unfold atom at h
  split at h
  case h_4 => cases h
  case h_1 =>
    obtain ⟨⟨x, r⟩, hx, h⟩ := ok_of_bind h
    cases h
    obtain ⟨line, rfl⟩ := ident_ok.1 hx
    exact ⟨[_, _], rfl, .even x⟩
  case h_2 =>
    obtain ⟨⟨x, r⟩, hx, h⟩ := ok_of_bind h
    cases h
    obtain ⟨line, rfl⟩ := ident_ok.1 hx
    exact ⟨[_, _], rfl, .odd x⟩
  case h_3 line r =>
    obtain ⟨⟨left, r₁⟩, h₁, h⟩ := ok_of_bind h
    obtain ⟨r₂, h₂, h⟩ := ok_of_bind h
    obtain ⟨r₃, h₃, h⟩ := ok_of_bind h
    obtain ⟨⟨right, r₄⟩, h₄, h⟩ := ok_of_bind h
    cases h
    obtain ⟨front, rfl, hl, hfront⟩ := nameList_sound h₁
    obtain ⟨line', rfl⟩ := expect_ok.1 h₂
    obtain ⟨line'', rfl⟩ := expect_ok.1 h₃
    obtain ⟨back, rfl, hr, hback⟩ := nameList_sound h₄
    refine ⟨⟨.sum, line⟩ :: (front ++ ⟨.equals, line'⟩ :: ⟨.sum, line''⟩ :: back), by simp, ?_⟩
    rw [bare_cons, bare_append, hfront, bare_cons, bare_cons, hback]
    exact .sum hl hr

theorem atom_complete : Complete atom Atom.Spelled NotName := by
  intro front a rest h hnext
  generalize hb : bare front = ts at h
  cases h with
  | even x | odd x =>
    simp only [bare_eq_cons, bare_eq_nil] at hb
    obtain ⟨_, _, rfl, _, _, rfl, rfl⟩ := hb
    rfl
  | @sum left right hl hr =>
    obtain ⟨line, tail, rfl, htail⟩ := bare_eq_cons.1 hb
    obtain ⟨front, others, rfl, hfront, hothers⟩ := bare_eq_append htail
    simp only [bare_eq_cons] at hothers
    obtain ⟨line', _, rfl, line'', back, rfl, hback⟩ := hothers
    -- The names on the left end at the equals sign, those on the right where the atom does.
    have hleft : nameList (front ++ (⟨.equals, line'⟩ :: ⟨.sum, line''⟩ :: (back ++ rest))) =
        .ok (left, ⟨.equals, line'⟩ :: ⟨.sum, line''⟩ :: (back ++ rest)) :=
      nameList_complete ⟨hl, hfront⟩ (by simp [NotName])
    have hright : nameList (back ++ rest) = .ok (right, rest) := nameList_complete ⟨hr, hback⟩ hnext
    have hequals : ∀ r, expect .equals (⟨.equals, line'⟩ :: r) = .ok r := fun r => expect_ok.2 ⟨_, rfl⟩
    have hsum : ∀ r, expect .sum (⟨.sum, line''⟩ :: r) = .ok r := fun r => expect_ok.2 ⟨_, rfl⟩
    simp only [List.cons_append, List.append_assoc, atom, hleft, hequals, hsum, hright, bind, Except.bind, pure,
      Except.pure]

/-- An atom starts with a keyword. -/
theorem head_of_atom {a : Atom} {ts : List Token} (h : a.Spelled ts) : ∃ t us, ts = t :: us ∧ NotName t := by
  cases h <;> exact ⟨_, _, rfl, nofun⟩

theorem atoms_ok_nil {ts rest : List Placed} :
    atoms ts = .ok ([], rest) ↔ ∃ line, ts = ⟨.rightParen, line⟩ :: rest := by
  constructor
  · intro h
    unfold atoms at h
    split at h
    · cases h
      exact ⟨_, rfl⟩
    · split at h
      · cases h
      · split at h <;> cases h
  · rintro ⟨line, rfl⟩
    rw [atoms]

theorem atoms_ok_cons {ts rest : List Placed} {a : Atom} {as : List Atom} :
    atoms ts = .ok (a :: as, rest) ↔ ∃ r, atom ts = .ok (a, r) ∧ atoms r = .ok (as, rest) := by
  constructor
  · intro h
    unfold atoms at h
    split at h
    · cases h
    · split at h
      · cases h
      · next ha =>
        split at h
        · cases h
        · next hs =>
          cases h
          exact ⟨_, ha, hs⟩
  · rintro ⟨r, ha, hs⟩
    unfold atoms
    split
    · cases ha
    · split
      · next e he => cases ha.symm.trans he
      · next ha' =>
        cases ha.symm.trans ha'
        rw [hs]

theorem atoms_sound : Sound atoms fun as ts => ∃ us, Sequence Atom.Spelled as us ∧ ts = us ++ [.rightParen] := by
  intro ts as rest h
  induction as generalizing ts with
  | nil =>
    obtain ⟨line, rfl⟩ := atoms_ok_nil.1 h
    exact ⟨[_], rfl, [], .nil, rfl⟩
  | cons a as ih =>
    obtain ⟨r, ha, hs⟩ := atoms_ok_cons.1 h
    obtain ⟨front, rfl, hspelled⟩ := atom_sound ha
    obtain ⟨back, rfl, us, hseq, hback⟩ := ih hs
    refine ⟨front ++ back, by simp, bare front ++ us, .cons hspelled hseq, ?_⟩
    rw [bare_append, hback, List.append_assoc]

theorem atoms_complete {as : List Atom} {us : List Token} (h : Sequence Atom.Spelled as us) {front rest : List Placed}
    (hfront : bare front = us ++ [.rightParen]) : atoms (front ++ rest) = .ok (as, rest) := by
  induction h generalizing front with
  | nil =>
    simp only [List.nil_append, bare_eq_cons, bare_eq_nil] at hfront
    obtain ⟨line, _, rfl, rfl⟩ := hfront
    exact atoms_ok_nil.2 ⟨line, rfl⟩
  | @cons a as ts us ha hs ih =>
    rw [List.append_assoc] at hfront
    obtain ⟨first, others, rfl, rfl, hothers⟩ := bare_eq_append hfront
    -- The next token closes the clause or starts another atom, so no list of names goes on.
    have hnext : ∀ q ∈ (others ++ rest).head?, NotName q.token := by
      cases hs with
      | nil =>
        simp only [List.nil_append, bare_eq_cons] at hothers
        obtain ⟨line, _, rfl, -⟩ := hothers
        simp [NotName]
      | cons hb _ =>
        obtain ⟨t, _, rfl, ht⟩ := head_of_atom hb
        simp only [List.cons_append, bare_eq_cons] at hothers
        obtain ⟨line, _, rfl, -⟩ := hothers
        simpa using ht
    rw [List.append_assoc]
    exact atoms_ok_cons.2 ⟨_, atom_complete ha hnext, ih hothers⟩

theorem clause_sound : Sound clause Clause.Spelled := by
  intro ts c rest h
  unfold clause at h
  split at h
  · next line r =>
    obtain ⟨⟨a, r₁⟩, h₁, h⟩ := ok_of_bind h
    obtain ⟨⟨as, r₂⟩, h₂, h⟩ := ok_of_bind h
    cases h
    obtain ⟨front, rfl, ha⟩ := atom_sound h₁
    obtain ⟨back, rfl, us, hseq, hback⟩ := atoms_sound h₂
    refine ⟨⟨.leftParen, line⟩ :: (front ++ back), by simp, List.cons_ne_nil _ _, _, .cons ha hseq, ?_⟩
    rw [bare_cons, bare_append, hback, List.append_assoc]
  · cases h

theorem clause_complete : Complete clause Clause.Spelled fun _ => True := by
  rintro front c rest ⟨hne, us, hseq, hb⟩ -
  obtain ⟨line, tail, rfl, htail⟩ := bare_eq_cons.1 hb
  have hatoms : atoms (tail ++ rest) = .ok (c, rest) := atoms_complete hseq htail
  cases c with
  | nil => exact absurd rfl hne
  | cons a as =>
    obtain ⟨r, ha, hs⟩ := atoms_ok_cons.1 hatoms
    simp only [List.cons_append, clause, ha, hs, bind, Except.bind, pure, Except.pure]

/-- Clauses could go on with another clause. -/
def NotParen (t : Token) : Prop := t ≠ .leftParen

theorem clauses_ok_nil {ts rest : List Placed} :
    clauses ts = .ok ([], rest) ↔ ts = rest ∧ ∀ q ∈ rest.head?, NotParen q.token := by
  constructor
  · intro h
    unfold clauses at h
    split at h
    · split at h
      · cases h
      · split at h <;> cases h
    · next hts =>
      cases h
      refine ⟨rfl, fun q hq hparen => ?_⟩
      obtain ⟨r, rfl⟩ := List.head?_eq_some_iff.1 hq
      exact hts q.line r (by rw [← hparen])
  · rintro ⟨rfl, hnext⟩
    unfold clauses
    split
    · exact absurd rfl (hnext _ rfl)
    · rfl

theorem clauses_ok_cons {ts rest : List Placed} {c : Clause} {cs : List Clause} :
    clauses ts = .ok (c :: cs, rest) ↔ ∃ r, clause ts = .ok (c, r) ∧ clauses r = .ok (cs, rest) := by
  constructor
  · intro h
    unfold clauses at h
    split at h
    · split at h
      · cases h
      · next hc =>
        split at h
        · cases h
        · next hs =>
          cases h
          exact ⟨_, hc, hs⟩
    · cases h
  · rintro ⟨r, hc, hs⟩
    unfold clauses
    split
    · split
      · next e he => cases hc.symm.trans he
      · next hc' =>
        cases hc.symm.trans hc'
        rw [hs]
    · next hts =>
      unfold clause at hc
      split at hc
      · exact absurd rfl (hts _ _)
      · cases hc

theorem clauses_sound : Sound clauses (Sequence Clause.Spelled) := by
  intro ts cs rest h
  induction cs generalizing ts with
  | nil =>
    obtain ⟨rfl, -⟩ := clauses_ok_nil.1 h
    exact ⟨[], rfl, .nil⟩
  | cons c cs ih =>
    obtain ⟨r, hc, hs⟩ := clauses_ok_cons.1 h
    obtain ⟨front, rfl, hspelled⟩ := clause_sound hc
    obtain ⟨back, rfl, hseq⟩ := ih hs
    refine ⟨front ++ back, by simp, ?_⟩
    rw [bare_append]
    exact .cons hspelled hseq

theorem clauses_complete : Complete clauses (Sequence Clause.Spelled) NotParen := by
  intro front cs rest h hnext
  generalize hb : bare front = ts at h
  induction h generalizing front with
  | nil =>
    obtain rfl := bare_eq_nil.1 hb
    exact clauses_ok_nil.2 ⟨rfl, hnext⟩
  | cons hc _ ih =>
    obtain ⟨first, others, rfl, rfl, hothers⟩ := bare_eq_append hb
    rw [List.append_assoc]
    exact clauses_ok_cons.2 ⟨_, clause_complete hc fun _ _ => trivial, ih hothers⟩

/-! ## Statements -/

theorem assumption_sound : Sound assumption fun c ts =>
    c.Spelled ts ∨ ∃ us, c.Spelled us ∧ ts = .leftParen :: (us ++ [.rightParen]) := by
  intro ts c rest h
  unfold assumption at h
  split at h
  · next line r =>
    obtain ⟨⟨c', r₁⟩, h₁, h⟩ := ok_of_bind h
    obtain ⟨r₂, h₂, h⟩ := ok_of_bind h
    cases h
    obtain ⟨front, rfl, hspelled⟩ := condition_sound h₁
    obtain ⟨line', rfl⟩ := expect_ok.1 h₂
    exact ⟨⟨.leftParen, line⟩ :: (front ++ [⟨.rightParen, line'⟩]), by simp, .inr ⟨_, hspelled, by simp⟩⟩
  · obtain ⟨front, rfl, hspelled⟩ := condition_sound h
    exact ⟨front, rfl, .inl hspelled⟩

theorem assumption_of_condition {ts rest : List Placed} {c : Condition} (h : condition ts = .ok (c, rest)) :
    assumption ts = .ok (c, rest) := by
  unfold assumption
  split
  · cases h
  · exact h

theorem assumption_of_paren {front rest : List Placed} {c : Condition} {line line' : Nat}
    (h : c.Spelled (bare front)) :
    assumption (⟨.leftParen, line⟩ :: (front ++ ⟨.rightParen, line'⟩ :: rest)) = .ok (c, rest) := by
  have hcondition : condition (front ++ ⟨.rightParen, line'⟩ :: rest) = .ok (c, ⟨.rightParen, line'⟩ :: rest) :=
    condition_complete h (by simp [NotOffset])
  have hclose : expect .rightParen (⟨.rightParen, line'⟩ :: rest) = .ok rest := expect_ok.2 ⟨_, rfl⟩
  simp only [assumption, hcondition, hclose, bind, Except.bind, pure, Except.pure]

theorem statement_sound : Sound statement Statement.Spelled := by
  intro ts s rest h
  unfold statement at h
  split at h
  case h_1 =>
    cases h
    exact ⟨[_], rfl, .skip⟩
  case h_2 x line r =>
    obtain ⟨r₁, h₁, h⟩ := ok_of_bind h
    obtain ⟨⟨v, r₂⟩, h₂, h⟩ := ok_of_bind h
    cases h
    obtain ⟨line', rfl⟩ := expect_ok.1 h₁
    obtain ⟨front, rfl, hspelled⟩ := value_sound h₂
    exact ⟨_ :: _ :: front, rfl, .assign x hspelled⟩
  case h_3 line r =>
    obtain ⟨⟨c, r₁⟩, h₁, h⟩ := ok_of_bind h
    cases h
    obtain ⟨front, rfl, hspelled | ⟨us, hspelled, hfront⟩⟩ := assumption_sound h₁
    · exact ⟨⟨.assume, line⟩ :: front, rfl, .assume hspelled⟩
    · refine ⟨⟨.assume, line⟩ :: front, rfl, ?_⟩
      rw [bare_cons, hfront]
      exact .assumeParen hspelled
  case h_4 line r =>
    obtain ⟨⟨c, r₁⟩, h₁, h⟩ := ok_of_bind h
    obtain ⟨⟨cs, r₂⟩, h₂, h⟩ := ok_of_bind h
    cases h
    obtain ⟨front, hfront, hspelled⟩ := clauses_sound (clauses_ok_cons.2 ⟨r₁, h₁, h₂⟩)
    exact ⟨⟨.assert, line⟩ :: front, by rw [hfront]; rfl, .assert (List.cons_ne_nil _ _) hspelled⟩
  case h_5 => cases h

/-- What can follow a statement that has come to its end. -/
def NotMore (t : Token) : Prop := NotOffset t ∧ NotParen t

theorem statement_complete : Complete statement Statement.Spelled NotMore := by
  intro front s rest h hnext
  generalize hb : bare front = ts at h
  cases h with
  | skip =>
    simp only [bare_eq_cons, bare_eq_nil] at hb
    obtain ⟨_, _, rfl, rfl⟩ := hb
    rfl
  | assign x hv =>
    simp only [bare_eq_cons] at hb
    obtain ⟨_, _, rfl, line, tail, rfl, rfl⟩ := hb
    have hassign : expect .assign (⟨.assign, line⟩ :: (tail ++ rest)) = .ok (tail ++ rest) := expect_ok.2 ⟨_, rfl⟩
    simp only [List.cons_append, statement, hassign, value_complete hv fun q hq => (hnext q hq).1, bind, Except.bind,
      pure, Except.pure]
  | assume hc =>
    obtain ⟨line, tail, rfl, rfl⟩ := bare_eq_cons.1 hb
    have hassumption := assumption_of_condition (condition_complete hc fun q hq => (hnext q hq).1)
    simp only [List.cons_append, statement, hassumption, bind, Except.bind, pure, Except.pure]
  | assumeParen hc =>
    simp only [bare_eq_cons] at hb
    obtain ⟨_, _, rfl, line, tail, rfl, htail⟩ := hb
    obtain ⟨front, close, rfl, rfl, hclose⟩ := bare_eq_append htail
    simp only [bare_eq_cons, bare_eq_nil] at hclose
    obtain ⟨line', _, rfl, rfl⟩ := hclose
    have hassumption : assumption (⟨.leftParen, line⟩ :: (front ++ ⟨.rightParen, line'⟩ :: rest)) = .ok (_, rest) :=
      assumption_of_paren hc
    simp only [List.cons_append, List.append_assoc, List.nil_append, statement, hassumption, bind, Except.bind, pure,
      Except.pure]
  | @assert cs ts hne hseq =>
    obtain ⟨line, tail, rfl, rfl⟩ := bare_eq_cons.1 hb
    have hclauses := clauses_complete hseq fun q hq => (hnext q hq).2
    cases cs with
    | nil => exact absurd rfl hne
    | cons c cs =>
      obtain ⟨r, hc, hs⟩ := clauses_ok_cons.1 hclauses
      simp only [List.cons_append, statement, hc, hs, bind, Except.bind, pure, Except.pure]

/-! ## Programs -/

theorem edge_sound : Sound edge Edge.Spelled := by
  intro ts e rest h
  obtain ⟨⟨source, r₁⟩, h₁, h⟩ := ok_of_bind h
  obtain ⟨⟨s, r₂⟩, h₂, h⟩ := ok_of_bind h
  obtain ⟨⟨target, r₃⟩, h₃, h⟩ := ok_of_bind h
  cases h
  obtain ⟨line, rfl⟩ := label_ok.1 h₁
  obtain ⟨front, rfl, hspelled⟩ := statement_sound h₂
  obtain ⟨line', rfl⟩ := label_ok.1 h₃
  exact ⟨⟨.label source, line⟩ :: (front ++ [⟨.label target, line'⟩]), by simp, _, hspelled, by simp⟩

theorem edge_complete : Complete edge Edge.Spelled fun _ => True := by
  rintro front ⟨source, s, target⟩ rest ⟨us, hs, hb⟩ -
  obtain ⟨line, tail, rfl, htail⟩ := bare_eq_cons.1 hb
  obtain ⟨front, last, rfl, rfl, hlast⟩ := bare_eq_append htail
  simp only [bare_eq_cons, bare_eq_nil] at hlast
  obtain ⟨line', _, rfl, rfl⟩ := hlast
  have hstatement : statement (front ++ ⟨.label target, line'⟩ :: rest) = .ok (s, ⟨.label target, line'⟩ :: rest) :=
    statement_complete hs (by simp [NotMore, NotOffset, NotParen])
  simp only [List.cons_append, List.append_assoc, List.nil_append, edge, label, hstatement, bind, Except.bind, pure,
    Except.pure]

theorem edges_ok_nil {ts : List Placed} : edges ts = .ok [] ↔ ts = [] := by
  constructor
  · intro h
    unfold edges at h
    split at h
    · next hempty => exact List.isEmpty_iff.1 hempty
    · split at h
      · cases h
      · split at h <;> cases h
  · rintro rfl
    rw [edges]
    rfl

theorem edges_ok_cons {ts : List Placed} {e : Edge} {es : List Edge} :
    edges ts = .ok (e :: es) ↔ ∃ r, edge ts = .ok (e, r) ∧ edges r = .ok es := by
  constructor
  · intro h
    unfold edges at h
    split at h
    · cases h
    · split at h
      · cases h
      · next he =>
        split at h
        · cases h
        · next hs =>
          cases h
          exact ⟨_, he, hs⟩
  · rintro ⟨r, he, hs⟩
    unfold edges
    split
    · next hempty =>
      rw [List.isEmpty_iff.1 hempty] at he
      cases he
    · split
      · next e' he' => cases he.symm.trans he'
      · next he' =>
        cases he.symm.trans he'
        rw [hs]

theorem edges_sound {ts : List Placed} {es : List Edge} (h : edges ts = .ok es) :
    Sequence Edge.Spelled es (bare ts) := by
  induction es generalizing ts with
  | nil =>
    obtain rfl := edges_ok_nil.1 h
    exact .nil
  | cons e es ih =>
    obtain ⟨r, he, hs⟩ := edges_ok_cons.1 h
    obtain ⟨front, rfl, hspelled⟩ := edge_sound he
    rw [bare_append]
    exact .cons hspelled (ih hs)

theorem edges_complete {ts : List Placed} {es : List Edge} (h : Sequence Edge.Spelled es (bare ts)) :
    edges ts = .ok es := by
  generalize hb : bare ts = us at h
  induction h generalizing ts with
  | nil => exact edges_ok_nil.2 (bare_eq_nil.1 hb)
  | cons he _ ih =>
    obtain ⟨front, rest, rfl, rfl, hrest⟩ := bare_eq_append hb
    exact edges_ok_cons.2 ⟨_, edge_complete he fun _ _ => trivial, ih hrest⟩

/-- The names that are declared next: they are all different, none has been seen, and they are what the
set gains. -/
structure Declares (seen d : SortedSet String) (names : List String) : Prop where
  nodup : names.Nodup
  fresh : ∀ x ∈ names, x ∉ seen.toList
  members : ∀ x, x ∈ d.toList ↔ x ∈ seen.toList ∨ x ∈ names

theorem mem_insert {s : SortedSet String} {x y : String} : y ∈ (s.insert x).toList ↔ y = x ∨ y ∈ s.toList :=
  mem_insertSorted

theorem declares_cons {seen d : SortedSet String} {x : String} {names : List String} :
    Declares seen d (x :: names) ↔ x ∉ seen.toList ∧ Declares (seen.insert x) d names := by
  constructor
  · rintro ⟨hnodup, hfresh, hmembers⟩
    obtain ⟨hx, hnames⟩ := List.nodup_cons.1 hnodup
    refine ⟨hfresh x List.mem_cons_self, hnames, fun y hy hmem => ?_, fun y => ?_⟩
    · rcases mem_insert.1 hmem with rfl | hmem
      · exact hx hy
      · exact hfresh y (List.mem_cons_of_mem _ hy) hmem
    · rw [hmembers, mem_insert, List.mem_cons]
      tauto
  · rintro ⟨hx, hnodup, hfresh, hmembers⟩
    have hnew : x ∉ names := fun hmem => hfresh x hmem (mem_insert.2 (.inl rfl))
    refine ⟨List.nodup_cons.2 ⟨hnew, hnodup⟩, fun y hy => ?_, fun y => ?_⟩
    · rcases List.mem_cons.1 hy with rfl | hy
      · exact hx
      · exact fun hmem => hfresh y hy (mem_insert.2 (.inr hmem))
    · rw [hmembers, mem_insert, List.mem_cons]
      tauto

theorem declarations_sound {seen d : SortedSet String} {ts rest : List Placed}
    (h : declarations seen ts = .ok (d, rest)) :
    ∃ names front, ts = front ++ rest ∧ bare front = names.map .ident ∧ Declares seen d names := by
  induction ts generalizing seen with
  | nil =>
    cases h
    exact ⟨[], [], rfl, rfl, List.nodup_nil, nofun, by simp⟩
  | cons q ts ih =>
    unfold declarations at h
    split at h
    · next x line r heq =>
      cases heq
      split at h
      · cases h
      · next hx =>
        obtain ⟨names, front, rfl, hfront, hdeclares⟩ := ih h
        refine ⟨x :: names, ⟨.ident x, line⟩ :: front, rfl, ?_, declares_cons.2 ⟨hx, hdeclares⟩⟩
        rw [bare_cons, hfront, List.map_cons]
    · cases h
      exact ⟨[], [], rfl, rfl, List.nodup_nil, nofun, by simp⟩

theorem declarations_complete {seen d : SortedSet String} {names : List String} (h : Declares seen d names)
    {front rest : List Placed} (hfront : bare front = names.map .ident) (hnext : ∀ q ∈ rest.head?, NotName q.token) :
    declarations seen (front ++ rest) = .ok (d, rest) := by
  induction names generalizing seen front with
  | nil =>
    obtain rfl := bare_eq_nil.1 hfront
    obtain rfl : d = seen := SortedSet.ext_mem fun x => by rw [h.members]; simp
    rw [List.nil_append]
    unfold declarations
    split
    · next x _ _ => exact absurd rfl (hnext _ rfl x)
    · rfl
  | cons x names ih =>
    obtain ⟨line, tail, rfl, htail⟩ := bare_eq_cons.1 hfront
    obtain ⟨hx, hdeclares⟩ := declares_cons.1 h
    rw [List.cons_append, declarations, if_neg (show x ∉ seen from hx)]
    exact ih hdeclares htail

theorem declares_empty {d : SortedSet String} {names : List String} :
    Declares .empty d names ↔ names.Nodup ∧ d = .ofList names := by
  constructor
  · intro h
    exact ⟨h.nodup, SortedSet.ext_mem fun x => by rw [h.members, SortedSet.mem_ofList]; simp [SortedSet.empty]⟩
  · rintro ⟨hnodup, rfl⟩
    exact ⟨hnodup, fun x _ => by simp [SortedSet.empty], fun x => by rw [SortedSet.mem_ofList]; simp [SortedSet.empty]⟩

/-- A program is read only from tokens that spell it. -/
theorem program_sound {ts : List Placed} {p : Program} (h : program ts = .ok p) : p.Spelled (bare ts) := by
  obtain ⟨⟨declared, rest⟩, hdeclared, h⟩ := ok_of_bind h
  obtain ⟨es, hes, h⟩ := ok_of_bind h
  cases h
  obtain ⟨names, front, rfl, hfront, hdeclares⟩ := declarations_sound hdeclared
  obtain ⟨hnodup, rfl⟩ := declares_empty.1 hdeclares
  refine ⟨names, bare rest, hnodup, rfl, edges_sound hes, ?_⟩
  rw [bare_append, hfront]

/-- A program is read from whatever spells it. -/
theorem program_complete {ts : List Placed} {p : Program} (h : p.Spelled (bare ts)) : program ts = .ok p := by
  obtain ⟨declared, es⟩ := p
  obtain ⟨names, us, hnodup, hdeclared, hseq, hb⟩ := h
  obtain ⟨front, rest, rfl, hfront, rfl⟩ := bare_eq_append hb
  -- The first edge starts with a label, so the names end there.
  have hnext : ∀ q ∈ rest.head?, NotName q.token := by
    generalize hus : bare rest = us at hseq
    cases hseq with
    | nil =>
      obtain rfl := bare_eq_nil.1 hus
      exact nofun
    | cons he _ =>
      obtain ⟨_, -, rfl⟩ := he
      obtain ⟨_, _, rfl, -⟩ := bare_eq_cons.1 hus
      simp [NotName]
  have hdeclarations := declarations_complete (declares_empty.2 ⟨hnodup, hdeclared⟩) hfront hnext
  simp only [program, hdeclarations, edges_complete hseq, bind, Except.bind, pure, Except.pure]

/-- Tokens are read as a program exactly if they spell it, on whatever lines they stand, and no tokens spell two
programs. -/
theorem program_ok_iff (ts : List Placed) :
    (∀ p, program ts = .ok p ↔ p.Spelled (bare ts)) ∧ {p : Program | p.Spelled (bare ts)}.Subsingleton := by
  have hiff : ∀ p, program ts = .ok p ↔ p.Spelled (bare ts) := fun p => ⟨program_sound, program_complete⟩
  refine ⟨hiff, ?_⟩
  -- Reading is a function, so two programs that the tokens spell are both what it gives.
  intro p hp q hq
  have hread : program ts = .ok p := (hiff p).2 hp
  exact Except.ok.inj (hread.symm.trans ((hiff q).2 hq))

end Parser

end FlowFacts
