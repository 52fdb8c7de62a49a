import FlowFacts.Fault
import FlowFacts.Program.Lexer
import FlowFacts.Program.Statement

/-!
Reading tokens as a program. Each reader takes the tokens that are left and gives back what it has
read and the tokens after it. A reader that fails says what it wanted and where it stood.
-/

namespace FlowFacts

/-- Where a reader stood when it failed, and why. -/
structure Failure where
  issue : Issue
  rest : List Placed

/-- The failure of finding something else than what was wanted. -/
def Failure.wanted (w : Wanted) (ts : List Placed) : Failure :=
  ⟨.expected w (ts.head?.map (·.token)), ts⟩

/-- A way to read the front of a list of tokens. -/
abbrev Parser (α : Type) := List Placed → Except Failure (α × List Placed)

namespace Parser

/-- Reads a given token. -/
def expect (t : Token) : List Placed → Except Failure (List Placed)
  | q :: rest => if q.token = t then .ok rest else .error (.wanted (.token t) (q :: rest))
  | [] => .error (.wanted (.token t) [])

def ident : Parser String
  | ⟨.ident x, _⟩ :: rest => .ok (x, rest)
  | ts => .error (.wanted .aVariable ts)

def label : Parser Nat
  | ⟨.label n, _⟩ :: rest => .ok (n, rest)
  | ts => .error (.wanted .aLabel ts)

def number : Parser Nat
  | ⟨.number n, _⟩ :: rest => .ok (n, rest)
  | ts => .error (.wanted .aNumber ts)

/-- Reads names as long as there are some. -/
def names : List Placed → List String × List Placed
  | ⟨.ident x, _⟩ :: rest => (x :: (names rest).1, (names rest).2)
  | ts => ([], ts)

def nameList : Parser (List String)
  | ⟨.ident x, _⟩ :: rest => .ok (x :: (names rest).1, (names rest).2)
  | ts => .error (.wanted .aVariable ts)

def value : Parser Value
  | ⟨.question, _⟩ :: rest => .ok (.unknown, rest)
  | ⟨.number n, _⟩ :: rest => .ok (.const n, rest)
  | ⟨.minus, _⟩ :: rest => do
    let (n, rest) ← number rest
    return (.const (-n), rest)
  | ⟨.ident u, _⟩ :: ⟨.plus, _⟩ :: rest => do
    let (n, rest) ← number rest
    return (.plus u n, rest)
  | ⟨.ident u, _⟩ :: ⟨.minus, _⟩ :: rest => do
    let (n, rest) ← number rest
    return (.minus u n, rest)
  | ⟨.ident u, _⟩ :: rest => .ok (.var u, rest)
  | ts => .error (.wanted .aValue ts)

/-- Reads the rest of a condition on a variable. -/
def comparison (x : String) : Parser Condition
  | ⟨.equals, _⟩ :: rest => do
    let (v, rest) ← value rest
    return (.equal x v, rest)
  | ⟨.differs, _⟩ :: rest => do
    let (v, rest) ← value rest
    return (.unequal x v, rest)
  | ts => .error (.wanted .aComparison ts)

def condition : Parser Condition
  | ⟨.always, _⟩ :: rest => .ok (.always, rest)
  | ⟨.never, _⟩ :: rest => .ok (.never, rest)
  | ⟨.ident x, _⟩ :: rest => comparison x rest
  | ts => .error (.wanted .aVariable ts)

/-- Reads a condition, with or without parentheses around it. -/
def assumption : Parser Condition
  | ⟨.leftParen, _⟩ :: rest => do
    let (c, rest) ← condition rest
    let rest ← expect .rightParen rest
    return (c, rest)
  | ts => condition ts

def atom : Parser Atom
  | ⟨.even, _⟩ :: rest => do
    let (x, rest) ← ident rest
    return (.even x, rest)
  | ⟨.odd, _⟩ :: rest => do
    let (x, rest) ← ident rest
    return (.odd x, rest)
  | ⟨.sum, _⟩ :: rest => do
    let (left, rest) ← nameList rest
    let rest ← expect .equals rest
    let rest ← expect .sum rest
    let (right, rest) ← nameList rest
    return (.sum left right, rest)
  | ts => .error (.wanted .anAtom ts)

/-! ## Every reader moves on -/

/-- A reader that succeeds leaves fewer tokens than it was given. -/
def Advances {α : Type} (p : Parser α) : Prop :=
  ∀ ⦃ts a rest⦄, p ts = .ok (a, rest) → rest.length < ts.length

theorem length_of_expect {t : Token} {ts rest : List Placed} (h : expect t ts = .ok rest) :
    rest.length < ts.length := by
  unfold expect at h
  split at h
  · split at h
    · cases h; simp
    · cases h
  · cases h

theorem length_names_le (ts : List Placed) : (names ts).2.length ≤ ts.length := by
  induction ts with
  | nil => exact Nat.le_refl _
  | cons q rest ih =>
    unfold names
    split
    · next h => cases h; simp; omega
    · exact Nat.le_refl _

theorem ident_advances : Advances ident := by
  intro ts a rest h
  unfold ident at h
  split at h <;> cases h
  simp

theorem label_advances : Advances label := by
  intro ts a rest h
  unfold label at h
  split at h <;> cases h
  simp

theorem number_advances : Advances number := by
  intro ts a rest h
  unfold number at h
  split at h <;> cases h
  simp

theorem nameList_advances : Advances nameList := by
  intro ts a rest h
  unfold nameList at h
  split at h
  · next rest' =>
    cases h
    have := length_names_le rest'
    simp; omega
  · cases h

theorem value_advances : Advances value := by
  intro ts a rest h
  unfold value at h
  split at h
  case h_1 | h_2 | h_6 => cases h; simp
  case h_7 => cases h
  all_goals
    obtain ⟨⟨n, rest'⟩, hn, h⟩ := ok_of_bind h
    cases h
    have := number_advances hn
    simp; omega

theorem comparison_advances (x : String) : Advances (comparison x) := by
  intro ts a rest h
  unfold comparison at h
  split at h
  case h_3 => cases h
  all_goals
    obtain ⟨⟨v, rest'⟩, hv, h⟩ := ok_of_bind h
    cases h
    have := value_advances hv
    simp; omega

theorem condition_advances : Advances condition := by
  intro ts a rest h
  unfold condition at h
  split at h
  case h_1 | h_2 => cases h; simp
  case h_3 =>
    have := comparison_advances _ h
    simp; omega
  case h_4 => cases h

theorem assumption_advances : Advances assumption := by
  intro ts a rest h
  unfold assumption at h
  split at h
  · obtain ⟨⟨c, rest'⟩, hc, h⟩ := ok_of_bind h
    obtain ⟨rest'', he, h⟩ := ok_of_bind h
    cases h
    have := condition_advances hc
    have := length_of_expect he
    simp; omega
  · exact condition_advances h

theorem atom_advances : Advances atom := by
  intro ts a rest h
  unfold atom at h
  split at h
  case h_4 => cases h
  case h_3 =>
    obtain ⟨⟨left, r1⟩, h1, h⟩ := ok_of_bind h
    obtain ⟨r2, h2, h⟩ := ok_of_bind h
    obtain ⟨r3, h3, h⟩ := ok_of_bind h
    obtain ⟨⟨right, r4⟩, h4, h⟩ := ok_of_bind h
    cases h
    have := nameList_advances h1
    have := length_of_expect h2
    have := length_of_expect h3
    have := nameList_advances h4
    simp; omega
  all_goals
    obtain ⟨⟨x, rest'⟩, hx, h⟩ := ok_of_bind h
    cases h
    have := ident_advances hx
    simp; omega

/-! ## Clauses, statements, programs -/

/-- Reads atoms up to a closing parenthesis, and that as well. -/
def atoms : Parser (List Atom)
  | ⟨.rightParen, _⟩ :: rest => .ok ([], rest)
  | ts =>
    match h : atom ts with
    | .error e => .error e
    | .ok (a, rest) =>
      have := atom_advances h
      match atoms rest with
      | .error e => .error e
      | .ok (as, rest) => .ok (a :: as, rest)
termination_by ts => ts.length
decreasing_by exact this

/-- Reads a clause: atoms in parentheses, at least one. -/
def clause : Parser Clause
  | ⟨.leftParen, _⟩ :: rest => do
    let (a, rest) ← atom rest
    let (as, rest) ← atoms rest
    return (a :: as, rest)
  | ts => .error (.wanted (.token .leftParen) ts)

theorem atoms_advances : Advances atoms := by
  intro ts as rest h
  induction hn : ts.length using Nat.strongRecOn generalizing ts as rest with
  | ind n ih =>
    unfold atoms at h
    split at h
    · cases h; simp [← hn]
    · split at h
      · cases h
      · next ha =>
        have hlt := atom_advances ha
        split at h
        · cases h
        · next hs =>
          cases h
          have := ih _ (hn ▸ hlt) hs rfl
          omega

theorem clause_advances : Advances clause := by
  intro ts a rest h
  unfold clause at h
  split at h
  · obtain ⟨⟨a, r1⟩, h1, h⟩ := ok_of_bind h
    obtain ⟨⟨as, r2⟩, h2, h⟩ := ok_of_bind h
    cases h
    have := atom_advances h1
    have := atoms_advances h2
    simp; omega
  · cases h

/-- Reads clauses as long as a parenthesis opens one. -/
def clauses : Parser (List Clause)
  | ⟨.leftParen, l⟩ :: rest =>
    match h : clause (⟨.leftParen, l⟩ :: rest) with
    | .error e => .error e
    | .ok (c, rest') =>
      have := clause_advances h
      match clauses rest' with
      | .error e => .error e
      | .ok (cs, rest'') => .ok (c :: cs, rest'')
  | ts => .ok ([], ts)
termination_by ts => ts.length
decreasing_by exact this

theorem length_of_clauses {ts : List Placed} {cs : List Clause} {rest : List Placed}
    (h : clauses ts = .ok (cs, rest)) : rest.length ≤ ts.length := by
  induction hn : ts.length using Nat.strongRecOn generalizing ts cs rest with
  | ind n ih =>
    unfold clauses at h
    split at h
    · split at h
      · cases h
      · next hc =>
        have hlt := clause_advances hc
        split at h
        · cases h
        · next hs =>
          cases h
          have := ih _ (hn ▸ hlt) hs rfl
          omega
    · cases h; omega

def statement : Parser Statement
  | ⟨.skip, _⟩ :: rest => .ok (.skip, rest)
  | ⟨.ident x, _⟩ :: rest => do
    let rest ← expect .assign rest
    let (v, rest) ← value rest
    return (.assign x v, rest)
  | ⟨.assume, _⟩ :: rest => do
    let (c, rest) ← assumption rest
    return (.assume c, rest)
  | ⟨.assert, _⟩ :: rest => do
    let (c, rest) ← clause rest
    let (cs, rest) ← clauses rest
    return (.assert ⟨c :: cs⟩, rest)
  | ts => .error (.wanted .aStatement ts)

theorem statement_advances : Advances statement := by
  intro ts a rest h
  unfold statement at h
  split at h
  · cases h; simp
  · obtain ⟨r1, h1, h⟩ := ok_of_bind h
    obtain ⟨⟨v, r2⟩, h2, h⟩ := ok_of_bind h
    cases h
    have := length_of_expect h1
    have := value_advances h2
    simp; omega
  · obtain ⟨⟨c, r1⟩, h1, h⟩ := ok_of_bind h
    cases h
    have := assumption_advances h1
    simp; omega
  · obtain ⟨⟨c, r1⟩, h1, h⟩ := ok_of_bind h
    obtain ⟨⟨cs, r2⟩, h2, h⟩ := ok_of_bind h
    cases h
    have := clause_advances h1
    have := length_of_clauses h2
    simp; omega
  · cases h

def edge : Parser Edge := fun ts => do
  let (source, rest) ← label ts
  let (s, rest) ← statement rest
  let (target, rest) ← label rest
  return (⟨source, s, target⟩, rest)

theorem edge_advances : Advances edge := by
  intro ts a rest h
  obtain ⟨⟨source, r1⟩, h1, h⟩ := ok_of_bind h
  obtain ⟨⟨s, r2⟩, h2, h⟩ := ok_of_bind h
  obtain ⟨⟨target, r3⟩, h3, h⟩ := ok_of_bind h
  cases h
  have := label_advances h1
  have := statement_advances h2
  have := label_advances h3
  omega

/-- Reads edges to the end. -/
def edges (ts : List Placed) : Except Failure (List Edge) :=
  if ts.isEmpty then .ok []
  else
    match h : edge ts with
    | .error e => .error e
    | .ok (e, rest) =>
      have := edge_advances h
      match edges rest with
      | .error e => .error e
      | .ok es => .ok (e :: es)
termination_by ts.length
decreasing_by exact this

/-- Reads the variables that a program declares. -/
def declarations (seen : SortedSet String) : Parser (SortedSet String)
  | ⟨.ident x, _⟩ :: rest =>
    if x ∈ seen then .error ⟨.declaredTwice x, rest⟩ else declarations (seen.insert x) rest
  | ts => .ok (seen, ts)

def program (ts : List Placed) : Except Failure Program := do
  let (declared, rest) ← declarations .empty ts
  return ⟨declared, ← edges rest⟩

end Parser

/-- The line that a failure is reported for: that of the token at which the reader stood, or of the
last token if there was none left. -/
def Failure.line (tokens : List Placed) (f : Failure) : Nat :=
  match f.rest.head?, tokens.getLast? with
  | some q, _ => q.line
  | none, some q => q.line
  | none, none => 1

namespace Program

/-- The program that a list of tokens writes. -/
def ofTokens (tokens : List Placed) : Except ParseError Program :=
  (Parser.program tokens).mapError fun f => ⟨f.line tokens, f.issue⟩

/-- The program that a text writes. -/
def parse (source : String) : Except ParseError Program := do
  ofTokens (← Token.readAll 1 source.toList)

/-- Why a file holds no program. -/
inductive LoadError where
  /-- There is no text to read. -/
  | unreadable
  | parse (error : ParseError)

/-- The program in the contents of a file, if there are any and they are UTF-8. -/
def load (contents : Option ByteArray) : Except LoadError Program :=
  match contents.bind String.fromUTF8? with
  | none => .error .unreadable
  | some source => (parse source).mapError .parse

end Program

end FlowFacts
