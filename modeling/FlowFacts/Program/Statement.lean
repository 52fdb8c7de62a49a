import FlowFacts.Order.SortedSet

/-!
Statements. A program moves between numbered points by statements over integer variables: it assigns
a value, assumes that a condition holds, asserts a property, or does nothing.
-/

namespace FlowFacts

/-- What an assignment or a condition computes. -/
inductive Value where
  | const (c : Int)
  | var (name : String)
  | plus (name : String) (c : Int)
  | minus (name : String) (c : Int)
  /-- Any integer at all. -/
  | unknown
  deriving DecidableEq

namespace Value

/-- The variable that a value reads. -/
def reads : Value → Option String
  | var u | plus u _ | minus u _ => some u
  | const _ | unknown => none

/-- What a value adds to the variable it reads. -/
def offset : Value → Int
  | plus _ c => c
  | minus _ c => -c
  | const _ | var _ | unknown => 0

def hasOddOffset (v : Value) : Bool := v.offset % 2 ≠ 0

end Value

/-- What an assumption lets through. -/
inductive Condition where
  | always
  | never
  | equal (name : String) (value : Value)
  | unequal (name : String) (value : Value)
  deriving DecidableEq

/-- The smallest statements about a state. -/
inductive Atom where
  | even (name : String)
  | odd (name : String)
  /-- The variables on the left and those on the right have the same sum. -/
  | sum (left right : List String)
  deriving DecidableEq

namespace Atom

def isSum : Atom → Bool
  | sum _ _ => true
  | even _ | odd _ => false

def isParity (a : Atom) : Bool := !a.isSum

def names : Atom → List String
  | even x | odd x => [x]
  | sum left right => left ++ right

/-- The variables whose parity an atom is about. -/
def parityNames : Atom → List String
  | even x | odd x => [x]
  | sum _ _ => []

end Atom

/-- Atoms that hold together. -/
abbrev Clause := List Atom

/-- A property that holds if one of its clauses does. -/
structure Assertion where
  clauses : List Clause
  deriving DecidableEq

namespace Assertion

def atoms (a : Assertion) : List Atom := a.clauses.flatten

def hasSum (a : Assertion) : Bool := a.atoms.any Atom.isSum

def hasParity (a : Assertion) : Bool := a.atoms.any Atom.isParity

end Assertion

inductive Statement where
  | skip
  | assign (name : String) (value : Value)
  | assume (condition : Condition)
  | assert (assertion : Assertion)
  deriving DecidableEq

namespace Statement

def isAssume : Statement → Bool
  | assume _ => true
  | skip | assign _ _ | assert _ => false

/-- The variables a statement mentions, in the order in which it does. -/
def mentions : Statement → List String
  | skip | assume .always | assume .never => []
  | assign x value | assume (.equal x value) | assume (.unequal x value) => x :: value.reads.toList
  | assert a => a.atoms.flatMap Atom.names

def names (s : Statement) : SortedSet String := .ofList s.mentions

end Statement

/-- Where a variable is compared with a value or gets it, what the value reads is mentioned as well. -/
theorem Value.reads_mem {x : String} {value : Value} {names : List String}
    (h : ∀ y ∈ x :: value.reads.toList, y ∈ names) : ∀ u ∈ value.reads, u ∈ names :=
  fun u hu => h u (List.mem_cons_of_mem _ (Option.mem_toList.2 hu))

/-- A statement that leads from one program point to another. -/
structure Edge where
  source : Nat
  statement : Statement
  target : Nat
  deriving DecidableEq

/-- A program: the variables it declares, and its edges. -/
structure Program where
  declared : SortedSet String
  edges : List Edge
  deriving DecidableEq

end FlowFacts
