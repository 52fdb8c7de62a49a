import FlowFacts.Graph.Basic

/-!
Runs of a program. A store gives every variable an integer. A run starts at the entry of the graph in
any store and follows arcs: an assignment changes the store, an assumption lets it pass only if the
condition holds, and the other statements leave it as it is. `Graph.Reaches` says in which stores a
run can come to a node.
-/

namespace FlowFacts

/-- An integer for every variable. -/
abbrev Store := String → Int

namespace Store

/-- The store with one variable changed. -/
def set (s : Store) (x : String) (n : Int) : Store := fun y => if y = x then n else s y

@[simp] theorem set_self (s : Store) (x : String) (n : Int) : s.set x n x = n := if_pos rfl

theorem set_of_ne (s : Store) {x y : String} (n : Int) (h : y ≠ x) : s.set x n y = s y := if_neg h

/-- The sum of some variables. -/
def total (s : Store) : List String → Int
  | [] => 0
  | x :: rest => s x + s.total rest

end Store

/-- The integers that a value may stand for. -/
def Value.Yields (s : Store) : Value → Int → Prop
  | const c, n => n = c
  | var u, n => n = s u
  | plus u c, n => n = s u + c
  | minus u c, n => n = s u - c
  | unknown, _ => True

theorem Value.yields_of_reads {s : Store} {v : Value} {u : String} {n : Int}
    (h : v.reads = some u) : v.Yields s n ↔ n = s u + v.offset := by
  cases v <;> simp_all [reads, Yields, offset, Int.sub_eq_add_neg]

/-- A comparison with an unknown value holds for some choice of it. -/
def Condition.Admits (s : Store) : Condition → Prop
  | always => True
  | never => False
  | equal x v => ∃ n, v.Yields s n ∧ s x = n
  | unequal x v => ∃ n, v.Yields s n ∧ s x ≠ n

def Atom.Holds (s : Store) : Atom → Prop
  | even x => s x % 2 = 0
  | odd x => s x % 2 = 1
  | sum left right => s.total left = s.total right

def Clause.Holds (s : Store) (c : Clause) : Prop := ∀ a ∈ c, a.Holds s

def Assertion.Holds (s : Store) (a : Assertion) : Prop := ∃ c ∈ a.clauses, Clause.Holds s c

/-- The stores before and after a statement. -/
inductive Statement.Step : Statement → Store → Store → Prop where
  | skip (s : Store) : Step .skip s s
  | assign {s : Store} (x : String) {v : Value} {n : Int} (h : v.Yields s n) :
    Step (.assign x v) s (s.set x n)
  | assume {s : Store} {c : Condition} (h : c.Admits s) : Step (.assume c) s s
  | assert (a : Assertion) (s : Store) : Step (.assert a) s s

theorem Statement.step_assume {c : Condition} {s t : Store} (h : (Statement.assume c).Step s t) :
    c.Admits s ∧ t = s := by
  cases h with
  | assume h => exact ⟨h, rfl⟩

/-- The stores in which a run can come to a node. -/
inductive Graph.Reaches (g : Graph) : Nat → Store → Prop where
  | entry (s : Store) : g.Reaches g.entry s
  | arc {a : Arc} {s t : Store} (ha : a ∈ g.arcs) (hs : g.Reaches a.source s)
    (h : a.statement.Step s t) : g.Reaches a.target t

end FlowFacts
