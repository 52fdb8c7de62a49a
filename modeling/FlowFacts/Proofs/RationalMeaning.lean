import Mathlib
import FlowFacts.Meaning

/-!
# Statements and assertions at rational points

Equations allow rational points, so statements and assertions are read there as well. A valuation gives every
variable a rational. What a value stands for, whether a condition lets a valuation pass and whether an assertion
holds are said as for stores, and agree with that where all rationals are whole (`Value.Yields.takes`,
`Atom.holdsAt_intCast`). A frame reads a point as a valuation (`Frame.read`), and `Frame.image` is the set of points
that a statement makes of those in a set.
-/

namespace FlowFacts

/-- A rational for every variable. -/
abbrev Valuation := String → ℚ

/-- The rationals that a value may stand for. -/
def Value.Takes (σ : Valuation) : Value → ℚ → Prop
  | const c, q => q = c
  | var u, q => q = σ u
  | plus u c, q => q = σ u + c
  | minus u c, q => q = σ u - c
  | unknown, _ => True

/-- A comparison with an unknown value holds for some choice of it. -/
def Condition.Passes (σ : Valuation) : Condition → Prop
  | always => True
  | never => False
  | equal x v => ∃ q, v.Takes σ q ∧ σ x = q
  | unequal x v => ∃ q, v.Takes σ q ∧ σ x ≠ q

def Atom.HoldsAt (σ : Valuation) : Atom → Prop
  | even x => ∃ k : Int, σ x = 2 * k
  | odd x => ∃ k : Int, σ x = 2 * k + 1
  | sum left right => (left.map σ).sum = (right.map σ).sum

def Clause.HoldsAt (σ : Valuation) (c : Clause) : Prop := ∀ a ∈ c, a.HoldsAt σ

def Assertion.HoldsAt (σ : Valuation) (a : Assertion) : Prop := ∃ c ∈ a.clauses, Clause.HoldsAt σ c

namespace Value

variable {σ τ : Valuation} {v : Value} {u : String} {q : ℚ}

theorem takes_of_reads (h : v.reads = some u) : v.Takes σ q ↔ q = σ u + v.offset := by
  cases v <;> simp_all [reads, Takes, offset, sub_eq_add_neg]

/-- A value depends on the variable it reads. -/
theorem takes_congr (h : ∀ u ∈ v.reads, σ u = τ u) : v.Takes σ q ↔ v.Takes τ q := by
  cases v <;> simp_all [reads, Takes]

end Value

/-! ## Whole numbers -/

theorem Value.Yields.takes {s : Store} {v : Value} {m : Int} (h : v.Yields s m) : v.Takes (fun x => (s x : ℚ)) m := by
  cases v <;> simp_all [Value.Yields, Value.Takes]

theorem Store.sum_intCast (s : Store) (names : List String) : (names.map fun x => (s x : ℚ)).sum = s.total names := by
  induction names with
  | nil => simp [Store.total]
  | cons x rest ih => simp [Store.total, ih]

/-- At the rationals of a store an atom says what it says of the store. -/
theorem Atom.holdsAt_intCast {s : Store} {a : Atom} : a.HoldsAt (fun x => (s x : ℚ)) ↔ a.Holds s := by
  cases a with
  | even x =>
    have hcast : ∀ k : Int, (s x : ℚ) = 2 * k ↔ s x = 2 * k := fun k => by exact_mod_cast Iff.rfl
    simp only [HoldsAt, Holds, hcast]
    constructor
    · rintro ⟨k, hk⟩
      omega
    · exact fun h => ⟨s x / 2, by omega⟩
  | odd x =>
    have hcast : ∀ k : Int, (s x : ℚ) = 2 * k + 1 ↔ s x = 2 * k + 1 := fun k => by exact_mod_cast Iff.rfl
    simp only [HoldsAt, Holds, hcast]
    constructor
    · rintro ⟨k, hk⟩
      omega
    · exact fun h => ⟨s x / 2, by omega⟩
  | sum left right => simp only [HoldsAt, Holds, Store.sum_intCast, Int.cast_inj]

theorem Atom.holdsAt_congr {σ τ : Valuation} {a : Atom} (h : ∀ x ∈ a.names, σ x = τ x) : a.HoldsAt σ ↔ a.HoldsAt τ := by
  cases a with
  | even x => simp [HoldsAt, h x (by simp [names])]
  | odd x => simp [HoldsAt, h x (by simp [names])]
  | sum left right =>
    have hleft : left.map σ = left.map τ := List.map_congr_left fun x hx => h x (by simp [names, hx])
    have hright : right.map σ = right.map τ := List.map_congr_left fun x hx => h x (by simp [names, hx])
    simp only [HoldsAt, hleft, hright]

/-! ## Points of a frame -/

namespace Frame

/-- What a point says of a variable: its entry in the column of the variable. -/
def read (f : Frame) (y : Fin f.names.length → ℚ) (x : String) : ℚ :=
  match lastIndex? x f.names with
  | some c => if h : c < f.names.length then y ⟨c, h⟩ else 0
  | none => 0

/-- The point with a variable changed. -/
def write (f : Frame) (y : Fin f.names.length → ℚ) (x : String) (q : ℚ) : Fin f.names.length → ℚ :=
  fun i => if f.names[i] = x then q else y i

/-- The points before and after a statement. -/
def Moves (f : Frame) (y z : Fin f.names.length → ℚ) : Statement → Prop
  | .skip | .assert _ => z = y
  | .assign x value => ∃ q, value.Takes (f.read y) q ∧ z = f.write y x q
  | .assume c => c.Passes (f.read y) ∧ z = y

/-- The points that a statement makes of those in a set. -/
def image (f : Frame) (statement : Statement) (S : Set (Fin f.names.length → ℚ)) : Set (Fin f.names.length → ℚ) :=
  {z | ∃ y ∈ S, f.Moves y z statement}

end Frame

end FlowFacts
