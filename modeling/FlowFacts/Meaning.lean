import FlowFacts.Graph.Execution
import FlowFacts.Report

/-!
What states say about stores. A parity contains some integers, a map of parities contains the stores
whose variables all have theirs, and a parity state contains what one of its alternatives contains.
Equations contain a store if each of them vanishes at the point that a frame makes of it: the values
of its variables in the order of their columns, and a one for the constant. `Kind.Describes` puts
the two together for the states of each kind of analysis.
-/

namespace FlowFacts

/-! ## Parities -/

namespace Parity

/-- The integers that a parity stands for. -/
def Contains : Parity → Int → Prop
  | bottom, _ => False
  | even, n => n % 2 = 0
  | odd, n => n % 2 = 1
  | top, _ => True

theorem contains_of (n : Int) : (of n).Contains n := by
  unfold of
  split
  · assumption
  · show n % 2 = 1
    omega

theorem contains_meet {p q : Parity} {n : Int} :
    (p.meet q).Contains n ↔ p.Contains n ∧ q.Contains n := by
  cases p <;> cases q <;> grind [meet, Contains]

theorem contains_shift {p : Parity} {n k : Int} : (p.shift k).Contains (n + k) ↔ p.Contains n := by
  unfold shift
  split <;> cases p <;> simp only [flip, Contains] <;> omega

end Parity

def ParityMap.Contains (m : ParityMap) (s : Store) : Prop := ∀ x, (m.get x).Contains (s x)

def ParityState.Contains (d : ParityState) (s : Store) : Prop :=
  ∃ m ∈ d.expand, ParityMap.Contains m s

/-! ## Equations -/

/-- The point of a store, with a one in the column of the constant. -/
def Frame.point (f : Frame) (s : Store) : List Fraction :=
  f.names.map (fun x => Fraction.ofInt (s x)) ++ [1]

def Relations.Contains (f : Frame) (s : Store) : Relations → Prop
  | bottom => False
  | top => True
  | system m => ∀ row ∈ m.rows, Fraction.dot row (f.point s) = 0

/-! ## Kinds of analysis -/

/-- Whether a store is among those that a state of a kind allows. A pair allows what both of its
halves allow. -/
def Kind.Describes (k : Kind) (names : List String) (state : k.State) (s : Store) : Prop :=
  match k, state with
  | parity, d => ParityState.Contains d s
  | sum, r => Relations.Contains ⟨names, .affine⟩ s r
  | product, (d, r) => ParityState.Contains d s ∧ Relations.Contains ⟨names, .affine⟩ s r
  | lift, r => Relations.Contains ⟨names, .affine⟩ s r
  | homogeneousLift, r => Relations.Contains ⟨names, .homogeneous⟩ s r

end FlowFacts
