import FlowFacts.Domain.Basic
import FlowFacts.Order.SortedSet

/-!
Alternatives. A `Disjunction` lists facts of which at least one holds. Sets of alternatives are
ordered by inclusion, which is finer than the order of what they say; a domain that wants the two to
agree keeps its sets free of alternatives that another one covers.
-/

namespace FlowFacts

inductive Disjunction (T : Type) [Ord T] where
  | bottom
  | top
  | any (members : SortedSet T)
  deriving DecidableEq

namespace Disjunction

variable {T : Type} [Ord T]

def isBottom : Disjunction T → Bool
  | bottom => true
  | _ => false

def isTop : Disjunction T → Bool
  | top => true
  | _ => false

/-- The disjunction of some facts. A fact that says nothing makes the others superfluous, and a fact
that cannot hold is left out. -/
def ofDisjuncts [Std.TransOrd T] [Domain T] (xs : List T) : Disjunction T :=
  if xs.any Domain.isTop then top
  else
    let members := SortedSet.ofList (xs.filter fun x => !Domain.isBottom x)
    if members.isEmpty then bottom else any members

/-- The alternatives of a disjunction. -/
def expand [Domain T] : Disjunction T → List T
  | bottom => []
  | top => [Domain.top]
  | any members => members.toList

/-- Alternatives that both disjunctions list. -/
def meet [Std.TransOrd T] [DecidableEq T] [Domain T] :
    Disjunction T → Disjunction T → Disjunction T
  | bottom, _ => bottom
  | _, bottom => bottom
  | top, d => d
  | d, top => d
  | any a, any b => ofDisjuncts (a.inter b).toList

/-- Alternatives that one of the disjunctions lists. -/
def join [Std.TransOrd T] : Disjunction T → Disjunction T → Disjunction T
  | top, _ => top
  | _, top => top
  | bottom, d => d
  | d, bottom => d
  | any a, any b => any (a.union b)

def compare [DecidableEq T] : Disjunction T → Disjunction T → Comparison
  | bottom, bottom => .equal
  | top, top => .equal
  | bottom, _ => .less
  | _, top => .less
  | _, bottom => .more
  | top, _ => .more
  | any a, any b =>
    if a = b then .equal
    else if a.isSubset b then .less
    else if b.isSubset a then .more
    else .incomparable

instance [Std.TransOrd T] [DecidableEq T] [Domain T] : Domain (Disjunction T) where
  bottom := bottom
  top := top
  meet a b := .ok (meet a b)
  join a b := .ok (join a b)
  compare a b := .ok (compare a b)
  isBottom := isBottom
  isTop := isTop

def render (write : T → String) : Disjunction T → String
  | bottom => "⊥"
  | top => "⊤"
  | any members => " ∨ ".intercalate (members.toList.map write)

end Disjunction

end FlowFacts
