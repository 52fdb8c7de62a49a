/-!
Finite sets kept as lists in strictly ascending order. Two sets with the same members are the same
value, and reading a set from first to last is the order in which it is written out.
-/

namespace FlowFacts

variable {α : Type} [Ord α]

/-- Puts an element in its place in an ascending list, unless it is there. -/
def insertSorted (x : α) : List α → List α
  | [] => [x]
  | y :: rest =>
    match compare x y with
    | .lt => x :: y :: rest
    | .eq => y :: rest
    | .gt => y :: insertSorted x rest

/-- Strictly ascending lists. -/
def Ascending (xs : List α) : Prop := xs.Pairwise fun a b => compare a b = .lt

theorem mem_of_mem_insertSorted {x a : α} {xs : List α} (h : a ∈ insertSorted x xs) :
    a = x ∨ a ∈ xs := by
  induction xs with
  | nil => exact Or.inl (List.mem_singleton.mp h)
  | cons y rest ih =>
    unfold insertSorted at h
    split at h
    · exact List.mem_cons.mp h
    · exact Or.inr h
    · rcases List.mem_cons.mp h with rfl | h
      · exact Or.inr List.mem_cons_self
      · exact (ih h).imp_right (List.mem_cons_of_mem _)

theorem ascending_insertSorted [Std.TransOrd α] (x : α) {xs : List α} (h : Ascending xs) :
    Ascending (insertSorted x xs) := by
  induction xs with
  | nil => exact List.pairwise_singleton _ _
  | cons y rest ih =>
    obtain ⟨hy, hrest⟩ := List.pairwise_cons.mp h
    unfold insertSorted
    split
    · next hxy =>
      refine List.pairwise_cons.mpr ⟨fun b hb => ?_, h⟩
      rcases List.mem_cons.mp hb with rfl | hb
      · exact hxy
      · exact Std.TransCmp.lt_trans hxy (hy b hb)
    · exact h
    · next hxy =>
      refine List.pairwise_cons.mpr ⟨fun b hb => ?_, ih hrest⟩
      rcases mem_of_mem_insertSorted hb with rfl | hb
      · exact Std.OrientedCmp.gt_iff_lt.mp hxy
      · exact hy b hb

/-- A finite set, its members in ascending order. -/
structure SortedSet (α : Type) [Ord α] where
  toList : List α
  ascending : Ascending toList

namespace SortedSet

instance [DecidableEq α] : DecidableEq (SortedSet α) := fun s t =>
  if h : s.toList = t.toList then .isTrue (by cases s; cases t; subst h; rfl)
  else .isFalse fun e => h (by rw [e])

instance : Membership α (SortedSet α) := ⟨fun s x => x ∈ s.toList⟩

instance [DecidableEq α] (x : α) (s : SortedSet α) : Decidable (x ∈ s) :=
  inferInstanceAs (Decidable (x ∈ s.toList))

def empty : SortedSet α := ⟨[], List.Pairwise.nil⟩

def isEmpty (s : SortedSet α) : Bool := s.toList.isEmpty

def insert [Std.TransOrd α] (s : SortedSet α) (x : α) : SortedSet α :=
  ⟨insertSorted x s.toList, ascending_insertSorted x s.ascending⟩

def ofList [Std.TransOrd α] (xs : List α) : SortedSet α := xs.foldr (fun x s => s.insert x) empty

def union [Std.TransOrd α] (s t : SortedSet α) : SortedSet α :=
  t.toList.foldr (fun x u => u.insert x) s

/-- The members that pass a test. -/
def filter (p : α → Bool) (s : SortedSet α) : SortedSet α :=
  ⟨s.toList.filter p, s.ascending.filter p⟩

def inter [DecidableEq α] (s t : SortedSet α) : SortedSet α := s.filter (· ∈ t)

def diff [DecidableEq α] (s t : SortedSet α) : SortedSet α := s.filter (· ∉ t)

def isSubset [DecidableEq α] (s t : SortedSet α) : Bool := s.toList.all (· ∈ t)

end SortedSet

end FlowFacts
