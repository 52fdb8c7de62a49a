import FlowFacts.Domain.Basic
import FlowFacts.Order.SortedSet

/-!
Facts about every variable at once. A `VarMap` gives a value to every name: a default, and for
finitely many names a value that differs from it. The names are in ascending order, so two maps that
give the same values are the same map.
-/

namespace FlowFacts

/-- The value of one name. -/
structure Entry (V : Type) where
  name : String
  value : V
  deriving DecidableEq

/-- A value for every name. -/
structure VarMap (V : Type) where
  default : V
  entries : List (Entry V)
  ascending : entries.Pairwise fun p q => compare p.name q.name = .lt
  proper : ∀ q ∈ entries, q.value ≠ default

namespace VarMap

variable {V : Type}

instance [DecidableEq V] : DecidableEq (VarMap V) := fun a b =>
  if h : a.default = b.default ∧ a.entries = b.entries then
    .isTrue (by cases a; cases b; obtain ⟨rfl, rfl⟩ := h; rfl)
  else .isFalse fun e => h ⟨by rw [e], by rw [e]⟩

/-- The same value for every name. -/
def uniform (v : V) : VarMap V := ⟨v, [], List.Pairwise.nil, by simp⟩

def get (m : VarMap V) (name : String) : V :=
  match m.entries.find? fun q => q.name = name with
  | some q => q.value
  | none => m.default

/-- The default, then the other values in the order of their names. -/
def values (m : VarMap V) : List V := m.default :: m.entries.map (·.value)

/-- The entries in braces, the default last under a star. -/
def render (write : V → String) (m : VarMap V) : String :=
  let entries := m.entries.map fun q => q.name ++ ": " ++ write q.value
  "\x7b" ++ ", ".intercalate (entries ++ ["*: " ++ write m.default]) ++ "\x7d"

/-! ## Listing maps in order -/

/-- Entries are ordered by name, then by value. -/
instance [Ord V] : Ord (Entry V) := ⟨compareLex (compareOn (·.name)) (compareOn (·.value))⟩

instance [Ord V] [Std.TransOrd V] : Std.TransOrd (Entry V) :=
  inferInstanceAs (Std.TransCmp (compareLex (compareOn Entry.name) (compareOn Entry.value)))

/-- Maps are ordered by their defaults, then by their entries. -/
instance [Ord V] : Ord (VarMap V) := ⟨compareLex (compareOn (·.default)) (compareOn (·.entries))⟩

instance [Ord V] [Std.TransOrd V] : Std.TransOrd (VarMap V) :=
  inferInstanceAs (Std.TransCmp (compareLex (compareOn VarMap.default) (compareOn VarMap.entries)))

/-! ## Changing one value -/

/-- Ascending entries with one entry added or replaced. -/
def putEntry (e : Entry V) : List (Entry V) → List (Entry V)
  | [] => [e]
  | q :: rest =>
    match compare e.name q.name with
    | .lt => e :: q :: rest
    | .eq => e :: rest
    | .gt => q :: putEntry e rest

theorem mem_of_mem_putEntry {e a : Entry V} {es : List (Entry V)} (h : a ∈ putEntry e es) :
    a = e ∨ a ∈ es := by
  induction es with
  | nil => exact Or.inl (List.mem_singleton.mp h)
  | cons q rest ih =>
    unfold putEntry at h
    split at h
    · exact List.mem_cons.mp h
    · exact (List.mem_cons.mp h).imp_right (List.mem_cons_of_mem _)
    · rcases List.mem_cons.mp h with rfl | h
      · exact Or.inr List.mem_cons_self
      · exact (ih h).imp_right (List.mem_cons_of_mem _)

theorem ascending_putEntry (e : Entry V) {es : List (Entry V)}
    (h : es.Pairwise fun p q => compare p.name q.name = .lt) :
    (putEntry e es).Pairwise fun p q => compare p.name q.name = .lt := by
  induction es with
  | nil => exact List.pairwise_singleton _ _
  | cons q rest ih =>
    obtain ⟨hq, hrest⟩ := List.pairwise_cons.mp h
    unfold putEntry
    split
    · next hlt =>
      refine List.pairwise_cons.mpr ⟨fun b hb => ?_, h⟩
      rcases List.mem_cons.mp hb with rfl | hb
      · exact hlt
      · exact Std.TransCmp.lt_trans hlt (hq b hb)
    · next heq =>
      refine List.pairwise_cons.mpr ⟨fun b hb => ?_, hrest⟩
      exact Std.TransCmp.lt_of_eq_of_lt heq (hq b hb)
    · next hgt =>
      refine List.pairwise_cons.mpr ⟨fun b hb => ?_, ih hrest⟩
      rcases mem_of_mem_putEntry hb with rfl | hb
      · exact Std.OrientedCmp.gt_iff_lt.mp hgt
      · exact hq b hb

/-- The map with one value changed. -/
def set [DecidableEq V] (m : VarMap V) (name : String) (v : V) : VarMap V :=
  if h : v = m.default then
    { default := m.default
      entries := m.entries.filter fun q => q.name ≠ name
      ascending := m.ascending.filter _
      proper := fun q hq => m.proper q (List.mem_filter.mp hq).1 }
  else
    { default := m.default
      entries := putEntry ⟨name, v⟩ m.entries
      ascending := ascending_putEntry _ m.ascending
      proper := by
        intro q hq
        rcases mem_of_mem_putEntry hq with rfl | hq
        · exact h
        · exact m.proper q hq }

/-- The map of a default and some entries; of two entries for one name the later one counts. -/
def ofEntries [DecidableEq V] (default : V) (entries : List (Entry V)) : VarMap V :=
  entries.foldl (fun m e => m.set e.name e.value) (uniform default)

/-! ## Two maps -/

/-- The names for which one of two maps does not have its default. -/
def names (a b : VarMap V) : List String :=
  (SortedSet.ofList (a.entries.map (·.name) ++ b.entries.map (·.name))).toList

/-- The map whose values an operation makes from the values of two maps. -/
def pointwise [DecidableEq V] (op : V → V → Except Fault V) (a b : VarMap V) :
    Except Fault (VarMap V) := do
  let start := uniform (← op a.default b.default)
  (a.names b).foldlM (fun m name => return m.set name (← op (a.get name) (b.get name))) start

/-- Compares name by name and stops at the first contradiction. -/
def compareNames [Domain V] (a b : VarMap V) :
    Comparison → List String → Except Fault Comparison
  | c, [] => .ok c
  | c, name :: rest => do
    if c = .incomparable then return c
    compareNames a b (c.combine (← Domain.compare (a.get name) (b.get name))) rest

instance [DecidableEq V] [Domain V] : Domain (VarMap V) where
  bottom := uniform Domain.bottom
  top := uniform Domain.top
  meet := pointwise Domain.meet
  join := pointwise Domain.join
  compare a b := do compareNames a b (← Domain.compare a.default b.default) (a.names b)

end VarMap

end FlowFacts
