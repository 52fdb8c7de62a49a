import Mathlib
import FlowFacts.Order.SortedSet

/-!
# Members of sorted sets

Building a set from a list, adding an element and uniting two sets have the members one expects, and
no member is listed twice. An ascending list is determined by its members (`Ascending.eq_of_mem_iff`), and
so is a set (`SortedSet.ext_mem`).
-/

namespace FlowFacts

variable {α : Type} [Ord α]

theorem mem_insertSorted [Std.LawfulEqOrd α] {x a : α} {xs : List α} : a ∈ insertSorted x xs ↔ a = x ∨ a ∈ xs := by
  refine ⟨mem_of_mem_insertSorted, fun h => ?_⟩
  induction xs with
  | nil => simpa [insertSorted] using h
  | cons y rest ih =>
    unfold insertSorted
    split
    · exact List.mem_cons.2 h
    · next heq =>
      obtain rfl := Std.LawfulEqOrd.eq_of_compare heq
      simpa using h
    · rcases h with rfl | h
      · exact List.mem_cons_of_mem _ (ih (.inl rfl))
      · rcases List.mem_cons.1 h with rfl | h
        · exact List.mem_cons_self
        · exact List.mem_cons_of_mem _ (ih (.inr h))

theorem Ascending.nodup [Std.TransOrd α] {xs : List α} (h : Ascending xs) : xs.Nodup := by
  refine h.imp fun {a b} hab => ?_
  rintro rfl
  exact Std.OrientedCmp.not_lt_of_lt hab hab

/-- Ascending lists with the same members are equal: both start with the least one. -/
theorem Ascending.eq_of_mem_iff [Std.TransOrd α] {xs ys : List α} (hx : Ascending xs) (hy : Ascending ys)
    (h : ∀ a, a ∈ xs ↔ a ∈ ys) : xs = ys := by
  refine ((List.perm_ext_iff_of_nodup hx.nodup hy.nodup).2 h).eq_of_pairwise (fun a b _ _ hab hba => ?_) hx hy
  exact absurd hba (Std.OrientedCmp.not_lt_of_lt hab)

namespace SortedSet

theorem nodup_toList [Std.TransOrd α] (s : SortedSet α) : s.toList.Nodup := s.ascending.nodup

theorem mem_ofList [Std.TransOrd α] [Std.LawfulEqOrd α] {xs : List α} {a : α} : a ∈ (ofList xs).toList ↔ a ∈ xs := by
  induction xs with
  | nil => exact Iff.rfl
  | cons x rest ih =>
    show a ∈ insertSorted x (ofList rest).toList ↔ _
    rw [mem_insertSorted, ih, List.mem_cons]

theorem mem_union [Std.TransOrd α] [Std.LawfulEqOrd α] {s t : SortedSet α} {a : α} :
    a ∈ (s.union t).toList ↔ a ∈ s.toList ∨ a ∈ t.toList := by
  have hfold : ∀ xs : List α, a ∈ (xs.foldr (fun x u => u.insert x) s).toList ↔ a ∈ s.toList ∨ a ∈ xs := by
    intro xs
    induction xs with
    | nil => simp
    | cons x rest ih =>
      show a ∈ insertSorted x (rest.foldr (fun x u => u.insert x) s).toList ↔ _
      rw [mem_insertSorted, ih, List.mem_cons]
      exact or_left_comm
  exact hfold t.toList

theorem ext_mem [Std.TransOrd α] {s t : SortedSet α} (h : ∀ a, a ∈ s.toList ↔ a ∈ t.toList) : s = t := by
  obtain ⟨xs, hxs⟩ := s
  obtain ⟨ys, hys⟩ := t
  obtain rfl : xs = ys := hxs.eq_of_mem_iff hys h
  rfl

theorem mem_inter [DecidableEq α] {s t : SortedSet α} {a : α} :
    a ∈ (s.inter t).toList ↔ a ∈ s.toList ∧ a ∈ t.toList := by
  refine List.mem_filter.trans (and_congr_right fun _ => ?_)
  exact decide_eq_true_iff

theorem mem_diff [DecidableEq α] {s t : SortedSet α} {a : α} :
    a ∈ (s.diff t).toList ↔ a ∈ s.toList ∧ a ∉ t.toList := by
  refine List.mem_filter.trans (and_congr_right fun _ => ?_)
  exact decide_eq_true_iff

theorem isSubset_iff [DecidableEq α] {s t : SortedSet α} : s.isSubset t = true ↔ s.toList ⊆ t.toList := by
  unfold isSubset
  rw [List.all_eq_true]
  exact forall₂_congr fun a _ => decide_eq_true_iff

end SortedSet

end FlowFacts
