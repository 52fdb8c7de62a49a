import Mathlib
import FlowFacts.Domain.Pointwise
import FlowFacts.Proofs.SortedSets

/-!
# Maps by name

A map is determined by its default and what it gives each name (`VarMap.ext_get`), and setting a name
changes that name alone (`VarMap.get_set`). Maps that are listed in the same place are equal.
-/

namespace FlowFacts

namespace VarMap

variable {V : Type} {m : VarMap V} {x y : String} {v : V}

/-! ## Reading and setting -/

theorem names_nodup (m : VarMap V) : (m.entries.map (·.name)).Nodup := by
  refine List.pairwise_map.2 (m.ascending.imp fun {p q} hlt heq => ?_)
  rw [heq] at hlt
  exact Std.OrientedCmp.not_lt_of_lt hlt hlt

theorem get_of_mem {e : Entry V} (he : e ∈ m.entries) : m.get e.name = e.value := by
  unfold get
  cases hfind : m.entries.find? fun q => q.name = e.name with
  | none => simpa using List.find?_eq_none.1 hfind e he
  | some q =>
    have hq : q.name = e.name := by simpa using List.find?_some hfind
    have := List.inj_on_of_nodup_map m.names_nodup (List.mem_of_find?_eq_some hfind) he hq
    rw [this]

theorem get_of_not_mem (h : ∀ e ∈ m.entries, e.name ≠ x) : m.get x = m.default := by
  have hfind : m.entries.find? (fun q => q.name = x) = none := List.find?_eq_none.2 fun e he => by simpa using h e he
  unfold get
  rw [hfind]

/-- The listed values are the default and the values at all names. -/
theorem forall_values {Q : V → Prop} : (∀ v ∈ m.values, Q v) ↔ Q m.default ∧ ∀ x, Q (m.get x) := by
  simp only [values, List.forall_mem_cons, List.forall_mem_map]
  refine and_congr_right fun hdefault => ⟨fun h x => ?_, fun h e he => ?_⟩
  · by_cases hx : ∃ e ∈ m.entries, e.name = x
    · obtain ⟨e, he, rfl⟩ := hx
      rw [get_of_mem he]
      exact h e he
    · rw [get_of_not_mem fun e he hname => hx ⟨e, he, hname⟩]
      exact hdefault
  · rw [← get_of_mem he]
    exact h e.name

theorem mem_entries_iff {e : Entry V} : e ∈ m.entries ↔ m.get e.name = e.value ∧ e.value ≠ m.default := by
  refine ⟨fun he => ⟨get_of_mem he, m.proper e he⟩, fun ⟨hget, hne⟩ => ?_⟩
  by_cases h : ∃ q ∈ m.entries, q.name = e.name
  · obtain ⟨q, hq, hname⟩ := h
    have hvalue : q.value = e.value := by rw [← get_of_mem hq, hname, hget]
    have hqe : q = e := by
      cases q
      cases e
      cases hname
      cases hvalue
      rfl
    exact hqe ▸ hq
  · have hdefault : m.get e.name = m.default := get_of_not_mem fun q hq hname => h ⟨q, hq, hname⟩
    exact absurd (hget.symm.trans hdefault) hne

theorem ext_get {a b : VarMap V} (hdefault : a.default = b.default) (h : ∀ x, a.get x = b.get x) : a = b := by
  have hmem : ∀ e, e ∈ a.entries ↔ e ∈ b.entries := by
    intro e
    rw [mem_entries_iff, mem_entries_iff, h, hdefault]
  have hnodup : ∀ m : VarMap V, m.entries.Nodup := fun m => List.Nodup.of_map _ m.names_nodup
  have hentries : a.entries = b.entries := by
    refine ((List.perm_ext_iff_of_nodup (hnodup a) (hnodup b)).2 hmem).eq_of_pairwise (fun p q _ _ hpq hqp => ?_)
      a.ascending b.ascending
    exact absurd hqp (Std.OrientedCmp.not_lt_of_lt hpq)
  cases a
  cases b
  cases hdefault
  cases hentries
  rfl

theorem find?_putEntry (e : Entry V) {es : List (Entry V)} (h : es.Pairwise fun p q => compare p.name q.name = .lt) :
    (putEntry e es).find? (fun q => q.name = x) = if e.name = x then some e else es.find? fun q => q.name = x := by
  induction es with
  | nil =>
    by_cases hx : e.name = x <;> simp [putEntry, hx]
  | cons q rest ih =>
    obtain ⟨-, hrest⟩ := List.pairwise_cons.1 h
    unfold putEntry
    split
    · by_cases hx : e.name = x <;> simp [hx]
    · next heq =>
      have hname : e.name = q.name := Std.LawfulEqOrd.eq_of_compare heq
      by_cases hx : e.name = x
      · simp [hx]
      · simp [hx, ← hname]
    · next hgt =>
      have hne : q.name = x → e.name ≠ x := by
        rintro rfl hx
        rw [hx] at hgt
        exact absurd hgt (by simp)
      by_cases hq : q.name = x
      · simp [hq, hne hq]
      · simp [hq, ih hrest]

section Set

variable [DecidableEq V]

@[simp] theorem default_set (m : VarMap V) (x : String) (v : V) : (m.set x v).default = m.default := by
  unfold set
  split <;> rfl

theorem get_set (m : VarMap V) (x : String) (v : V) (y : String) :
    (m.set x v).get y = if y = x then v else m.get y := by
  unfold set
  split
  · next hv =>
    by_cases hy : y = x
    · rw [if_pos hy, hv]
      exact get_of_not_mem fun e he hname => by
        have := (List.mem_filter.1 he).2
        simp [hname, hy] at this
    · rw [if_neg hy]
      unfold get
      rw [List.find?_filter]
      congr 2
      funext e
      by_cases he : e.name = y <;> simp [he, hy]
  · unfold get
    simp only [find?_putEntry _ m.ascending]
    by_cases hy : y = x
    · simp [hy]
    · simp [hy, Ne.symm hy]

@[simp] theorem get_set_self (m : VarMap V) (x : String) (v : V) : (m.set x v).get x = v := by
  rw [get_set, if_pos rfl]

theorem get_set_of_ne (m : VarMap V) (v : V) (h : y ≠ x) : (m.set x v).get y = m.get y := by
  rw [get_set, if_neg h]

end Set

end VarMap

/-! ## The order of listing -/

instance {V : Type} [Ord V] [Std.TransOrd V] [Std.LawfulEqOrd V] : Std.LawfulEqOrd (Entry V) where
  eq_of_compare {a b} h := by
    obtain ⟨hname, hvalue⟩ := compareLex_eq_eq.1 h
    have h1 : a.name = b.name := Std.LawfulEqOrd.eq_of_compare hname
    have h2 : a.value = b.value := Std.LawfulEqOrd.eq_of_compare hvalue
    cases a
    cases b
    cases h1
    cases h2
    rfl

instance {V : Type} [Ord V] [Std.TransOrd V] [Std.LawfulEqOrd V] : Std.LawfulEqOrd (VarMap V) where
  eq_of_compare {a b} h := by
    obtain ⟨hdefault, hentries⟩ := compareLex_eq_eq.1 h
    have h1 : a.default = b.default := Std.LawfulEqOrd.eq_of_compare hdefault
    have h2 : a.entries = b.entries := Std.LawfulEqOrd.eq_of_compare hentries
    cases a
    cases b
    cases h1
    cases h2
    rfl

end FlowFacts
