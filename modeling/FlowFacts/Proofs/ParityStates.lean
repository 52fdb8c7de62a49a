import Mathlib
import FlowFacts.Proofs.ParityMaps

/-!
# Alternatives of parities

A state is covered by another if each of its alternatives is below one of the other's
(`ParityState.Covered`). Joins are least upper bounds in this order. Reducing a list of maps keeps the
largest ones (`ParityState.mem_kept`), which cover the list and depend on nothing but what it covers
(`ParityState.reduce_congr`).
-/

namespace FlowFacts

/-- A map that says nothing of names other than the given ones. -/
structure ParityMap.Confined (names : List String) (m : ParityMap) : Prop where
  default : m.default = .top
  other : ∀ x, x ∉ names → m.get x = .top

/-- The maps that a run over some variables passes through: every parity in them is that of some
number. -/
structure ParityMap.Proper (names : List String) (m : ParityMap) : Prop extends m.Confined names where
  live : ∀ x, m.get x ≠ .bottom

namespace ParityMap

variable {names : List String} {m n : ParityMap}

theorem hasBottom_of_le (h : m ≤ n) (hm : m.hasBottom = false) : n.hasBottom = false := by
  obtain ⟨hd, hx⟩ := le_def.1 h
  obtain ⟨hdb, hxb⟩ := hasBottom_eq_false.1 hm
  have hbottom : ∀ {p q : Parity}, p.le q = true → p ≠ .bottom → q ≠ .bottom := by
    rintro p q hpq hp rfl
    cases p <;> first | exact hp rfl | cases hpq
  exact hasBottom_eq_false.2 ⟨hbottom hd hdb, fun x => hbottom (hx x) (hxb x)⟩

theorem Confined.proper (h : m.Confined names) (hlive : m.hasBottom = false) : m.Proper names :=
  ⟨h, (hasBottom_eq_false.1 hlive).2⟩

/-- A map that contains a store has no parity that no number has, its default apart. -/
theorem hasBottom_of_contains (hdefault : m.default ≠ .bottom) {s : Store} (hs : m.Contains s) : m.hasBottom = false :=
  hasBottom_eq_false.2 ⟨hdefault, fun x => Parity.ne_bottom_of_contains (hs x)⟩

theorem Proper.hasBottom (h : m.Proper names) : m.hasBottom = false := by
  refine hasBottom_eq_false.2 ⟨?_, h.live⟩
  rw [h.default]
  nofun

instance : Finite Parity :=
  Set.finite_univ_iff.1 ((Set.toFinite {.bottom, .even, .odd, .top}).subset fun p _ => by cases p <;> simp)

/-- There are finitely many maps over some variables, since a map is what it says of each of them. -/
instance (names : List String) : Finite {m : ParityMap // m.Proper names} := by
  refine Finite.of_injective (fun m (i : Fin names.length) => m.1.get names[i]) fun m n h => ?_
  refine Subtype.ext (VarMap.ext_get (m.2.default.trans n.2.default.symm) fun x => ?_)
  by_cases hx : x ∈ names
  · obtain ⟨i, hi, rfl⟩ := List.getElem_of_mem hx
    exact congrFun h ⟨i, hi⟩
  · rw [m.2.other x hx, n.2.other x hx]

end ParityMap

namespace ParityState

variable {d e : ParityState} {m : ParityMap} {maps others : List ParityMap}

/-- The states that a run over some variables passes through. -/
def Proper (names : List String) (d : ParityState) : Prop := ∀ m ∈ d.expand, ParityMap.Proper names m

/-- No alternative has a parity that no number has, its default included. -/
def Live (d : ParityState) : Prop := ∀ m ∈ d.expand, m.hasBottom = false

theorem Proper.live {names : List String} (h : d.Proper names) : d.Live := fun m hm => (h m hm).hasBottom

/-- Each alternative of one state is below an alternative of the other. -/
def Covered (d e : ParityState) : Prop := ∀ m ∈ d.expand, ∃ k ∈ e.expand, m ≤ k

theorem Covered.refl (d : ParityState) : d.Covered d := fun m hm => ⟨m, hm, le_rfl⟩

theorem Covered.trans {d e f : ParityState} (hde : d.Covered e) (hef : e.Covered f) : d.Covered f := by
  intro m hm
  obtain ⟨k, hk, hmk⟩ := hde m hm
  obtain ⟨l, hl, hkl⟩ := hef k hk
  exact ⟨l, hl, hmk.trans hkl⟩

theorem Covered.contains (h : d.Covered e) {s : Store} (hd : d.Contains s) : e.Contains s := by
  obtain ⟨m, hm, hs⟩ := hd
  obtain ⟨k, hk, hmk⟩ := h m hm
  exact ⟨k, hk, ParityMap.contains_mono hmk hs⟩

theorem covered_top (d : ParityState) : d.Covered .top := fun m _ => ⟨_, List.mem_singleton.2 rfl, ParityMap.le_top m⟩

/-! ## Listing and reducing alternatives -/

theorem mem_of_mem_ofDisjuncts (h : m ∈ (Disjunction.ofDisjuncts maps).expand) : m ∈ maps := by
  unfold Disjunction.ofDisjuncts at h
  split at h
  · next htop =>
    obtain ⟨k, hk, hkt⟩ := List.any_eq_true.1 htop
    rw [ParityMap.isTop_iff.1 hkt] at hk
    rwa [List.mem_singleton.1 h]
  · dsimp only at h
    split at h
    · cases h
    · exact (List.mem_filter.1 (SortedSet.mem_ofList.1 h)).1

theorem covered_ofDisjuncts (hm : m ∈ maps) (hlive : m.hasBottom = false) :
    ∃ k ∈ (Disjunction.ofDisjuncts maps).expand, m ≤ k := by
  unfold Disjunction.ofDisjuncts
  split
  · exact ⟨_, List.mem_singleton.2 rfl, ParityMap.le_top m⟩
  · have hbottom : Domain.isBottom m = false := by
      refine Bool.eq_false_iff.2 fun h => (ParityMap.hasBottom_eq_false.1 hlive).1 ?_
      rw [(ParityMap.lawful.isBottom (ParityMap.over_true m)).1 h]
      rfl
    have hmem : m ∈ (SortedSet.ofList (maps.filter fun x => !Domain.isBottom x)).toList :=
      SortedSet.mem_ofList.2 (List.mem_filter.2 ⟨hm, by rw [hbottom]; rfl⟩)
    dsimp only
    split
    · next hempty =>
      rw [List.isEmpty_iff.1 hempty] at hmem
      cases hmem
    · exact ⟨m, hmem, le_rfl⟩

/-- The maps that `reduce` keeps. -/
def kept (maps : List ParityMap) : List ParityMap :=
  let live := (SortedSet.ofList (maps.filter fun m => !ParityMap.hasBottom m)).toList
  live.filter fun m => !live.any fun e => e ≠ m && ParityMap.le m e

theorem reduce_eq (maps : List ParityMap) : reduce maps = .ofDisjuncts (kept maps) := rfl

/-- They are the largest of those that describe a store. -/
theorem mem_kept : m ∈ kept maps ↔ Maximal (fun m => m ∈ maps ∧ m.hasBottom = false) m := by
  have hlive : ∀ k, k ∈ (SortedSet.ofList (maps.filter fun m => !ParityMap.hasBottom m)).toList ↔
      k ∈ maps ∧ k.hasBottom = false := by
    intro k
    rw [SortedSet.mem_ofList, List.mem_filter, Bool.not_eq_true']
  simp only [kept, List.mem_filter, hlive, Bool.not_eq_true', List.any_eq_false, Bool.and_eq_true, decide_eq_true_eq,
    not_and, Maximal]
  refine and_congr_right fun _ => forall₂_congr fun k _ => ?_
  constructor
  · intro h hmk
    by_contra hn
    refine h (fun heq => hn ?_) hmk
    rw [heq]
  · intro h hne hmk
    exact hne (le_antisymm (h hmk) hmk)

theorem mem_of_mem_reduce (h : m ∈ (reduce maps).expand) : m ∈ maps ∧ m.hasBottom = false :=
  (mem_kept.1 (mem_of_mem_ofDisjuncts h)).prop

theorem covered_reduce (hm : m ∈ maps) (hlive : m.hasBottom = false) : ∃ k ∈ (reduce maps).expand, m ≤ k := by
  have hfinite : {m | m ∈ maps ∧ m.hasBottom = false}.Finite := (List.finite_toSet maps).subset fun _ h => h.1
  obtain ⟨k, hmk, hmax⟩ := hfinite.exists_le_maximal ⟨hm, hlive⟩
  obtain ⟨l, hl, hkl⟩ := covered_ofDisjuncts (mem_kept.2 hmax) hmax.prop.2
  exact ⟨l, hl, hmk.trans hkl⟩

/-- If each element of a kind is below one of another kind and the other way round, the largest ones are
the same. -/
theorem maximal_of_cofinal {α : Type} [PartialOrder α] {P Q : α → Prop} (hPQ : ∀ x, P x → ∃ y, Q y ∧ x ≤ y)
    (hQP : ∀ y, Q y → ∃ x, P x ∧ y ≤ x) {x : α} (h : Maximal P x) : Maximal Q x := by
  have hback : ∀ y, Q y → x ≤ y → y ≤ x := by
    intro y hy hxy
    obtain ⟨z, hz, hyz⟩ := hQP y hy
    exact hyz.trans (h.2 hz (hxy.trans hyz))
  obtain ⟨y, hy, hxy⟩ := hPQ x h.prop
  obtain rfl : x = y := le_antisymm hxy (hback y hy hxy)
  exact ⟨hy, hback⟩

/-- Lists that cover each other are reduced to the same state. -/
theorem reduce_congr (h : ∀ m ∈ maps, m.hasBottom = false → ∃ k ∈ others, m ≤ k)
    (h' : ∀ m ∈ others, m.hasBottom = false → ∃ k ∈ maps, m ≤ k) : reduce maps = reduce others := by
  have hascending : ∀ ms : List ParityMap, Ascending (kept ms) := fun ms => (SortedSet.ascending _).filter _
  have hcofinal : ∀ {ms ns : List ParityMap}, (∀ m ∈ ms, m.hasBottom = false → ∃ k ∈ ns, m ≤ k) →
      ∀ m, m ∈ ms ∧ m.hasBottom = false → ∃ k, (k ∈ ns ∧ k.hasBottom = false) ∧ m ≤ k := by
    rintro ms ns hcover m ⟨hm, hlive⟩
    obtain ⟨k, hk, hmk⟩ := hcover m hm hlive
    exact ⟨k, ⟨hk, ParityMap.hasBottom_of_le hmk hlive⟩, hmk⟩
  have hkept : kept maps = kept others := by
    refine (hascending maps).eq_of_mem_iff (hascending others) fun m => ?_
    rw [mem_kept, mem_kept]
    exact ⟨maximal_of_cofinal (hcofinal h) (hcofinal h'), maximal_of_cofinal (hcofinal h') (hcofinal h)⟩
  rw [reduce_eq, reduce_eq, hkept]

theorem mapDisjuncts_eq (f : ParityMap → List ParityMap) (s : ParityState) :
    s.mapDisjuncts f = reduce (s.expand.flatMap f) := by
  cases s <;> rfl

/-! ## Joining and comparing -/

theorem mem_of_mem_join (h : m ∈ (Disjunction.join d e).expand) : m ∈ d.expand ∨ m ∈ e.expand := by
  cases d with
  | bottom => cases e <;> exact .inr h
  | top => exact .inl h
  | any a =>
    cases e with
    | bottom => exact .inl h
    | top => exact .inr h
    | any b => exact SortedSet.mem_union.1 h

theorem covered_join_left (d e : ParityState) : d.Covered (Disjunction.join d e) := by
  cases d with
  | bottom => exact nofun
  | top => exact Covered.refl _
  | any a =>
    cases e with
    | bottom => exact Covered.refl _
    | top => exact covered_top _
    | any b => exact fun m hm => ⟨m, SortedSet.mem_union.2 (.inl hm), le_rfl⟩

theorem covered_join_right (d e : ParityState) : e.Covered (Disjunction.join d e) := by
  cases d with
  | bottom => cases e <;> exact Covered.refl _
  | top => exact covered_top _
  | any a =>
    cases e with
    | bottom => exact nofun
    | top => exact Covered.refl _
    | any b => exact fun m hm => ⟨m, SortedSet.mem_union.2 (.inr hm), le_rfl⟩

theorem join_covered_iff {f : ParityState} : Covered (Disjunction.join d e) f ↔ d.Covered f ∧ e.Covered f := by
  constructor
  · exact fun h => ⟨(covered_join_left d e).trans h, (covered_join_right d e).trans h⟩
  · rintro ⟨hd, he⟩ m hm
    rcases mem_of_mem_join hm with hm | hm
    · exact hd m hm
    · exact he m hm

theorem compare_eq_equal : Disjunction.compare d e = .equal ↔ d = e := by
  cases d with
  | bottom => cases e <;> simp [Disjunction.compare]
  | top => cases e <;> simp [Disjunction.compare]
  | any a =>
    cases e with
    | bottom => simp [Disjunction.compare]
    | top => simp [Disjunction.compare]
    | any b =>
      by_cases hab : a = b
      · simp [Disjunction.compare, hab]
      · simp only [Disjunction.compare, Disjunction.any.injEq, hab, if_false, iff_false]
        split
        · simp
        · split <;> simp

end ParityState

end FlowFacts
