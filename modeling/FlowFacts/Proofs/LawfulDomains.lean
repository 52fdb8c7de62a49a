import Mathlib
import FlowFacts.Domain.Product
import FlowFacts.Parity.Basic
import FlowFacts.Proofs.ReducedForms
import FlowFacts.Proofs.VarMaps

/-!
# Lawful domains

A domain is ordered on some of its elements if comparing two of them reports how they stand in a partial
order, and joins and meets are least upper and greatest lower bounds in it (`Domain.Ordered`). It is lawful
if it also finds out which element is bottom and which is top (`Domain.Lawful`), for instance by comparing
(`Domain.Ordered.lawful`). Parities are lawful, and so are relations as far as they are canonical.

The three ways to build domains keep the laws (`Domain.lawful_constructions`). A map is compared at
finitely many names, but what is found there holds of all names (`VarMap.compareNames_spec`); an
operation on two maps acts on every name (`VarMap.pointwise_spec`). Alternatives are ordered by
inclusion, between a least and a greatest disjunction. A pair is compared half by half.
-/

namespace FlowFacts

/-- A comparison says whether the first element is below the second, and whether it is above. -/
structure Comparison.Reports (c : Comparison) (below above : Prop) : Prop where
  le : c.isLe = true ↔ below
  ge : c.isGe = true ↔ above

namespace Comparison.Reports

variable {c d : Comparison} {p q p' q' : Prop}

theorem not_of_incomparable (h : Reports .incomparable p q) : ¬ p ∧ ¬ q := by
  rw [← h.le, ← h.ge]
  decide

theorem of_not (hp : ¬ p) (hq : ¬ q) : Reports .incomparable p q :=
  ⟨iff_of_false nofun hp, iff_of_false nofun hq⟩

/-- Pairs stand to each other as both of their halves do. -/
theorem combine (h : c.Reports p q) (h' : d.Reports p' q') : (c.combine d).Reports (p ∧ p') (q ∧ q') := by
  obtain ⟨hle, hge⟩ := h
  obtain ⟨hle', hge'⟩ := h'
  constructor
  · rw [← hle, ← hle']
    cases c <;> cases d <;> decide
  · rw [← hge, ← hge']
    cases c <;> cases d <;> decide

theorem congr (h : c.Reports p q) (hp : p ↔ p') (hq : q ↔ q') : c.Reports p' q' :=
  ⟨h.le.trans hp, h.ge.trans hq⟩

end Comparison.Reports

theorem Comparison.Reports.eq_equal_iff {c : Comparison} {p q : Prop} (h : c.Reports p q) : c = .equal ↔ p ∧ q := by
  rw [← h.le, ← h.ge]
  cases c <;> decide

namespace Domain

variable {D : Type} [Domain D]

/-- The domain orders the elements that satisfy `P` by `le`: comparing reports this order, in which
elements that are below each other are the same, bottom is least, top is greatest, and joins and meets
are least upper and greatest lower bounds. -/
structure Ordered (P : D → Prop) (le : D → D → Prop) : Prop where
  refl : ∀ {x}, P x → le x x
  trans : ∀ {x y z}, P x → P y → P z → le x y → le y z → le x z
  antisymm : ∀ {x y}, P x → P y → le x y → le y x → x = y
  compare : ∀ {x y}, P x → P y → ∃ c, Domain.compare x y = .ok c ∧ c.Reports (le x y) (le y x)
  valid_bottom : P Domain.bottom
  bottom_le : ∀ {x}, P x → le Domain.bottom x
  valid_top : P Domain.top
  le_top : ∀ {x}, P x → le x Domain.top
  join : ∀ {x y}, P x → P y → ∃ z, Domain.join x y = .ok z ∧ P z ∧ ∀ {w}, P w → (le z w ↔ le x w ∧ le y w)
  meet : ∀ {x y}, P x → P y → ∃ z, Domain.meet x y = .ok z ∧ P z ∧ ∀ {w}, P w → (le w z ↔ le w x ∧ le w y)

/-- The domain orders the elements that satisfy `P` by `le`, and among them finds out which one is bottom
and which one is top. -/
structure Lawful (P : D → Prop) (le : D → D → Prop) : Prop extends Ordered P le where
  isBottom : ∀ {x}, P x → (Domain.isBottom x = true ↔ x = Domain.bottom)
  isTop : ∀ {x}, P x → (Domain.isTop x = true ↔ x = Domain.top)

variable {P : D → Prop} {le : D → D → Prop}

/-- Elements that compare as equal are equal. -/
theorem Ordered.compare_equal_iff (h : Ordered P le) {x y : D} (hx : P x) (hy : P y) :
    Comparison.ofResult (Domain.compare x y) = .equal ↔ x = y := by
  obtain ⟨c, hc, hreports⟩ := h.compare hx hy
  rw [hc]
  refine hreports.eq_equal_iff.trans ⟨fun hboth => h.antisymm hx hy hboth.1 hboth.2, ?_⟩
  rintro rfl
  exact ⟨h.refl hx, h.refl hx⟩

/-- In an ordered domain, comparing an element with bottom and top finds out whether it is one of them. -/
theorem Ordered.lawful (h : Ordered P le)
    (hbottom : ∀ x : D, Domain.isBottom x = decide (Comparison.ofResult (Domain.compare x Domain.bottom) = .equal))
    (htop : ∀ x : D, Domain.isTop x = decide (Comparison.ofResult (Domain.compare x Domain.top) = .equal)) :
    Lawful P le where
  toOrdered := h
  isBottom {x} hx := by
    rw [hbottom, decide_eq_true_iff]
    exact h.compare_equal_iff hx h.valid_bottom
  isTop {x} hx := by
    rw [htop, decide_eq_true_iff]
    exact h.compare_equal_iff hx h.valid_top

end Domain

/-! ## Parities and relations -/

instance : Std.LawfulEqOrd Parity where
  eq_of_compare {a b} := by cases a <;> cases b <;> decide

namespace Parity

theorem le_refl (p : Parity) : p.le p = true := by cases p <;> rfl

theorem le_trans {p q r : Parity} (hpq : p.le q = true) (hqr : q.le r = true) : p.le r = true := by
  cases p <;> cases q <;> cases r <;> revert hpq hqr <;> decide

theorem le_antisymm {p q : Parity} (hpq : p.le q = true) (hqp : q.le p = true) : p = q := by
  cases p <;> cases q <;> revert hpq hqp <;> decide

theorem le_top (p : Parity) : p.le .top = true := by cases p <;> rfl

theorem reports (p q : Parity) : (p.compare q).Reports (p.le q = true) (q.le p = true) := by
  refine ⟨Iff.rfl, ?_⟩
  cases p <;> cases q <;> decide

theorem ordered : Domain.Ordered (fun _ : Parity => True) (fun p q => p.le q = true) where
  refl {p} _ := le_refl p
  trans _ _ _ := le_trans
  antisymm _ _ := le_antisymm
  compare {p q} _ _ := ⟨_, rfl, reports p q⟩
  valid_bottom := trivial
  bottom_le {p} _ := by cases p <;> rfl
  valid_top := trivial
  le_top {p} _ := le_top p
  join {p q} _ _ := ⟨_, rfl, trivial, fun {w} _ => by cases p <;> cases q <;> cases w <;> decide⟩
  meet {p q} _ _ := ⟨_, rfl, trivial, fun {w} _ => by cases p <;> cases q <;> cases w <;> decide⟩

theorem lawful : Domain.Lawful (fun _ : Parity => True) (fun p q => p.le q = true) :=
  ordered.lawful (fun _ => rfl) fun _ => rfl

end Parity

theorem Relations.lawful (n : Nat) :
    Domain.Lawful (Relations.Canonical n) (fun r s => r.Points n ⊆ s.Points n) where
  refl _ := subset_rfl
  trans _ _ _ := Set.Subset.trans
  antisymm hr hs hrs hsr := eq_of_points_eq hr hs (Set.Subset.antisymm hrs hsr)
  compare hr hs := by
    obtain ⟨c, hc, hle, hge⟩ := compare_spec hr hs
    exact ⟨c, hc, hle, hge⟩
  valid_bottom := trivial
  bottom_le _ := Set.empty_subset _
  valid_top := trivial
  le_top _ := Set.subset_univ _
  join hr hs := by
    obtain ⟨t, ht, hcan, hhull⟩ := join_spec hr hs
    exact ⟨t, ht, hcan, fun _ => hhull.subset_iff⟩
  meet hr hs := by
    obtain ⟨t, ht, hcan, hpts⟩ := meet_spec hr hs
    refine ⟨t, ht, hcan, fun _ => ?_⟩
    rw [hpts]
    exact Set.subset_inter_iff
  isBottom {r} _ := by cases r <;> simp [Domain.isBottom, Relations.isBottom, Domain.bottom]
  isTop {r} _ := by cases r <;> simp [Domain.isTop, Relations.isTop, Domain.top]

/-! ## Maps -/

namespace VarMap

variable {V : Type} {P : V → Prop} {le : V → V → Prop} {a b m : VarMap V}

/-- All values of a map satisfy a property. -/
structure Over (P : V → Prop) (m : VarMap V) : Prop where
  default : P m.default
  get : ∀ x, P (m.get x)

/-- One map is below another at every name. -/
structure Below (le : V → V → Prop) (a b : VarMap V) : Prop where
  default : le a.default b.default
  get : ∀ x, le (a.get x) (b.get x)

theorem mem_names {x : String} : x ∈ a.names b ↔ x ∈ a.entries.map (·.name) ∨ x ∈ b.entries.map (·.name) := by
  rw [names, SortedSet.mem_ofList, List.mem_append]

/-- Two maps have their defaults at the other names. -/
theorem get_of_not_mem_names {x : String} (h : x ∉ a.names b) : a.get x = a.default ∧ b.get x = b.default := by
  rw [mem_names, not_or] at h
  constructor
  · exact get_of_not_mem fun e he hx => h.1 (hx ▸ List.mem_map_of_mem he)
  · exact get_of_not_mem fun e he hx => h.2 (hx ▸ List.mem_map_of_mem he)

/-- What holds of the defaults and of the values at the names of two maps holds of the values at all
names. -/
theorem forall_names {R : V → V → Prop} :
    (R a.default b.default ∧ ∀ x ∈ a.names b, R (a.get x) (b.get x)) ↔
      R a.default b.default ∧ ∀ x, R (a.get x) (b.get x) := by
  refine and_congr_right fun hdefault => ⟨fun h x => ?_, fun h x _ => h x⟩
  by_cases hx : x ∈ a.names b
  · exact h x hx
  · obtain ⟨ha, hb⟩ := get_of_not_mem_names hx
    rwa [ha, hb]

/-- An operation that does not fail on the values of two maps makes the map of its results. -/
theorem pointwise_spec [DecidableEq V] {op : V → V → Except Fault V}
    (hop : ∀ x y, P x → P y → ∃ z, op x y = .ok z) (ha : a.Over P) (hb : b.Over P) :
    ∃ r, pointwise op a b = .ok r ∧ op a.default b.default = .ok r.default ∧
      ∀ x, op (a.get x) (b.get x) = .ok (r.get x) := by
  -- The fold sets the names one after the other and leaves all others as they were.
  have hfold : ∀ (names : List String) (m : VarMap V), ∃ r : VarMap V,
      names.foldlM (fun m x => return m.set x (← op (a.get x) (b.get x))) m = .ok r ∧ r.default = m.default ∧
        (∀ x ∈ names, op (a.get x) (b.get x) = .ok (r.get x)) ∧ ∀ x ∉ names, r.get x = m.get x := by
    intro names
    induction names with
    | nil => exact fun m => ⟨m, rfl, rfl, nofun, fun _ _ => rfl⟩
    | cons y rest ih =>
      intro m
      obtain ⟨v, hv⟩ := hop _ _ (ha.get y) (hb.get y)
      obtain ⟨r, hr, hdefault, hset, hother⟩ := ih (m.set y v)
      refine ⟨r, ?_, by rw [hdefault, default_set], fun x hx => ?_, fun x hx => ?_⟩
      · simp only [List.foldlM_cons, hv, bind, Except.bind, pure, Except.pure]
        exact hr
      · by_cases hrest : x ∈ rest
        · exact hset x hrest
        · obtain rfl := (List.mem_cons.1 hx).resolve_right hrest
          rw [hother x hrest, get_set_self, hv]
      · obtain ⟨hne, hrest⟩ := not_or.1 (mt List.mem_cons.2 hx)
        rw [hother x hrest, get_set_of_ne _ _ hne]
  obtain ⟨v, hv⟩ := hop _ _ ha.default hb.default
  obtain ⟨r, hr, hdefault, hset, hother⟩ := hfold (a.names b) (uniform v)
  refine ⟨r, ?_, by rw [hdefault, hv]; rfl, fun x => ?_⟩
  · simp only [pointwise, hv, bind, Except.bind]
    exact hr
  · by_cases hx : x ∈ a.names b
    · exact hset x hx
    · obtain ⟨hax, hbx⟩ := get_of_not_mem_names hx
      rw [hother x hx, hax, hbx, hv]
      rfl

/-- Comparing goes on from what is known already, and stops only where nothing can change it. -/
theorem compareNames_spec [Domain V]
    (hcompare : ∀ x y, P x → P y → ∃ c, Domain.compare x y = .ok c ∧ c.Reports (le x y) (le y x))
    (ha : a.Over P) (hb : b.Over P) (names : List String) {c : Comparison} {p q : Prop} (hc : c.Reports p q) :
    ∃ d, compareNames a b c names = .ok d ∧
      d.Reports (p ∧ ∀ x ∈ names, le (a.get x) (b.get x)) (q ∧ ∀ x ∈ names, le (b.get x) (a.get x)) := by
  induction names generalizing c p q with
  | nil => exact ⟨c, rfl, hc.congr (by simp) (by simp)⟩
  | cons x rest ih =>
    by_cases hinc : c = .incomparable
    · subst hinc
      refine ⟨.incomparable, by simp [compareNames, pure, Except.pure], ?_⟩
      obtain ⟨hp, hq⟩ := hc.not_of_incomparable
      exact .of_not (fun h => hp h.1) fun h => hq h.1
    · obtain ⟨e, he, hreports⟩ := hcompare _ _ (ha.get x) (hb.get x)
      obtain ⟨d, hd, hall⟩ := ih (hc.combine hreports)
      refine ⟨d, ?_, hall.congr ?_ ?_⟩
      · simp only [compareNames, if_neg hinc, he, bind, Except.bind]
        exact hd
      · rw [List.forall_mem_cons, and_assoc]
      · rw [List.forall_mem_cons, and_assoc]

theorem below_flip : Below (fun u v => le v u) a b ↔ Below le b a :=
  ⟨fun h => ⟨h.default, h.get⟩, fun h => ⟨h.default, h.get⟩⟩

/-- An operation that finds the bounds of two values finds the bounds of two maps. The order may be read
in either direction. -/
theorem pointwise_bounds [DecidableEq V] (le : V → V → Prop) {op : V → V → Except Fault V}
    (hop : ∀ x y, P x → P y → ∃ z, op x y = .ok z ∧ P z ∧ ∀ {w}, P w → (le z w ↔ le x w ∧ le y w)) (ha : a.Over P)
    (hb : b.Over P) :
    ∃ r, pointwise op a b = .ok r ∧ r.Over P ∧
      ∀ {w : VarMap V}, w.Over P → (r.Below le w ↔ a.Below le w ∧ b.Below le w) := by
  have hbound : ∀ {x y z}, P x → P y → op x y = .ok z → P z ∧ ∀ {w}, P w → (le z w ↔ le x w ∧ le y w) := by
    intro x y z hx hy hz
    obtain ⟨z', hz', hspec⟩ := hop x y hx hy
    rwa [Except.ok.inj (hz.symm.trans hz')]
  obtain ⟨r, hr, hdefault, hget⟩ := pointwise_spec (fun x y hx hy => (hop x y hx hy).imp fun _ => And.left) ha hb
  obtain ⟨hvalid, hbounds⟩ := hbound ha.default hb.default hdefault
  have hnames := fun x => hbound (ha.get x) (hb.get x) (hget x)
  refine ⟨r, hr, ⟨hvalid, fun x => (hnames x).1⟩, fun {w} hw => ⟨fun hle => ⟨?_, ?_⟩, fun hle => ?_⟩⟩
  · exact ⟨((hbounds hw.default).1 hle.default).1, fun x => (((hnames x).2 (hw.get x)).1 (hle.get x)).1⟩
  · exact ⟨((hbounds hw.default).1 hle.default).2, fun x => (((hnames x).2 (hw.get x)).1 (hle.get x)).2⟩
  · exact ⟨(hbounds hw.default).2 ⟨hle.1.default, hle.2.default⟩,
      fun x => ((hnames x).2 (hw.get x)).2 ⟨hle.1.get x, hle.2.get x⟩⟩

theorem ordered [DecidableEq V] [Domain V] (h : Domain.Ordered P le) : Domain.Ordered (Over P) (Below le) where
  refl ha := ⟨h.refl ha.default, fun x => h.refl (ha.get x)⟩
  trans ha hb hc hab hbc := ⟨h.trans ha.default hb.default hc.default hab.default hbc.default,
    fun x => h.trans (ha.get x) (hb.get x) (hc.get x) (hab.get x) (hbc.get x)⟩
  antisymm ha hb hab hba := ext_get (h.antisymm ha.default hb.default hab.default hba.default)
    fun x => h.antisymm (ha.get x) (hb.get x) (hab.get x) (hba.get x)
  compare {a b} ha hb := by
    obtain ⟨c, hc, hreports⟩ := h.compare ha.default hb.default
    obtain ⟨d, hd, hall⟩ := compareNames_spec (fun _ _ => h.compare) ha hb (a.names b) hreports
    refine ⟨d, ?_, hall.congr (forall_names.trans ?_) ((forall_names (R := fun u v => le v u)).trans ?_)⟩
    · simp only [Domain.compare, hc, bind, Except.bind]
      exact hd
    · exact ⟨fun hab => ⟨hab.1, hab.2⟩, fun hab => ⟨hab.default, hab.get⟩⟩
    · exact ⟨fun hba => ⟨hba.1, hba.2⟩, fun hba => ⟨hba.default, hba.get⟩⟩
  valid_bottom := ⟨h.valid_bottom, fun _ => h.valid_bottom⟩
  bottom_le ha := ⟨h.bottom_le ha.default, fun x => h.bottom_le (ha.get x)⟩
  valid_top := ⟨h.valid_top, fun _ => h.valid_top⟩
  le_top ha := ⟨h.le_top ha.default, fun x => h.le_top (ha.get x)⟩
  join ha hb := pointwise_bounds le (fun _ _ => h.join) ha hb
  meet ha hb := by
    obtain ⟨m, hm, hvalid, hbounds⟩ := pointwise_bounds (fun u v => le v u) (fun _ _ => h.meet) ha hb
    exact ⟨m, hm, hvalid, fun hw => by simpa only [below_flip] using hbounds hw⟩

theorem lawful [DecidableEq V] [Domain V] (h : Domain.Lawful P le) : Domain.Lawful (Over P) (Below le) :=
  (ordered h.toOrdered).lawful (fun _ => rfl) fun _ => rfl

end VarMap

/-! ## Alternatives -/

namespace Disjunction

variable {T : Type} [Ord T] {P : T → Prop} {le : T → T → Prop} {d e : Disjunction T}

/-- Bottom, top, or some alternatives of which none is bottom or top. -/
def Normalized [Domain T] (P : T → Prop) : Disjunction T → Prop
  | bottom => True
  | top => True
  | any members => members.toList ≠ [] ∧ ∀ x ∈ members.toList, P x ∧ x ≠ Domain.bottom ∧ x ≠ Domain.top

/-- The set of alternatives. Top is above all sets. -/
def extent : Disjunction T → WithTop (Set T)
  | bottom => ((∅ : Set T) : WithTop (Set T))
  | top => ⊤
  | any members => ({x | x ∈ members.toList} : Set T)

theorem extent_bottom_le (d : Disjunction T) : (bottom : Disjunction T).extent ≤ d.extent := by
  cases d with
  | bottom => exact le_rfl
  | top => exact le_top
  | any a => exact WithTop.coe_le_coe.2 (Set.empty_subset _)

theorem extent_join [Std.TransOrd T] [Std.LawfulEqOrd T] (d e : Disjunction T) :
    (join d e).extent = d.extent ⊔ e.extent := by
  cases d with
  | bottom =>
    have hjoin : join bottom e = e := by cases e <;> rfl
    rw [hjoin, sup_eq_right.2 (extent_bottom_le e)]
  | top => exact (top_sup_eq _).symm
  | any a =>
    cases e with
    | bottom => exact (sup_eq_left.2 (extent_bottom_le _)).symm
    | top => exact (sup_top_eq _).symm
    | any b =>
      refine congrArg WithTop.some (Set.ext fun x => ?_)
      exact SortedSet.mem_union

section Normalized

variable [Domain T]

theorem Normalized.exists_mem {a : SortedSet T} (h : Normalized P (any a)) : ∃ x, x ∈ a.toList :=
  List.exists_mem_of_ne_nil _ h.1

/-- Normalized disjunctions are determined by their alternatives. -/
theorem eq_of_extent_eq [Std.TransOrd T] (hd : d.Normalized P) (he : e.Normalized P) (h : d.extent = e.extent) :
    d = e := by
  have hempty : ∀ {a : SortedSet T}, Normalized P (any a) → {x | x ∈ a.toList} ≠ (∅ : Set T) := fun ha =>
    Set.nonempty_iff_ne_empty.1 ha.exists_mem
  cases d with
  | bottom =>
    cases e with
    | bottom => rfl
    | top => exact absurd h (WithTop.coe_ne_top)
    | any b => exact absurd (WithTop.coe_inj.1 h).symm (hempty he)
  | top =>
    cases e with
    | bottom => exact absurd h.symm (WithTop.coe_ne_top)
    | top => rfl
    | any b => exact absurd h.symm (WithTop.coe_ne_top)
  | any a =>
    cases e with
    | bottom => exact absurd (WithTop.coe_inj.1 h) (hempty hd)
    | top => exact absurd h (WithTop.coe_ne_top)
    | any b => exact congrArg any (SortedSet.ext_mem fun x => Set.ext_iff.1 (WithTop.coe_inj.1 h) x)

theorem compare_reports [Std.TransOrd T] [DecidableEq T] (hd : d.Normalized P) (he : e.Normalized P) :
    (compare d e).Reports (d.extent ≤ e.extent) (e.extent ≤ d.extent) := by
  have hnot : ∀ {a : SortedSet T}, Normalized P (any a) → ¬ (any a).extent ≤ (bottom : Disjunction T).extent := by
    intro a ha hle
    obtain ⟨x, hx⟩ := ha.exists_mem
    exact WithTop.coe_le_coe.1 hle hx
  have htop : ∀ {s : Set T}, ¬ (top : Disjunction T).extent ≤ (s : WithTop (Set T)) := fun hle =>
    WithTop.coe_ne_top (top_le_iff.1 hle)
  cases d with
  | bottom =>
    cases e with
    | bottom => exact ⟨iff_of_true rfl le_rfl, iff_of_true rfl le_rfl⟩
    | top => exact ⟨iff_of_true rfl le_top, iff_of_false nofun htop⟩
    | any b => exact ⟨iff_of_true rfl (extent_bottom_le _), iff_of_false nofun (hnot he)⟩
  | top =>
    cases e with
    | bottom => exact ⟨iff_of_false nofun htop, iff_of_true rfl le_top⟩
    | top => exact ⟨iff_of_true rfl le_rfl, iff_of_true rfl le_rfl⟩
    | any b => exact ⟨iff_of_false nofun htop, iff_of_true rfl le_top⟩
  | any a =>
    cases e with
    | bottom => exact ⟨iff_of_false nofun (hnot hd), iff_of_true rfl (extent_bottom_le _)⟩
    | top => exact ⟨iff_of_true rfl le_top, iff_of_false nofun htop⟩
    | any b =>
      have hsub : ∀ {a b : SortedSet T}, (any a).extent ≤ (any b).extent ↔ a.isSubset b = true := fun {a b} =>
        WithTop.coe_le_coe.trans SortedSet.isSubset_iff.symm
      have hboth : a.isSubset b = true → b.isSubset a = true → a = b := fun hab hba =>
        any.inj (eq_of_extent_eq hd he (le_antisymm (hsub.2 hab) (hsub.2 hba)))
      rw [hsub, hsub, compare]
      split
      · next hab =>
        have hself : a.isSubset a = true := SortedSet.isSubset_iff.2 (List.Subset.refl _)
        exact ⟨iff_of_true rfl (hab ▸ hself), iff_of_true rfl (hab ▸ hself)⟩
      · next hne =>
        split
        · next hab => exact ⟨iff_of_true rfl hab, iff_of_false nofun fun hba => hne (hboth hab hba)⟩
        · next hab =>
          split
          · next hba => exact ⟨iff_of_false nofun hab, iff_of_true rfl hba⟩
          · next hba => exact .of_not hab hba

variable [Std.TransOrd T] [Std.LawfulEqOrd T]

theorem normalized_join (hd : d.Normalized P) (he : e.Normalized P) : (join d e).Normalized P := by
  cases d with
  | bottom => cases e <;> exact he
  | top => trivial
  | any a =>
    cases e with
    | bottom => exact hd
    | top => trivial
    | any b =>
      obtain ⟨x, hx⟩ := hd.exists_mem
      refine ⟨List.ne_nil_of_mem (SortedSet.mem_union.2 (.inl hx)), fun y hy => ?_⟩
      exact (SortedSet.mem_union.1 hy).elim (hd.2 y) (he.2 y)

/-- Alternatives of which none is bottom or top are all listed. -/
theorem ofDisjuncts_spec (h : Domain.Lawful P le) {xs : List T}
    (hxs : ∀ x ∈ xs, P x ∧ x ≠ Domain.bottom ∧ x ≠ Domain.top) :
    (ofDisjuncts xs).Normalized P ∧ (ofDisjuncts xs).extent = ({x | x ∈ xs} : Set T) := by
  have htop : xs.any Domain.isTop = false := by
    refine List.any_eq_false.2 fun x hx htrue => ?_
    exact (hxs x hx).2.2 ((h.isTop (hxs x hx).1).1 htrue)
  have hself : xs.filter (fun x => !Domain.isBottom x) = xs := by
    refine List.filter_eq_self.2 fun x hx => ?_
    rw [Bool.not_eq_true', Bool.eq_false_iff]
    exact fun htrue => (hxs x hx).2.1 ((h.isBottom (hxs x hx).1).1 htrue)
  have hmem : ({x | x ∈ (SortedSet.ofList xs).toList} : Set T) = {x | x ∈ xs} := Set.ext fun x => SortedSet.mem_ofList
  simp only [ofDisjuncts, htop, hself, Bool.false_eq_true, if_false]
  split
  · next hempty =>
    have hnil : (SortedSet.ofList xs).toList = [] := List.isEmpty_iff.1 hempty
    refine ⟨trivial, ?_⟩
    rw [← hmem, hnil]
    exact congrArg WithTop.some (Set.ext fun x => by simp)
  · next hempty =>
    refine ⟨⟨fun hnil => hempty (List.isEmpty_iff.2 hnil), fun x hx => hxs x (SortedSet.mem_ofList.1 hx)⟩, ?_⟩
    exact congrArg WithTop.some hmem

variable [DecidableEq T]

theorem meet_spec (h : Domain.Lawful P le) (hd : d.Normalized P) (he : e.Normalized P) :
    (meet d e).Normalized P ∧ (meet d e).extent = d.extent ⊓ e.extent := by
  cases d with
  | bottom =>
    have hmeet : meet bottom e = bottom := by cases e <;> rfl
    rw [hmeet, inf_eq_left.2 (extent_bottom_le e)]
    exact ⟨trivial, rfl⟩
  | top =>
    have hmeet : meet top e = e := by cases e <;> rfl
    rw [hmeet]
    exact ⟨he, (top_inf_eq _).symm⟩
  | any a =>
    cases e with
    | bottom => exact ⟨trivial, (inf_eq_right.2 (extent_bottom_le _)).symm⟩
    | top => exact ⟨hd, (inf_top_eq _).symm⟩
    | any b =>
      have hmembers : ∀ x ∈ (a.inter b).toList, P x ∧ x ≠ Domain.bottom ∧ x ≠ Domain.top := fun x hx =>
        hd.2 x (SortedSet.mem_inter.1 hx).1
      obtain ⟨hnormal, hextent⟩ := ofDisjuncts_spec h hmembers
      refine ⟨hnormal, hextent.trans (congrArg WithTop.some (Set.ext fun x => ?_))⟩
      exact SortedSet.mem_inter

theorem lawful (h : Domain.Lawful P le) :
    Domain.Lawful (Normalized P) fun d e : Disjunction T => d.extent ≤ e.extent where
  refl _ := le_rfl
  trans _ _ _ := le_trans
  antisymm hd he hde hed := eq_of_extent_eq hd he (le_antisymm hde hed)
  compare hd he := ⟨_, rfl, compare_reports hd he⟩
  valid_bottom := trivial
  bottom_le {d} _ := extent_bottom_le d
  valid_top := trivial
  le_top _ := le_top
  join {d e} hd he := by
    refine ⟨_, rfl, normalized_join hd he, fun _ => ?_⟩
    rw [extent_join]
    exact sup_le_iff
  meet hd he := by
    obtain ⟨hnormal, hextent⟩ := meet_spec h hd he
    refine ⟨_, rfl, hnormal, fun _ => ?_⟩
    rw [hextent]
    exact le_inf_iff
  isBottom {d} _ := by cases d <;> simp [Domain.isBottom, isBottom, Domain.bottom]
  isTop {d} _ := by cases d <;> simp [Domain.isTop, isTop, Domain.top]

end Normalized

end Disjunction

/-! ## Pairs -/

namespace Product

variable {A B : Type} [Domain A] [Domain B] {P : A → Prop} {Q : B → Prop} {le : A → A → Prop} {le' : B → B → Prop}

theorem ordered (h : Domain.Ordered P le) (h' : Domain.Ordered Q le') :
    Domain.Ordered (fun x : A × B => P x.1 ∧ Q x.2) (fun x y => le x.1 y.1 ∧ le' x.2 y.2) where
  refl hx := ⟨h.refl hx.1, h'.refl hx.2⟩
  trans hx hy hz hxy hyz := ⟨h.trans hx.1 hy.1 hz.1 hxy.1 hyz.1, h'.trans hx.2 hy.2 hz.2 hxy.2 hyz.2⟩
  antisymm hx hy hxy hyx :=
    Prod.ext (h.antisymm hx.1 hy.1 hxy.1 hyx.1) (h'.antisymm hx.2 hy.2 hxy.2 hyx.2)
  compare hx hy := by
    obtain ⟨c, hc, hreports⟩ := h.compare hx.1 hy.1
    obtain ⟨d, hd, hreports'⟩ := h'.compare hx.2 hy.2
    simp only [Domain.compare, Product.compare, hc, hd, bind, Except.bind, pure, Except.pure]
    by_cases hinc : c = .incomparable
    · subst hinc
      obtain ⟨hle, hge⟩ := hreports.not_of_incomparable
      rw [if_pos rfl]
      exact ⟨_, rfl, .of_not (fun hxy => hle hxy.1) fun hyx => hge hyx.1⟩
    · rw [if_neg hinc]
      exact ⟨_, rfl, hreports.combine hreports'⟩
  valid_bottom := ⟨h.valid_bottom, h'.valid_bottom⟩
  bottom_le hx := ⟨h.bottom_le hx.1, h'.bottom_le hx.2⟩
  valid_top := ⟨h.valid_top, h'.valid_top⟩
  le_top hx := ⟨h.le_top hx.1, h'.le_top hx.2⟩
  join hx hy := by
    obtain ⟨z, hz, hvalid, hbounds⟩ := h.join hx.1 hy.1
    obtain ⟨z', hz', hvalid', hbounds'⟩ := h'.join hx.2 hy.2
    simp only [Domain.join, Product.join, hz, hz', bind, Except.bind, pure, Except.pure]
    refine ⟨_, rfl, ⟨hvalid, hvalid'⟩, fun hw => ?_⟩
    rw [hbounds hw.1, hbounds' hw.2]
    exact and_and_and_comm
  meet hx hy := by
    obtain ⟨z, hz, hvalid, hbounds⟩ := h.meet hx.1 hy.1
    obtain ⟨z', hz', hvalid', hbounds'⟩ := h'.meet hx.2 hy.2
    simp only [Domain.meet, Product.meet, hz, hz', bind, Except.bind, pure, Except.pure]
    refine ⟨_, rfl, ⟨hvalid, hvalid'⟩, fun hw => ?_⟩
    rw [hbounds hw.1, hbounds' hw.2]
    exact and_and_and_comm

theorem lawful (h : Domain.Lawful P le) (h' : Domain.Lawful Q le') :
    Domain.Lawful (fun x : A × B => P x.1 ∧ Q x.2) (fun x y => le x.1 y.1 ∧ le' x.2 y.2) :=
  (ordered h.toOrdered h'.toOrdered).lawful (fun _ => rfl) fun _ => rfl

end Product

/-! ## All constructions -/

/-- Maps into a lawful domain are lawful, and their joins and meets are those of the values at every name.
Disjunctions of elements of a lawful domain are lawful as far as they are normalized, and so are pairs of
elements of two lawful domains. -/
theorem Domain.lawful_constructions {V W : Type} [DecidableEq V] [Domain V] [Domain W] {P : V → Prop} {Q : W → Prop}
    {le : V → V → Prop} {le' : W → W → Prop} (h : Domain.Lawful P le) (h' : Domain.Lawful Q le') :
    (Domain.Lawful (VarMap.Over P) (VarMap.Below le) ∧
      ∀ a b : VarMap V, a.Over P → b.Over P → ∃ j m, Domain.join a b = .ok j ∧ Domain.meet a b = .ok m ∧
        ∀ x, Domain.join (a.get x) (b.get x) = .ok (j.get x) ∧ Domain.meet (a.get x) (b.get x) = .ok (m.get x)) ∧
    (∀ [Ord V] [Std.TransOrd V] [Std.LawfulEqOrd V],
      Domain.Lawful (Disjunction.Normalized P) fun d e : Disjunction V => d.extent ≤ e.extent) ∧
    Domain.Lawful (fun x : V × W => P x.1 ∧ Q x.2) fun x y => le x.1 y.1 ∧ le' x.2 y.2 := by
  refine ⟨⟨VarMap.lawful h, fun a b ha hb => ?_⟩, Disjunction.lawful h, Product.lawful h h'⟩
  obtain ⟨j, hj, -, hjoin⟩ := VarMap.pointwise_spec (fun _ _ hx hy => (h.join hx hy).imp fun _ => And.left) ha hb
  obtain ⟨m, hm, -, hmeet⟩ := VarMap.pointwise_spec (fun _ _ hx hy => (h.meet hx hy).imp fun _ => And.left) ha hb
  exact ⟨j, m, hj, hm, fun x => ⟨hjoin x, hmeet x⟩⟩

/-- A map that says that `x` is even and a map that says that `y` is odd. -/
theorem Domain.lawful_constructions_parities :
    Domain.Lawful (fun _ : Parity => True) (fun p q => p.le q = true) ∧
    Domain.Lawful (Relations.Canonical 2) (fun r s => r.Points 2 ⊆ s.Points 2) ∧
    Domain.Lawful (VarMap.Over fun _ : Parity => True) (VarMap.Below fun p q => p.le q = true) ∧
    Domain.Lawful (Disjunction.Normalized fun _ : Parity => True) (fun d e => d.extent ≤ e.extent) ∧
    Domain.Lawful (fun x : Parity × Relations => True ∧ x.2.Canonical 2)
      (fun x y => x.1.le y.1 = true ∧ x.2.Points 2 ⊆ y.2.Points 2) ∧
    ∃ j m, Domain.join ((VarMap.uniform Parity.top).set "x" .even) ((VarMap.uniform Parity.top).set "y" .odd) = .ok j ∧
      Domain.meet ((VarMap.uniform Parity.top).set "x" .even) ((VarMap.uniform Parity.top).set "y" .odd) = .ok m ∧
      j.get "x" = .top ∧ j.get "y" = .top ∧ m.get "x" = .even ∧ m.get "y" = .odd := by
  obtain ⟨⟨hmaps, hnames⟩, hdisjunctions, hpairs⟩ := Domain.lawful_constructions Parity.lawful (Relations.lawful 2)
  obtain ⟨j, m, hj, hm, hget⟩ := hnames ((VarMap.uniform Parity.top).set "x" .even)
    ((VarMap.uniform Parity.top).set "y" .odd) ⟨trivial, fun _ => trivial⟩ ⟨trivial, fun _ => trivial⟩
  refine ⟨Parity.lawful, Relations.lawful 2, hmaps, hdisjunctions, hpairs, j, m, hj, hm, ?_, ?_, ?_, ?_⟩
  · exact (Except.ok.inj (hget "x").1).symm
  · exact (Except.ok.inj (hget "y").1).symm
  · exact (Except.ok.inj (hget "x").2).symm
  · exact (Except.ok.inj (hget "y").2).symm

end FlowFacts
