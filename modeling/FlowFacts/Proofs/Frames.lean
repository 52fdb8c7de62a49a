import Mathlib
import FlowFacts.Proofs.RationalMeaning
import FlowFacts.Proofs.Relations

/-!
# Variables as columns

The names of a frame are all different, so a variable has one column (`Frame.HasColumn`) and the point
of a store has the variable's value there. `Frame.contains_iff` turns what equations say of a store
into membership of its point. The equations that statements and sums give rise to allow the points at
which they hold: `Frame.valueEquation_spec` for `x = value`, `Frame.sumEquation_spec` for equal sums.
-/

namespace FlowFacts

namespace Frame

variable {f : Frame} {x u : String} {c d : Nat}

/-! ## Columns -/

theorem getElem?_of_lastIndex? {names : List String} {i : Nat} (h : lastIndex? x names = some i) :
    names[i]? = some x := by
  induction names generalizing i with
  | nil => cases h
  | cons v rest ih =>
    rw [lastIndex?] at h
    split at h
    · next j hj =>
      obtain rfl := Option.some.inj h
      exact ih hj
    · split at h
      · next hv =>
        obtain rfl := Option.some.inj h
        rw [hv, List.getElem?_cons_zero]
      · cases h

theorem exists_lastIndex? {names : List String} (h : x ∈ names) : ∃ i, lastIndex? x names = some i := by
  induction names with
  | nil => cases h
  | cons v rest ih =>
    rw [lastIndex?]
    rcases List.mem_cons.1 h with rfl | h
    · cases hr : lastIndex? x rest with
      | some i => exact ⟨i + 1, rfl⟩
      | none => exact ⟨0, if_pos rfl⟩
    · obtain ⟨i, hi⟩ := ih h
      exact ⟨i + 1, by rw [hi]⟩

/-- The column that a variable is looked up in, and that holds it. -/
structure HasColumn (f : Frame) (x : String) (c : Nat) : Prop where
  column : f.column x = .ok c
  name : f.names[c]? = some x

theorem exists_column (h : x ∈ f.names) : ∃ c, f.HasColumn x c := by
  obtain ⟨c, hc⟩ := exists_lastIndex? h
  exact ⟨c, by rw [column, hc], getElem?_of_lastIndex? hc⟩

theorem hasColumn_of_nodup (hf : f.names.Nodup) (h : f.names[c]? = some x) : f.HasColumn x c := by
  obtain ⟨d, hd⟩ := exists_column (List.mem_of_getElem? h)
  obtain ⟨hc, hcx⟩ := List.getElem?_eq_some_iff.1 h
  obtain ⟨hd', hdx⟩ := List.getElem?_eq_some_iff.1 hd.name
  obtain rfl : c = d := hf.getElem_inj_iff.1 (hcx.trans hdx.symm)
  exact hd

namespace HasColumn

theorem lt (h : f.HasColumn x c) : c < f.names.length := (List.getElem?_eq_some_iff.1 h.name).1

/-- A variable has one column. -/
theorem iff (hx : f.HasColumn x c) : d = c ↔ f.HasColumn x d := by
  constructor
  · rintro rfl
    exact hx
  · exact fun h => Except.ok.inj (h.column.symm.trans hx.column)

theorem ne (hx : f.HasColumn x c) (hu : f.HasColumn u d) (h : u ≠ x) : d ≠ c := by
  rintro rfl
  exact h (Option.some.inj (hu.name.symm.trans hx.name))

theorem lastIndex? (h : f.HasColumn x c) : Frame.lastIndex? x f.names = some c := by
  have hcolumn := h.column
  unfold Frame.column at hcolumn
  split at hcolumn
  · next i hi => rw [hi, Except.ok.inj hcolumn]
  · cases hcolumn

/-- A variable is read in its column. -/
theorem read (h : f.HasColumn x c) (y : Nat → ℚ) : f.read (fun i => y i) x = y c := by
  unfold Frame.read
  rw [h.lastIndex?]
  exact dif_pos h.lt

end HasColumn

theorem mapM_column {names : List String} (h : ∀ x ∈ names, x ∈ f.names) :
    ∃ cs, names.mapM f.column = .ok cs ∧ List.Forall₂ f.HasColumn names cs :=
  exists_mapM fun x hx => (exists_column (h x hx)).imp fun _ hc => ⟨hc.column, hc⟩

theorem mem_columns {names : List String} {cs : List Nat} (h : List.Forall₂ f.HasColumn names cs) :
    c ∈ cs ↔ ∃ x ∈ names, f.HasColumn x c := by
  induction h with
  | nil => simp
  | cons hx _ ih => rw [List.mem_cons, ih, List.exists_mem_cons_iff, hx.iff]

theorem lt_of_columns {names : List String} {cs : List Nat} (h : List.Forall₂ f.HasColumn names cs) :
    ∀ c ∈ cs, c < f.names.length := by
  intro c hc
  obtain ⟨x, -, hx⟩ := (mem_columns h).1 hc
  exact hx.lt

/-! ## The point of a store -/

theorem vec_point (h : f.names[c]? = some x) (s : Store) : Row.vec (f.point s) c = s x := by
  obtain ⟨hlt, hx⟩ := List.getElem?_eq_some_iff.1 h
  rw [vec_fractions, point, List.getD_append _ _ _ _ (by simpa using hlt)]
  simp [List.getD_eq_getElem?_getD, h]

theorem vec_point_last (s : Store) : Row.vec (f.point s) f.names.length = 1 := by
  rw [vec_fractions, point, List.getD_append_right _ _ _ _ (by simp)]
  simp

/-- The point of a store is read as the store. -/
theorem read_point (h : x ∈ f.names) (s : Store) : f.read (fun i => Row.vec (f.point s) i) x = s x := by
  obtain ⟨c, hc⟩ := exists_column h
  rw [hc.read, vec_point hc.name]

theorem takes_point {value : Value} (hu : ∀ u ∈ value.reads, u ∈ f.names) {s : Store} {m : Int}
    (h : value.Yields s m) : value.Takes (f.read fun i => Row.vec (f.point s) i) m := by
  rw [Value.takes_congr fun u hread => read_point (hu u hread) s]
  exact h.takes

theorem holdsAt_point {atom : Atom} (h : ∀ x ∈ atom.names, x ∈ f.names) (s : Store) :
    atom.HoldsAt (f.read fun i => Row.vec (f.point s) i) ↔ atom.Holds s := by
  rw [Atom.holdsAt_congr fun x hx => read_point (h x hx) s]
  exact Atom.holdsAt_intCast

/-- Changing a variable changes its column and no other. -/
theorem vec_point_set (hf : f.names.Nodup) (h : f.names[c]? = some x) (s : Store) (m : Int) :
    Row.vec (f.point (s.set x m)) = Function.update (Row.vec (f.point s)) c (m : ℚ) := by
  obtain ⟨hlt, hx⟩ := List.getElem?_eq_some_iff.1 h
  funext i
  by_cases hi : i = c
  · subst hi
    rw [Function.update_self, vec_point h, Store.set_self]
  · rw [Function.update_of_ne hi]
    rcases lt_trichotomy i f.names.length with hil | rfl | hil
    · have hname : f.names[i]? = some f.names[i] := List.getElem?_eq_getElem hil
      have hne : f.names[i] ≠ x := fun heq => hi ((hf.getElem_inj_iff).1 (heq.trans hx.symm))
      rw [vec_point hname, vec_point hname, Store.set_of_ne _ _ hne]
    · rw [vec_point_last, vec_point_last]
    · rw [Row.vec_of_length_le, Row.vec_of_length_le]
      all_goals
        show (f.point _).length ≤ i
        simp [point]
        omega

/-- What the equations say of a store is whether they allow its point. -/
theorem contains_iff {r : Relations} (hr : r.Canonical f.names.length) {s : Store} :
    r.Contains f s ↔ Row.vec (f.point s) ∈ r.Points f.names.length := by
  cases r with
  | bottom => exact Iff.rfl
  | top => exact iff_of_true trivial trivial
  | system m =>
    have hrow : ∀ row ∈ m.rows, Fraction.dot row (f.point s) = 0 ↔
        equationAt f.names.length (Row.vec row) (Row.vec (f.point s)) = 0 := by
      intro row hmem
      have hlen : row.length = f.names.length + 1 := (m.width row hmem).trans hr.columns
      rw [← Fraction.toRat_eq_zero, Fraction.toRat_dot_eq, hlen, equationAt_of_one _ (vec_point_last s)]
    exact ⟨fun h row hmem => (hrow row hmem).1 (h row hmem), fun h row hmem => (hrow row hmem).2 (h row hmem)⟩

/-! ## Single equations -/

/-- What the equation with these coefficients says. -/
def equation (f : Frame) (coeff : Nat → Fraction) : Relations :=
  .solving ⟨f.width, [(List.range f.width).map coeff], fun row hrow => by
    rw [List.mem_singleton.1 hrow]
    exact (List.length_map _).trans List.length_range⟩

theorem equation_spec (coeff : Nat → Fraction) :
    (f.equation coeff).Canonical f.names.length ∧ ∀ y, y ∈ (f.equation coeff).Points f.names.length ↔
      dotTo f.names.length (fun i => (coeff i).toRat) y + (coeff f.names.length).toRat = 0 := by
  have hvec : ∀ i ≤ f.names.length, Row.vec ((List.range f.width).map coeff) i = (coeff i).toRat := by
    intro i hi
    have hlt : i < f.width := Nat.lt_succ_of_le hi
    simp [vec_fractions, List.getD_eq_getElem?_getD, hlt]
  have hrow : ∀ y, equationAt f.names.length (Row.vec ((List.range f.width).map coeff)) y =
      dotTo f.names.length (fun i => (coeff i).toRat) y + (coeff f.names.length).toRat := by
    intro y
    rw [equationAt, hvec _ le_rfl]
    congr 1
    exact Finset.sum_congr rfl fun i hi => by rw [hvec i (Finset.mem_range.1 hi).le]
  obtain ⟨hcan, hpts⟩ := Relations.solving_spec (n := f.names.length)
    (m := ⟨f.width, [(List.range f.width).map coeff], by simp [Sized.length]⟩) rfl
  refine ⟨hcan, fun y => ?_⟩
  rw [← hrow y, equation, hpts]
  constructor
  · intro hy
    exact hy _ (List.mem_singleton.2 rfl)
  · intro hy r hr
    rw [List.mem_singleton.1 hr]
    exact hy

/-- A row is read as the equation with its entries. -/
theorem single_eq {row : List Fraction} (hlen : row.length = f.width) {coeff : Nat → Fraction}
    (hcoeff : ∀ i < f.width, row.getD i 0 = coeff i) : f.single row = .ok (f.equation coeff) := by
  have hrow : row = (List.range f.width).map coeff := by
    refine List.ext_getElem (by simp [hlen]) fun i hi _ => ?_
    rw [List.getElem_map, List.getElem_range, ← hcoeff i (hlen ▸ hi), List.getD_eq_getElem]
  subst hrow
  have hwidth : ∀ r ∈ [(List.range f.width).map coeff], Sized.length r = f.width := by simp [Sized.length]
  simp only [single, RowMatrix.ofRows_ok hwidth, bind, Except.bind]
  exact Relations.ofEquations_eq _

/-- The equation `x = k` for the column of `x`, unless the frame does not keep it. -/
def constEquation (f : Frame) (c : Nat) (k : Int) : Option Relations :=
  if f.encoding = .homogeneous ∧ k ≠ 0 then none
  else some (f.equation fun j => if j = f.names.length then .ofInt (-k) else if j = c then 1 else 0)

/-- The equation `x = u + k` between two columns, unless the frame does not keep it. -/
def copyEquation (f : Frame) (c d : Nat) (k : Int) : Option Relations :=
  if f.encoding = .homogeneous ∧ k ≠ 0 then none
  else some (f.equation fun j =>
    if j = f.names.length then .ofInt (-k) else if j = d then -1 else if j = c then 1 else 0)

theorem length_blankRow : f.blankRow.length = f.width := List.length_replicate

theorem HasColumn.lt_width (h : f.HasColumn x c) : c < f.width := Nat.lt_succ_of_lt h.lt

theorem setEntry_of_width {row : List Fraction} (hlen : row.length = f.width) (hc : c < f.width) (k : Fraction) :
    setEntry row c k = .ok (row.set c k) ∧ (row.set c k).length = f.width :=
  ⟨setEntry_of_lt (hlen ▸ hc) k, List.length_set.trans hlen⟩

theorem valueEquation_unknown (hx : f.HasColumn x c) : f.valueEquation x .unknown = .ok none := by
  obtain ⟨hset, -⟩ := setEntry_of_width length_blankRow hx.lt_width 1
  simp only [valueEquation, hx.column, hset, bind, Except.bind, pure, Except.pure]

theorem valueEquation_const (hx : f.HasColumn x c) (k : Int) :
    f.valueEquation x (.const k) = .ok (f.constEquation c k) := by
  obtain ⟨hset, hlen⟩ := setEntry_of_width length_blankRow hx.lt_width 1
  obtain ⟨hset', hlen'⟩ := setEntry_of_width hlen (Nat.lt_succ_self f.names.length) (.ofInt (-k))
  have hsingle : f.single ((f.blankRow.set c 1).set f.names.length (.ofInt (-k))) =
      .ok (f.equation fun j => if j = f.names.length then .ofInt (-k) else if j = c then 1 else 0) :=
    single_eq hlen' fun i hi => by grind [blankRow]
  simp only [valueEquation, hx.column, hset, hset', hsingle, bind, Except.bind, pure, Except.pure, constEquation]
  split <;> rfl

theorem valueEquation_copy (hx : f.HasColumn x c) (hu : f.HasColumn u d) (hne : u ≠ x) {value : Value}
    (hreads : value.reads = some u) : f.valueEquation x value = .ok (f.copyEquation c d value.offset) := by
  obtain ⟨hset, hlen⟩ := setEntry_of_width length_blankRow hx.lt_width 1
  obtain ⟨hset', hlen'⟩ := setEntry_of_width hlen hu.lt_width (-1)
  obtain ⟨hset'', hlen''⟩ := setEntry_of_width hlen' (Nat.lt_succ_self f.names.length) (.ofInt (-value.offset))
  have hsingle : f.single (((f.blankRow.set c 1).set d (-1)).set f.names.length (.ofInt (-value.offset))) =
      .ok (f.equation fun j => if j = f.names.length then .ofInt (-value.offset)
        else if j = d then -1 else if j = c then 1 else 0) :=
    single_eq hlen'' fun i hi => by grind [blankRow]
  cases value with
  | unknown | const => cases hreads
  | var | plus | minus =>
    obtain rfl := Option.some.inj hreads
    simp only [valueEquation, hx.column, hu.column, hset, hset', hset'', hsingle, hne, false_or, bind, Except.bind,
      pure, Except.pure, copyEquation]
    split <;> rfl

/-- A state that allows exactly the points whose column `c` has the value that `g` computes from the
other columns. -/
structure Pins (n c : Nat) (g : (Nat → ℚ) → ℚ) (e : Relations) : Prop where
  canonical : e.Canonical n
  other : ∀ y t, g (Function.update y c t) = g y
  points : ∀ y, y ∈ e.Points n ↔ y c = g y

theorem pins_const (h : f.HasColumn x c) {k : Int} {e : Relations} (he : f.constEquation c k = some e) :
    Pins f.names.length c (fun _ => k) e := by
  rw [constEquation] at he
  split at he
  · cases he
  · obtain rfl := Option.some.inj he
    obtain ⟨hcan, hpts⟩ := f.equation_spec fun j =>
      if j = f.names.length then .ofInt (-k) else if j = c then 1 else 0
    refine ⟨hcan, fun _ _ => rfl, fun y => (hpts y).trans ?_⟩
    have hdot : dotTo f.names.length (fun i =>
        (if i = f.names.length then .ofInt (-k) else if i = c then 1 else 0 : Fraction).toRat) y = y c := by
      rw [dotTo, Finset.sum_eq_single_of_mem c (Finset.mem_range.2 h.lt)]
      · simp [h.lt.ne]
      · intro i hi hic
        simp [(Finset.mem_range.1 hi).ne, hic]
    rw [hdot, if_pos rfl, Fraction.toRat_ofInt, Int.cast_neg, ← sub_eq_add_neg, sub_eq_zero]

theorem pins_copy (hx : f.HasColumn x c) (hu : f.HasColumn u d) (hne : u ≠ x) {k : Int} {e : Relations}
    (he : f.copyEquation c d k = some e) : Pins f.names.length c (fun y => y d + k) e := by
  have hdc := hx.ne hu hne
  rw [copyEquation] at he
  split at he
  · cases he
  · obtain rfl := Option.some.inj he
    obtain ⟨hcan, hpts⟩ := f.equation_spec fun j =>
      if j = f.names.length then .ofInt (-k) else if j = d then -1 else if j = c then 1 else 0
    refine ⟨hcan, fun y t => by rw [Function.update_of_ne hdc], fun y => (hpts y).trans ?_⟩
    have hdot : dotTo f.names.length (fun i => (if i = f.names.length then .ofInt (-k)
        else if i = d then -1 else if i = c then 1 else 0 : Fraction).toRat) y = y c - y d := by
      have hsub : ({c, d} : Finset Nat) ⊆ Finset.range f.names.length := by
        intro i hi
        rcases Finset.mem_insert.1 hi with rfl | hi
        · exact Finset.mem_range.2 hx.lt
        · rw [Finset.mem_singleton.1 hi]
          exact Finset.mem_range.2 hu.lt
      rw [dotTo, ← Finset.sum_subset hsub]
      · rw [Finset.sum_pair hdc.symm]
        simp [hx.lt.ne, hu.lt.ne, hdc.symm, sub_eq_add_neg]
      · intro i hi hnot
        obtain ⟨hic, hid⟩ : i ≠ c ∧ i ≠ d := by simpa using hnot
        simp [(Finset.mem_range.1 hi).ne, hic, hid]
    rw [hdot, if_pos rfl, Fraction.toRat_ofInt, Int.cast_neg]
    constructor
    · intro h
      linarith
    · intro h
      linarith

/-- The equation `x = value`, where the value does not read `x`: it pins the column of `x` to what the
value stands for at every point. -/
theorem valueEquation_spec (hx : f.HasColumn x c) {value : Value} (hreads : value.reads ≠ some x)
    (hu : ∀ u ∈ value.reads, u ∈ f.names) :
    ∃ o, f.valueEquation x value = .ok o ∧ ∀ e ∈ o, ∃ g, Pins f.names.length c g e ∧
      ∀ (y : Nat → ℚ) q, value.Takes (f.read fun i => y i) q ↔ q = g y := by
  cases hread : value.reads with
  | some u =>
    obtain ⟨d, hd⟩ := exists_column (hu u hread)
    have hne : u ≠ x := fun h => hreads (h ▸ hread)
    refine ⟨_, valueEquation_copy hx hd hne hread, fun e he => ⟨_, pins_copy hx hd hne he, fun y q => ?_⟩⟩
    rw [Value.takes_of_reads hread, hd.read]
  | none =>
    cases value with
    | unknown => exact ⟨none, valueEquation_unknown hx, nofun⟩
    | const k => exact ⟨_, valueEquation_const hx k, fun e he => ⟨_, pins_const hx he, fun y q => Iff.rfl⟩⟩
    | var | plus | minus => cases hread

/-! ## Sums -/

theorem dotTo_count {n : Nat} {cs : List Nat} (h : ∀ c ∈ cs, c < n) (y : Nat → ℚ) :
    dotTo n (fun j => (cs.count j : ℚ)) y = (cs.map y).sum := by
  rw [Finset.sum_list_map_count, dotTo]
  simp only [nsmul_eq_mul]
  refine (Finset.sum_subset (fun i hi => Finset.mem_range.2 (h i (List.mem_toFinset.1 hi))) fun i _ hi => ?_).symm
  rw [List.count_eq_zero.2 fun hmem => hi (List.mem_toFinset.2 hmem), Nat.cast_zero, zero_mul]

theorem map_columns {names : List String} {cs : List Nat} (h : List.Forall₂ f.HasColumn names cs) (y : Nat → ℚ) :
    cs.map y = names.map (f.read fun i => y i) := by
  induction h with
  | nil => rfl
  | cons hx _ ih => rw [List.map_cons, List.map_cons, ih, hx.read]

theorem addTo_eq (hx : f.HasColumn x c) {row : List Fraction} (hlen : row.length = f.width) (k : Fraction) :
    f.addTo k row x = .ok (row.set c (row.getD c 0 + k)) := by
  have hc : c < row.length := hlen ▸ hx.lt_width
  simp only [addTo, hx.column, entryAt_of_lt hc, setEntry_of_lt hc, List.getD_eq_getElem _ _ hc, bind, Except.bind]

/-- Adding a number for each of some variables adds it to each column as often as the column occurs. -/
theorem exists_addTo {names : List String} {cs : List Nat} (h : List.Forall₂ f.HasColumn names cs) (k : Fraction)
    {row : List Fraction} (hlen : row.length = f.width) :
    ∃ sum, names.foldlM (f.addTo k) row = .ok sum ∧ sum.length = f.width ∧
      ∀ i < f.width, (sum.getD i 0).toRat = (row.getD i 0).toRat + cs.count i * k.toRat := by
  induction h generalizing row with
  | nil => exact ⟨row, rfl, hlen, fun i _ => by simp⟩
  | @cons x c names cs hx _ ih =>
    have hset : (row.set c (row.getD c 0 + k)).length = f.width := List.length_set.trans hlen
    obtain ⟨sum, hsum, hlen', hentry⟩ := ih hset
    refine ⟨sum, ?_, hlen', fun i hi => ?_⟩
    · rw [List.foldlM_cons, addTo_eq hx hlen k]
      exact hsum
    · have hget : (row.set c (row.getD c 0 + k)).getD i 0 = if c = i then row.getD i 0 + k else row.getD i 0 := by
        grind
      rw [hentry i hi, hget, List.count_cons]
      by_cases hci : c = i
      · simp only [if_pos hci, beq_iff_eq, Fraction.toRat_add]
        push_cast
        ring
      · simp [hci]

theorem sumEquation_eq {left right : List String} {plus minus : List Nat} (hplus : List.Forall₂ f.HasColumn left plus)
    (hminus : List.Forall₂ f.HasColumn right minus) :
    f.sumEquation left right =
      .ok (f.equation fun j => Fraction.ofInt (plus.count j) - Fraction.ofInt (minus.count j)) := by
  obtain ⟨row, hrow, hlen, hentry⟩ := exists_addTo hplus 1 (f.length_blankRow)
  obtain ⟨row', hrow', hlen', hentry'⟩ := exists_addTo hminus (-1) hlen
  simp only [sumEquation, hrow, hrow', bind, Except.bind]
  refine single_eq hlen' fun i hi => Fraction.toRat_injective ?_
  have hblank : f.blankRow.getD i 0 = 0 := by grind [blankRow]
  rw [hentry' i hi, hentry i hi, hblank]
  simp [sub_eq_add_neg]

/-- The equation of two sums allows the points at which they are equal. -/
theorem sumEquation_spec {left right : List String} (hl : ∀ x ∈ left, x ∈ f.names) (hr : ∀ x ∈ right, x ∈ f.names) :
    ∃ e, f.sumEquation left right = .ok e ∧ e.Canonical f.names.length ∧ ∀ y : Nat → ℚ,
      y ∈ e.Points f.names.length ↔ Atom.HoldsAt (f.read fun i => y i) (.sum left right) := by
  obtain ⟨plus, -, hpall⟩ := mapM_column hl
  obtain ⟨minus, -, hmall⟩ := mapM_column hr
  obtain ⟨hcan, hpts⟩ := f.equation_spec fun j => Fraction.ofInt (plus.count j) - Fraction.ofInt (minus.count j)
  refine ⟨_, sumEquation_eq hpall hmall, hcan, fun y => ?_⟩
  have hconst : ∀ {names : List String} {cs : List Nat}, List.Forall₂ f.HasColumn names cs →
      cs.count f.names.length = 0 := fun h => List.count_eq_zero.2 fun hmem => lt_irrefl _ (lt_of_columns h _ hmem)
  have hcoeff : (fun j => (Fraction.ofInt (plus.count j) - Fraction.ofInt (minus.count j)).toRat) =
      (fun j => (plus.count j : ℚ)) - fun j => (minus.count j : ℚ) := by
    funext j
    simp
  rw [hpts, hcoeff, dotTo_sub_left, dotTo_count (lt_of_columns hpall), dotTo_count (lt_of_columns hmall),
    map_columns hpall, map_columns hmall, hconst hpall, hconst hmall, Fraction.toRat_sub, sub_self, add_zero,
    sub_eq_zero, Atom.HoldsAt]

end Frame

end FlowFacts
