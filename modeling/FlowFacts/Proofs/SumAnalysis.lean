import Mathlib
import FlowFacts.Affine.Analysis
import FlowFacts.Proofs.Frames

/-!
# What statements do to relations

Each statement acts on sets of points by a monotone map (`Frame.Acts`): on a canonical state the transfer
does not fail, its result is canonical, and the points of the result are the image of the points of the
state. The map follows the steps of stores, so the transfer is sound as well. There is one such map for
each form of statement, `Frame.acts_keep` to `Frame.acts_unequal`. `Frame.provesSums_spec` and
`Frame.check_spec`: a check does not fail either, and what it calls proved holds in every store that the
state allows.
-/

namespace FlowFacts

theorem equationAt_update {n c : Nat} (hc : c < n) (v y : Nat → ℚ) (q : ℚ) :
    equationAt n v (Function.update y c q) = equationAt n v y + v c * (q - y c) := by
  rw [equationAt, RowMatrix.dotTo_update _ _ hc, equationAt]
  ring

theorem equationAt_sub_smul (n : Nat) (v w y : Nat → ℚ) (k : ℚ) :
    equationAt n (v - k • w) y = equationAt n v y - k * equationAt n w y := by
  simp only [equationAt, dotTo_sub_left, dotTo_smul_left, Pi.sub_apply, Pi.smul_apply, smul_eq_mul]
  ring

namespace Frame

variable {f : Frame} {x : String} {c : Nat} {s : Relations}

/-! ## Losing and shifting a variable -/

/-- The row `r` without the multiple of the row `p` that clears a column. -/
def canceled (c : Nat) (p r : List Fraction) : List Fraction := resultOr r (cancel c p r)

theorem canceled_spec {p r : List Fraction} (hlen : p.length = r.length) (hc : c < r.length) (hp : Row.vec p c ≠ 0) :
    cancel c p r = .ok (canceled c p r) ∧ (canceled c p r).length = r.length ∧
      Row.vec (canceled c p r) = Row.vec r - (Row.vec r c / Row.vec p c) • Row.vec p := by
  have hcp : c < p.length := hlen ▸ hc
  have hentry : ∀ {q : List Fraction} (h : c < q.length), Row.vec q c = q[c].toRat := fun h => by
    rw [vec_fractions, List.getD_eq_getElem _ _ h]
  rw [hentry hcp] at hp ⊢
  rw [hentry hc, canceled, cancel, entryAt_of_lt hc, entryAt_of_lt hcp]
  by_cases hzero : r[c] = 0
  · simp [hzero, resultOr, bind, Except.bind, pure, Except.pure]
  · obtain ⟨k, hk, hval⟩ := Fraction.quotient_of_ne r[c] (mt Fraction.toRat_eq_zero.2 hp)
    obtain ⟨q, hq, hvec⟩ := Row.exists_plus (-k) (r := r) (p := p) hlen
    simp only [hzero, if_false, hk, hq, bind, Except.bind, resultOr, true_and]
    refine ⟨Row.length_plus hq, hvec.trans ?_⟩
    rw [← hval, sub_eq_add_neg, ← neg_smul, ← Fraction.toRat_neg]
    rfl

/-- A row with a coefficient in a column can be solved for that column, so that a value can be found for it if the other
rows hold without the column. -/
theorem exists_update_iff {n : Nat} (hc : c < n) {p : List Fraction} {others : List (List Fraction)}
    (hp : Row.vec p c ≠ 0)
    (hvec : ∀ r ∈ others, Row.vec (canceled c p r) = Row.vec r - (Row.vec r c / Row.vec p c) • Row.vec p)
    (y : Nat → ℚ) :
    y ∈ solutions n (others.map (canceled c p)) ↔ ∃ q, Function.update y c q ∈ solutions n (p :: others) := by
  -- Where the row holds, the others say the same with and without the column.
  have hrow : ∀ q, equationAt n (Row.vec p) (Function.update y c q) = 0 → ∀ r ∈ others,
      equationAt n (Row.vec (canceled c p r)) y = equationAt n (Row.vec r) (Function.update y c q) := by
    intro q hq r hr
    have hcol : Row.vec (canceled c p r) c = 0 := by
      rw [hvec r hr, Pi.sub_apply, Pi.smul_apply, smul_eq_mul, div_mul_cancel₀ _ hp, sub_self]
    have hsame : equationAt n (Row.vec (canceled c p r)) (Function.update y c q) =
        equationAt n (Row.vec (canceled c p r)) y := by
      rw [equationAt_update hc, hcol, zero_mul, add_zero]
    rw [← hsame, hvec r hr, equationAt_sub_smul, hq, mul_zero, sub_zero]
  constructor
  · intro hy
    have hq : equationAt n (Row.vec p)
        (Function.update y c (y c - equationAt n (Row.vec p) y / Row.vec p c)) = 0 := by
      rw [equationAt_update hc]
      field_simp
      ring
    refine ⟨_, List.forall_mem_cons.2 ⟨hq, fun r hr => ?_⟩⟩
    rw [← hrow _ hq r hr]
    exact hy _ (List.mem_map_of_mem hr)
  · rintro ⟨q, hq⟩ r' hr'
    obtain ⟨hpq, hothers⟩ := List.forall_mem_cons.1 hq
    obtain ⟨r, hr, rfl⟩ := List.mem_map.1 hr'
    rw [hrow q hpq r hr]
    exact hothers r hr

/-- Rows of the width of a frame are read as relations that allow the solutions of the rows. -/
theorem ofRows_spec {rows : List (List Fraction)} (h : ∀ r ∈ rows, r.length = f.width) :
    ∃ t, (RowMatrix.ofRows f.width rows >>= Relations.ofEquations) = .ok t ∧ t.Canonical f.names.length ∧
      t.Points f.names.length = solutions f.names.length rows := by
  obtain ⟨hcan, hpts⟩ := Relations.solving_spec (n := f.names.length) (m := ⟨f.width, rows, h⟩) rfl
  exact ⟨_, by rw [RowMatrix.ofRows_ok h]; exact Relations.ofEquations_eq _, hcan, hpts⟩

/-- Forgetting a variable allows a point if some value of the variable would have made it allowed. -/
theorem forget_spec (h : f.HasColumn x c) (hs : s.Canonical f.names.length) :
    ∃ t, f.forget s x = .ok t ∧ t.Canonical f.names.length ∧
      ∀ y, y ∈ t.Points f.names.length ↔ ∃ q, Function.update y c q ∈ s.Points f.names.length := by
  cases s with
  | bottom =>
    refine ⟨.bottom, rfl, trivial, fun y => iff_of_false id ?_⟩
    rintro ⟨_, hq⟩
    exact hq
  | top => exact ⟨.top, rfl, trivial, fun y => iff_of_true trivial ⟨0, trivial⟩⟩
  | system m =>
    have hlen : ∀ r ∈ m.rows, r.length = f.width := fun r hr => (m.width r hr).trans hs.columns
    have hcolumn : ∀ r ∈ m.rows, c < r.length := fun r hr => hlen r hr ▸ h.lt_width
    simp only [forget, h.column, bind, Except.bind]
    rcases Reduction.findPivot_cases hcolumn with ⟨hnone, hzero⟩ | ⟨found, hfound, hrows, hne⟩
    · -- No equation mentions the variable, so any value of it is as good as another.
      rw [hnone]
      refine ⟨_, rfl, hs, fun y => ⟨fun hy => ⟨y c, by rwa [Function.update_eq_self]⟩, ?_⟩⟩
      rintro ⟨q, hq⟩ r hr
      have := hq r hr
      rwa [equationAt_update h.lt, hzero r hr, zero_mul, add_zero] at this
    · have hperm : m.rows.Perm (found.pivot :: found.others) := hrows ▸ List.perm_middle
      have hpivot := hlen _ (hperm.mem_iff.2 List.mem_cons_self)
      have hothers : ∀ r ∈ found.others, r.length = f.width := fun r hr =>
        hlen r (hperm.mem_iff.2 (List.mem_cons_of_mem _ hr))
      have hcanceled := fun r hr => canceled_spec (hpivot.trans (hothers r hr).symm) (hothers r hr ▸ h.lt_width) hne
      have hwide : ∀ q ∈ found.others.map (canceled c found.pivot), q.length = f.width := by
        intro q hq
        obtain ⟨r, hr, rfl⟩ := List.mem_map.1 hq
        exact (hcanceled r hr).2.1.trans (hothers r hr)
      obtain ⟨t, ht, hcan, hpts⟩ := ofRows_spec hwide
      rw [hfound]
      simp only [mapM_eq_map fun r hr => (hcanceled r hr).1]
      refine ⟨t, ht, hcan, fun y => ?_⟩
      rw [hpts, exists_update_iff h.lt hne (fun r hr => (hcanceled r hr).2.2) y,
        ← solutions_congr (rowSpace_perm hperm)]
      rfl

/-- The row of an equation with `x - k` in the place of the variable `x` of a column. -/
def shifted (c last : Nat) (k : Int) (r : List Fraction) : List Fraction :=
  r.set last (r.getD last 0 - r.getD c 0 * .ofInt k)

theorem shiftRow_eq {n : Nat} (hc : c < n) {r : List Fraction} (hr : r.length = n + 1) (k : Int) :
    shiftRow c n k r = .ok (shifted c n k r) := by
  have hn : n < r.length := by omega
  have hcr : c < r.length := by omega
  simp only [shiftRow, entryAt_of_lt hn, entryAt_of_lt hcr, setEntry_of_lt hn, shifted, List.getD_eq_getElem _ _ hn,
    List.getD_eq_getElem _ _ hcr, bind, Except.bind]

/-- Moving the constant of a row by a multiple of its coefficient in a column moves that column. -/
theorem equationAt_shifted {n : Nat} (hc : c < n) {r : List Fraction} (hr : r.length = n + 1) (k : Int)
    (y : Nat → ℚ) :
    equationAt n (Row.vec (shifted c n k r)) y = equationAt n (Row.vec r) (Function.update y c (y c - k)) := by
  have hlast : Row.vec (shifted c n k r) n = Row.vec r n - Row.vec r c * k := by
    rw [vec_fractions, shifted, List.getD_eq_getElem?_getD, List.getElem?_set_self (by rw [hr]; omega)]
    simp only [Option.getD_some, Fraction.toRat_sub, Fraction.toRat_mul, Fraction.toRat_ofInt]
    rfl
  have hfirst : dotTo n (Row.vec (shifted c n k r)) y = dotTo n (Row.vec r) y := Finset.sum_congr rfl fun i hi => by
    have hne := (Finset.mem_range.1 hi).ne'
    rw [vec_fractions, shifted, List.getD_eq_getElem?_getD, List.getElem?_set_ne hne, ← List.getD_eq_getElem?_getD,
      ← vec_fractions]
  rw [equationAt_update hc, equationAt, hlast, hfirst, equationAt]
  ring

/-- After `x := x + k` a point is allowed if the point with `x - k` was. -/
theorem shift_spec (h : f.HasColumn x c) (hs : s.Canonical f.names.length) (k : Int) :
    ∃ t, f.shift s x k = .ok t ∧ t.Canonical f.names.length ∧
      ∀ y, y ∈ t.Points f.names.length ↔ Function.update y c (y c - k) ∈ s.Points f.names.length := by
  cases s with
  | bottom => exact ⟨.bottom, rfl, trivial, fun y => Iff.rfl⟩
  | top => exact ⟨.top, rfl, trivial, fun y => Iff.rfl⟩
  | system m =>
    have hlen : ∀ r ∈ m.rows, r.length = f.names.length + 1 := fun r hr => (m.width r hr).trans hs.columns
    have hwide : ∀ q ∈ m.rows.map (shifted c f.names.length k), q.length = f.width := by
      intro q hq
      obtain ⟨r, hr, rfl⟩ := List.mem_map.1 hq
      exact List.length_set.trans (hlen r hr)
    obtain ⟨t, ht, hcan, hpts⟩ := ofRows_spec hwide
    simp only [shift, h.column, mapM_eq_map fun r hr => shiftRow_eq h.lt (hlen r hr) k, bind, Except.bind]
    refine ⟨t, ht, hcan, fun y => ?_⟩
    rw [hpts]
    constructor
    · intro hy r hr
      rw [← equationAt_shifted h.lt (hlen r hr)]
      exact hy _ (List.mem_map_of_mem hr)
    · intro hy q hq
      obtain ⟨r, hr, rfl⟩ := List.mem_map.1 hq
      rw [equationAt_shifted h.lt (hlen r hr)]
      exact hy r hr

/-! ## Statements -/

/-- A statement acts on sets of points by a map: on canonical states the transfer computes it, more
points give more points, and it follows every step of a store. -/
structure Acts (f : Frame) (statement : Statement) (F : Set (Nat → ℚ) → Set (Nat → ℚ)) : Prop where
  transfer : ∀ s, s.Canonical f.names.length → ∃ t, f.transfer statement s = .ok t ∧
    t.Canonical f.names.length ∧ t.Points f.names.length = F (s.Points f.names.length)
  mono : Monotone F
  step : ∀ a b S, statement.Step a b → Row.vec (f.point a) ∈ S → Row.vec (f.point b) ∈ F S

/-- The values of the other columns of the points in a set. -/
def freed (c : Nat) (S : Set (Nat → ℚ)) : Set (Nat → ℚ) := {y | ∃ q, Function.update y c q ∈ S}

theorem freed_mono (c : Nat) : Monotone (freed c) := fun _ _ hST _ ⟨q, hq⟩ => ⟨q, hST hq⟩

theorem update_mem_freed {S : Set (Nat → ℚ)} {y : Nat → ℚ} (hy : y ∈ S) (q : ℚ) :
    Function.update y c q ∈ freed c S := by
  refine ⟨y c, ?_⟩
  rwa [Function.update_idem, Function.update_eq_self]

theorem acts_id {statement : Statement} (htransfer : ∀ s, f.transfer statement s = .ok s)
    (hstep : ∀ a b, statement.Step a b → Row.vec (f.point b) = Row.vec (f.point a)) : f.Acts statement id where
  transfer s hs := ⟨s, htransfer s, hs, rfl⟩
  mono := monotone_id
  step a b S h ha := by
    rw [hstep a b h]
    exact ha

theorem acts_empty {statement : Statement} (htransfer : ∀ s, f.transfer statement s = .ok .bottom)
    (hstep : ∀ a b, ¬ statement.Step a b) : f.Acts statement fun _ => ∅ where
  transfer s _ := ⟨.bottom, htransfer s, trivial, rfl⟩
  mono := monotone_const
  step a b _ h _ := absurd h (hstep a b)

theorem acts_skip : f.Acts .skip id :=
  acts_id (fun _ => rfl) fun a b hstep => by cases hstep; rfl

theorem acts_assert (a : Assertion) : f.Acts (.assert a) id :=
  acts_id (fun _ => rfl) fun a b hstep => by cases hstep; rfl

theorem acts_always : f.Acts (.assume .always) id :=
  acts_id (fun _ => rfl) fun a b hstep => by rw [(Statement.step_assume hstep).2]

theorem acts_never : f.Acts (.assume .never) fun _ => ∅ :=
  acts_empty (fun _ => rfl) fun _ _ hstep => (Statement.step_assume hstep).1

/-! ### Assignments -/

theorem isBottom_eq_false (hs : s ≠ .bottom) : s.isBottom = false := by
  cases s with
  | bottom => exact absurd rfl hs
  | top => rfl
  | system m => rfl

theorem assign_of_reads {value : Value} (hs : s ≠ .bottom) (hreads : value.reads = some x) :
    f.assign s x value = f.increment s x value.offset := by
  simp only [assign, isBottom_eq_false hs, hreads, Bool.false_eq_true, if_false, if_pos, bind, Except.bind, pure,
    Except.pure]

theorem assign_of_none {value : Value} (hs : s ≠ .bottom) (hreads : value.reads ≠ some x)
    (ho : f.valueEquation x value = .ok none) : f.assign s x value = f.forget s x := by
  simp only [assign, isBottom_eq_false hs, hreads, ho, Bool.false_eq_true, if_false, bind, Except.bind, pure,
    Except.pure]

theorem acts_forget (hf : f.names.Nodup) (h : f.HasColumn x c) {value : Value}
    (hassign : ∀ s, s ≠ .bottom → f.assign s x value = f.forget s x) : f.Acts (.assign x value) (freed c) where
  transfer s hs := by
    obtain ⟨t, ht, hcan, hpts⟩ := forget_spec h hs
    refine ⟨t, ?_, hcan, Set.ext hpts⟩
    by_cases hbot : s = .bottom
    · rw [← ht, hbot]
      rfl
    · exact (hassign s hbot).trans ht
  mono := freed_mono c
  step a b S hstep ha := by
    cases hstep with
    | assign _ _ =>
      rw [vec_point_set hf h.name]
      exact update_mem_freed ha _

/-- Assigning to a variable what it holds already changes nothing. -/
theorem acts_keep (hf : f.names.Nodup) (h : f.HasColumn x c) {value : Value} (hreads : value.reads = some x)
    (hzero : value.offset = 0) : f.Acts (.assign x value) id := by
  refine acts_id (fun s => ?_) fun a b hstep => ?_
  · by_cases hbot : s = .bottom
    · rw [hbot]
      rfl
    · rw [transfer, assign_of_reads hbot hreads, increment, if_pos hzero]
  · cases hstep with
    | assign _ hyields =>
      rw [(Value.yields_of_reads hreads).1 hyields, hzero, add_zero, vec_point_set hf h.name, ← vec_point h.name,
        Function.update_eq_self]

theorem acts_shift (hf : f.names.Nodup) (h : f.HasColumn x c) {value : Value} (hreads : value.reads = some x)
    (hzero : value.offset ≠ 0) (henc : f.encoding = .affine) :
    f.Acts (.assign x value) fun S => {y | Function.update y c (y c - value.offset) ∈ S} where
  transfer s hs := by
    obtain ⟨t, ht, hcan, hpts⟩ := shift_spec h hs value.offset
    refine ⟨t, ?_, hcan, Set.ext hpts⟩
    by_cases hbot : s = .bottom
    · rw [← ht, hbot]
      rfl
    · rw [transfer, assign_of_reads hbot hreads, increment, if_neg hzero, henc]
      exact ht
  mono _ _ hST _ hy := hST hy
  step a b S hstep ha := by
    cases hstep with
    | assign _ hyields =>
      rw [(Value.yields_of_reads hreads).1 hyields, vec_point_set hf h.name]
      show Function.update _ c _ ∈ S
      rwa [Function.update_idem, Function.update_self, Int.cast_add, add_sub_cancel_right, ← vec_point h.name,
        Function.update_eq_self]

/-- Assigning a value that does not read the variable: nothing is left of the old value, and the
equation with the new one holds. Where the equation was known already the state stays as it is, which
comes to the same, since the equation leaves only one value. -/
theorem acts_equation (hf : f.names.Nodup) (h : f.HasColumn x c) {value : Value} (hreads : value.reads ≠ some x)
    {e : Relations} (ho : f.valueEquation x value = .ok (some e)) {g : (Nat → ℚ) → ℚ}
    (hpins : Pins f.names.length c g e) (hg : ∀ s m, value.Yields s m → (m : ℚ) = g (Row.vec (f.point s))) :
    f.Acts (.assign x value) fun S => freed c S ∩ {y | y c = g y} where
  transfer s hs := by
    by_cases hbot : s = .bottom
    · subst hbot
      refine ⟨.bottom, rfl, trivial, (Set.eq_empty_of_forall_notMem ?_).symm⟩
      rintro y ⟨⟨q, hq⟩, -⟩
      exact hq
    · obtain ⟨t, ht, hcan, hpts⟩ := forget_spec h hs
      obtain ⟨cmp, hcmp, hle, -⟩ := Relations.compare_spec hs hpins.canonical
      have hdomain : Domain.le s e = .ok cmp.isLe := by
        simp only [Domain.le, show Domain.compare s e = .ok cmp from hcmp, bind, Except.bind, pure, Except.pure]
      simp only [transfer, assign, isBottom_eq_false hbot, hreads, ho, hdomain, ht, Bool.false_eq_true, if_false, bind,
        Except.bind, pure, Except.pure]
      by_cases hb : cmp.isLe = true
      · rw [if_pos hb]
        refine ⟨s, rfl, hs, Set.Subset.antisymm (fun y hy => ?_) ?_⟩
        · exact ⟨⟨y c, by rwa [Function.update_eq_self]⟩, (hpins.points y).1 (hle.1 hb hy)⟩
        · rintro y ⟨⟨q, hq⟩, hy⟩
          have hqc := (hpins.points _).1 (hle.1 hb hq)
          rw [Function.update_self, hpins.other] at hqc
          rwa [hqc, ← show y c = g y from hy, Function.update_eq_self] at hq
      · rw [if_neg hb]
        obtain ⟨w, hw, hwcan, hwpts⟩ := Relations.meet_spec hcan hpins.canonical
        refine ⟨w, hw, hwcan, hwpts.trans ?_⟩
        ext y
        exact and_congr (hpts y) (hpins.points y)
  mono S T hST := Set.inter_subset_inter_left _ (freed_mono c hST)
  step a b S hstep ha := by
    cases hstep with
    | assign _ hyields =>
      rw [vec_point_set hf h.name]
      refine ⟨update_mem_freed ha _, (?_ : Function.update (Row.vec (f.point a)) c _ c = g _)⟩
      rw [Function.update_self, hpins.other, hg _ _ hyields]

/-- In either case: nothing is left of the old value, and the equation with the new one holds if the
frame keeps it. -/
theorem acts_assign (hf : f.names.Nodup) (h : f.HasColumn x c) {value : Value} (hreads : value.reads ≠ some x)
    (hu : ∀ u ∈ value.reads, u ∈ f.names) {o : Option Relations} (ho : f.valueEquation x value = .ok o) :
    f.Acts (.assign x value) fun S => {y | y ∈ freed c S ∧ ∀ e ∈ o, y ∈ e.Points f.names.length} := by
  obtain ⟨o', ho', hspec⟩ := valueEquation_spec h hreads hu
  obtain rfl := Except.ok.inj (ho.symm.trans ho')
  cases o with
  | none =>
    have hmap : (fun S => {y | y ∈ freed c S ∧ ∀ e ∈ (none : Option Relations), y ∈ e.Points f.names.length}) =
        freed c := by
      funext S
      simp
    rw [hmap]
    exact acts_forget hf h fun s hs => assign_of_none hs hreads ho
  | some e =>
    obtain ⟨g, hpins, hg⟩ := hspec e rfl
    have hmap : (fun S => {y | y ∈ freed c S ∧ ∀ d ∈ some e, y ∈ d.Points f.names.length}) =
        fun S => freed c S ∩ {y | y c = g y} := by
      funext S
      ext y
      simp [hpins.points]
    rw [hmap]
    exact acts_equation hf h hreads ho hpins fun s m hm => (hg _ _).1 (takes_point hu hm)

/-- Without constants nothing is known of a variable to which one was added. -/
theorem acts_increment (hf : f.names.Nodup) (h : f.HasColumn x c) {value : Value} (hreads : value.reads = some x)
    (hzero : value.offset ≠ 0) (henc : f.encoding = .homogeneous) : f.Acts (.assign x value) (freed c) := by
  refine acts_forget hf h fun s hs => ?_
  rw [assign_of_reads hs hreads, increment, if_neg hzero, henc]

/-! ### Assumptions -/

/-- A variable is what it is plus an offset only if the offset is zero. -/
theorem acts_equal_self {value : Value} (hreads : value.reads = some x) :
    f.Acts (.assume (.equal x value)) fun S => {y | y ∈ S ∧ value.offset = 0} := by
  refine ⟨fun s hs => ?_, fun S T hST y hy => ⟨hST hy.1, hy.2⟩, fun a b S h ha => ?_⟩
  · by_cases hzero : value.offset = 0
    · refine ⟨s, ?_, hs, by simp [hzero]⟩
      simp only [transfer, assume, hreads, hzero, if_true, bind, Except.bind, pure, Except.pure]
    · refine ⟨.bottom, ?_, trivial, by simp [hzero, Relations.Points]⟩
      simp only [transfer, assume, hreads, hzero, if_true, if_false, bind, Except.bind, pure, Except.pure]
  · obtain ⟨⟨m, hm, heq⟩, rfl⟩ := Statement.step_assume h
    rw [Value.yields_of_reads hreads] at hm
    exact ⟨ha, by omega⟩

theorem acts_unequal_self {value : Value} (hreads : value.reads = some x) :
    f.Acts (.assume (.unequal x value)) fun S => {y | y ∈ S ∧ value.offset ≠ 0} := by
  refine ⟨fun s hs => ?_, fun S T hST y hy => ⟨hST hy.1, hy.2⟩, fun a b S h ha => ?_⟩
  · by_cases hzero : value.offset = 0
    · refine ⟨.bottom, ?_, trivial, by simp [hzero, Relations.Points]⟩
      simp only [transfer, assume, hreads, hzero, if_true, bind, Except.bind, pure, Except.pure]
    · refine ⟨s, ?_, hs, by simp [hzero]⟩
      simp only [transfer, assume, hreads, hzero, if_true, if_false, bind, Except.bind, pure, Except.pure]
  · obtain ⟨⟨m, hm, hne⟩, rfl⟩ := Statement.step_assume h
    rw [Value.yields_of_reads hreads] at hm
    exact ⟨ha, by omega⟩

/-- The points that satisfy the equation are left, or all of them if the frame does not keep it. -/
theorem acts_equal (h : f.HasColumn x c) {value : Value} (hreads : value.reads ≠ some x)
    (hu : ∀ u ∈ value.reads, u ∈ f.names) {o : Option Relations} (ho : f.valueEquation x value = .ok o) :
    f.Acts (.assume (.equal x value)) fun S => {y | y ∈ S ∧ ∀ e ∈ o, y ∈ e.Points f.names.length} := by
  obtain ⟨o', ho', hspec⟩ := valueEquation_spec h hreads hu
  obtain rfl := Except.ok.inj (ho.symm.trans ho')
  refine ⟨fun s hs => ?_, fun S T hST y hy => ⟨hST hy.1, hy.2⟩, fun a b S hstep ha => ?_⟩
  · cases o with
    | none =>
      refine ⟨s, ?_, hs, by simp⟩
      simp only [transfer, assume, hreads, ho, if_false, bind, Except.bind, pure, Except.pure]
    | some e =>
      obtain ⟨g, hpins, -⟩ := hspec e rfl
      obtain ⟨w, hw, hcan, hpts⟩ := Relations.meet_spec hs hpins.canonical
      refine ⟨w, ?_, hcan, ?_⟩
      · simp only [transfer, assume, hreads, ho, hw, if_false, bind, Except.bind]
      · ext y
        simp [hpts]
  · obtain ⟨⟨m, hm, heq⟩, rfl⟩ := Statement.step_assume hstep
    refine ⟨ha, fun e he => ?_⟩
    obtain ⟨g, hpins, hg⟩ := hspec e he
    rw [hpins.points, vec_point h.name, heq, (hg _ _).1 (takes_point hu hm)]

/-- No point is left if all of them satisfy the equation, and otherwise all of them are. -/
theorem acts_unequal (h : f.HasColumn x c) {value : Value} (hreads : value.reads ≠ some x)
    (hu : ∀ u ∈ value.reads, u ∈ f.names) {o : Option Relations} (ho : f.valueEquation x value = .ok o) :
    f.Acts (.assume (.unequal x value)) fun S => {y | y ∈ S ∧ ∀ e ∈ o, ¬ S ⊆ e.Points f.names.length} := by
  obtain ⟨o', ho', hspec⟩ := valueEquation_spec h hreads hu
  obtain rfl := Except.ok.inj (ho.symm.trans ho')
  refine ⟨fun s hs => ?_, fun S T hST y hy => ⟨hST hy.1, fun e he hsub => hy.2 e he (hST.trans hsub)⟩,
    fun a b S hstep ha => ?_⟩
  · cases o with
    | none =>
      refine ⟨s, ?_, hs, by simp⟩
      simp only [transfer, assume, hreads, ho, if_false, bind, Except.bind, pure, Except.pure]
    | some e =>
      obtain ⟨g, hpins, -⟩ := hspec e rfl
      obtain ⟨cmp, hcmp, hle, -⟩ := Relations.compare_spec hs hpins.canonical
      simp only [transfer, assume, hreads, ho, Domain.le, show Domain.compare s e = .ok cmp from hcmp, if_false, bind,
        Except.bind, pure, Except.pure, Option.mem_def, Option.some.injEq, forall_eq', ← hle]
      by_cases hb : cmp.isLe = true
      · exact ⟨.bottom, by rw [if_pos hb], trivial, by simp [hb, Relations.Points]⟩
      · exact ⟨s, by rw [if_neg hb], hs, by simp [hb]⟩
  · obtain ⟨⟨m, hm, hne⟩, rfl⟩ := Statement.step_assume hstep
    refine ⟨ha, fun e he hsub => hne ?_⟩
    obtain ⟨g, hpins, hg⟩ := hspec e he
    have hpin := (hpins.points _).1 (hsub ha)
    rw [vec_point h.name, ← (hg _ _).1 (takes_point hu hm)] at hpin
    exact_mod_cast hpin

/-! ## Assertions -/

/-- The constraint of a clause allows the points at which its sum atoms hold. The fold starts from any
state, since each atom is met with what the atoms before it have left. -/
theorem foldlM_sums {clause : Clause} (h : ∀ atom ∈ clause, ∀ x ∈ atom.names, x ∈ f.names) {s : Relations}
    (hs : s.Canonical f.names.length) :
    ∃ t, (clause.foldlM (fun s atom => match atom with
        | .sum left right => do Relations.meet s (← f.sumEquation left right)
        | .even _ | .odd _ => return s) s : Except Fault Relations) = .ok t ∧ t.Canonical f.names.length ∧
      ∀ y : Nat → ℚ, y ∈ t.Points f.names.length ↔
        y ∈ s.Points f.names.length ∧ ∀ atom ∈ clause, atom.isSum → atom.HoldsAt (f.read fun i => y i) := by
  induction clause generalizing s with
  | nil => exact ⟨s, rfl, hs, fun y => by simp⟩
  | cons atom rest ih =>
    have hrest : ∀ a ∈ rest, ∀ x ∈ a.names, x ∈ f.names := fun a ha => h a (List.mem_cons_of_mem _ ha)
    have hatom := h atom List.mem_cons_self
    cases atom with
    | even x =>
      obtain ⟨t, ht, hcan, hpts⟩ := ih hrest hs
      exact ⟨t, ht, hcan, fun y => by rw [hpts]; simp [Atom.isSum]⟩
    | odd x =>
      obtain ⟨t, ht, hcan, hpts⟩ := ih hrest hs
      exact ⟨t, ht, hcan, fun y => by rw [hpts]; simp [Atom.isSum]⟩
    | sum left right =>
      obtain ⟨e, he, hecan, hepts⟩ := sumEquation_spec (f := f) (fun x hx => hatom x (List.mem_append_left _ hx))
        fun x hx => hatom x (List.mem_append_right _ hx)
      obtain ⟨w, hw, hwcan, hwpts⟩ := Relations.meet_spec hs hecan
      obtain ⟨t, ht, hcan, hpts⟩ := ih hrest hwcan
      refine ⟨t, ?_, hcan, fun y => ?_⟩
      · simp only [List.foldlM_cons, he, hw, bind, Except.bind]
        exact ht
      · rw [hpts, hwpts]
        simp [Atom.isSum, hepts, and_assoc]

/-- The equations of a clause are those of a canonical state. -/
theorem sumConstraint_spec {clause : Clause} (h : ∀ atom ∈ clause, ∀ x ∈ atom.names, x ∈ f.names) :
    ∃ t, f.sumConstraint clause = .ok t ∧ t.Canonical f.names.length ∧ ∀ y : Nat → ℚ,
      y ∈ t.Points f.names.length ↔ ∀ atom ∈ clause, atom.isSum → atom.HoldsAt (f.read fun i => y i) := by
  obtain ⟨t, ht, hcan, hpts⟩ := foldlM_sums (f := f) (s := .top) h trivial
  exact ⟨t, ht, hcan, fun y => (hpts y).trans (and_iff_right trivial)⟩

/-- The sums of a clause are proved exactly if they hold at every point. -/
theorem provesSums_spec {clause : Clause} (h : ∀ atom ∈ clause, ∀ x ∈ atom.names, x ∈ f.names)
    (hs : s.Canonical f.names.length) :
    ∃ b, f.provesSums s clause = .ok b ∧ (b = true ↔ ∀ y ∈ s.Points f.names.length,
      ∀ atom ∈ clause, atom.isSum → atom.HoldsAt (f.read fun i => y i)) := by
  obtain ⟨t, ht, hcan, hpts⟩ := sumConstraint_spec h
  obtain ⟨cmp, hcmp, hle, -⟩ := Relations.compare_spec hs hcan
  refine ⟨cmp.isLe, ?_, hle.trans (forall₂_congr fun y _ => hpts y)⟩
  simp only [provesSums, ht, Domain.le, show Domain.compare s t = .ok cmp from hcmp, bind, Except.bind, pure,
    Except.pure]

/-- Sums that are proved hold in every store. -/
theorem holds_of_provesSums {clause : Clause} (h : ∀ atom ∈ clause, ∀ x ∈ atom.names, x ∈ f.names)
    (hs : s.Canonical f.names.length) (hproves : f.provesSums s clause = .ok true) {σ : Store}
    (hσ : Row.vec (f.point σ) ∈ s.Points f.names.length) : ∀ atom ∈ clause, atom.isSum → atom.Holds σ := by
  intro atom hatom hsum
  obtain ⟨b, hb, hiff⟩ := provesSums_spec h hs
  obtain rfl := Except.ok.inj (hproves.symm.trans hb)
  exact (holdsAt_point (h atom hatom) σ).1 (hiff.1 rfl _ hσ atom hatom hsum)

theorem anyM_spec {α : Type} {p : α → Except Fault Bool} {xs : List α} (h : ∀ x ∈ xs, ∃ b, p x = .ok b) :
    ∃ b, xs.anyM p = .ok b ∧ (b = true ↔ ∃ x ∈ xs, p x = .ok true) := by
  induction xs with
  | nil => exact ⟨false, rfl, by simp⟩
  | cons x rest ih =>
    obtain ⟨b, hb⟩ := h x List.mem_cons_self
    obtain ⟨d, hd, hiff⟩ := ih fun y hy => h y (List.mem_cons_of_mem _ hy)
    simp only [List.anyM, List.mem_cons, exists_eq_or_imp, hb, ← hiff, bind, Except.bind]
    cases b with
    | true => exact ⟨true, rfl, by simp⟩
    | false => exact ⟨d, hd, by simp⟩

theorem names_of_clause {a : Assertion} (h : ∀ x ∈ (Statement.assert a).mentions, x ∈ f.names) (clause : Clause)
    (hc : clause ∈ a.clauses) : ∀ atom ∈ clause, ∀ x ∈ atom.names, x ∈ f.names := by
  intro atom hatom x hx
  apply h
  exact List.mem_flatMap.2 ⟨atom, List.mem_flatten.2 ⟨clause, hc, hatom⟩, hx⟩

/-- The check of the sum analysis answers, and an assertion that it calls proved holds in every store
that the state allows. -/
theorem check_spec {a : Assertion} (h : ∀ x ∈ (Statement.assert a).mentions, x ∈ f.names)
    (hs : s.Canonical f.names.length) :
    ∃ v, f.check a s = .ok v ∧
      (v = .proved → ∀ σ : Store, Row.vec (f.point σ) ∈ s.Points f.names.length → a.Holds σ) := by
  by_cases hbot : s = .bottom
  · subst hbot
    exact ⟨.proved, rfl, fun _ _ hσ => hσ.elim⟩
  · simp only [check, isBottom_eq_false hbot, Bool.false_eq_true, if_false, bind, Except.bind, pure, Except.pure]
    by_cases hpar : a.hasParity = true
    · rw [if_pos hpar]
      exact ⟨.unsupported, rfl, nofun⟩
    · rw [if_neg hpar]
      obtain ⟨b, hb, hiff⟩ := anyM_spec fun clause hc =>
        (provesSums_spec (names_of_clause h clause hc) hs).imp fun _ => And.left
      rw [hb]
      refine ⟨_, rfl, fun hv σ hσ => ?_⟩
      obtain ⟨clause, hc, hp⟩ := hiff.1 (by cases b <;> simp_all [Verdict.ofBool])
      refine ⟨clause, hc, fun atom hatom => holds_of_provesSums (names_of_clause h clause hc) hs hp hσ atom hatom ?_⟩
      -- Without parity atoms every atom of the clause is a sum.
      by_contra hsum
      exact hpar (List.any_eq_true.2 ⟨atom, List.mem_flatten.2 ⟨clause, hc, hatom⟩, by simp [Atom.isParity, hsum]⟩)

/-- The sum analysis proves everything of the least state, and of other states what a clause of sums says. -/
theorem check_eq_proved {a : Assertion} (h : ∀ x ∈ (Statement.assert a).mentions, x ∈ f.names)
    (hs : s.Canonical f.names.length) : f.check a s = .ok .proved ↔
      s.isBottom = true ∨ a.hasParity = false ∧ ∃ c ∈ a.clauses, f.provesSums s c = .ok true := by
  obtain ⟨b, hb, hiff⟩ := anyM_spec fun c hc => (provesSums_spec (names_of_clause h c hc) hs).imp fun _ => And.left
  rw [← hiff]
  simp only [check, hb, bind, Except.bind, pure, Except.pure]
  by_cases hbot : s.isBottom = true
  · simp [hbot]
  · by_cases hpar : a.hasParity = true
    · simp [hbot, hpar]
    · cases b <;> simp [hbot, hpar, Verdict.ofBool]

end Frame

end FlowFacts
