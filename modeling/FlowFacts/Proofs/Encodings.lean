import Mathlib
import FlowFacts.Proofs.SumAnalysis

/-!
# Statements in both encodings

The homogeneous encoding leaves out the equations that have a constant. Otherwise it does to sets of
points what the affine encoding does, so one pair of maps describes a statement in both of them
(`Frame.Coarsens`, `Frame.exists_coarsens`): the homogeneous one leaves more points, and it leaves the
origin where there was one. In either encoding a statement acts by a map of its own
(`Frame.exists_acts`).
-/

namespace FlowFacts

namespace Frame

variable {names : List String} {x : String} {c : Nat} {value : Value} {e : Relations}

/-! ## Equations in both encodings -/

/-- What the homogeneous encoding keeps has no constant, and the affine one keeps it too. -/
theorem constEquation_homogeneous {k : Int} (he : (⟨names, .homogeneous⟩ : Frame).constEquation c k = some e) :
    k = 0 ∧ (⟨names, .affine⟩ : Frame).constEquation c k = some e := by
  rw [constEquation] at he
  split at he
  · cases he
  · next hkept => exact ⟨by simpa using hkept, he⟩

theorem copyEquation_homogeneous {d : Nat} {k : Int}
    (he : (⟨names, .homogeneous⟩ : Frame).copyEquation c d k = some e) :
    k = 0 ∧ (⟨names, .affine⟩ : Frame).copyEquation c d k = some e := by
  rw [copyEquation] at he
  split at he
  · cases he
  · next hkept => exact ⟨by simpa using hkept, he⟩

/-- The point where all variables are zero. -/
abbrev zeroPoint (names : List String) : Nat → ℚ := Row.vec ((⟨names, .homogeneous⟩ : Frame).point fun _ => 0)

theorem zeroPoint_eq_zero {i : Nat} (h : i < names.length) : zeroPoint names i = 0 :=
  vec_point (f := ⟨names, .homogeneous⟩) (List.getElem?_eq_getElem h) _

theorem exists_columns (hx : x ∈ names) : ∃ c, ∀ enc, (⟨names, enc⟩ : Frame).HasColumn x c := by
  obtain ⟨c, hc⟩ := exists_column (f := ⟨names, .affine⟩) hx
  exact ⟨c, fun _ => ⟨hc.column, hc.name⟩⟩

/-- What the homogeneous encoding keeps is among what the affine one does, and holds where all variables
are zero. -/
theorem exists_equations (hc : ∀ enc, (⟨names, enc⟩ : Frame).HasColumn x c) (hreads : value.reads ≠ some x)
    (hu : ∀ u ∈ value.reads, u ∈ names) :
    ∃ o o', (⟨names, .affine⟩ : Frame).valueEquation x value = .ok o ∧
      (⟨names, .homogeneous⟩ : Frame).valueEquation x value = .ok o' ∧
      ∀ e ∈ o', e ∈ o ∧ zeroPoint names ∈ e.Points names.length := by
  -- The equation of the homogeneous encoding holds at zero if its value is zero there.
  have hzero : ∀ {o'}, (⟨names, .homogeneous⟩ : Frame).valueEquation x value = .ok o' → ∀ e ∈ o',
      value.Yields (fun _ => 0) 0 → zeroPoint names ∈ e.Points names.length := by
    intro o' ho' e he hyields
    obtain ⟨o, ho, hspec⟩ := valueEquation_spec (hc .homogeneous) hreads hu
    obtain rfl := Except.ok.inj (ho.symm.trans ho')
    obtain ⟨g, hpins, hg⟩ := hspec e he
    rw [hpins.points, ← (hg _ _).1 (takes_point (f := ⟨names, .homogeneous⟩) hu hyields)]
    exact vec_point (hc .homogeneous).name _
  cases hread : value.reads with
  | some u =>
    obtain ⟨d, hd⟩ := exists_columns (hu u hread)
    have hne : u ≠ x := fun h => hreads (h ▸ hread)
    have hcopy := fun enc => valueEquation_copy (hc enc) (hd enc) hne hread
    refine ⟨_, _, hcopy .affine, hcopy .homogeneous, fun e he => ?_⟩
    obtain ⟨hoffset, hkept⟩ := copyEquation_homogeneous he
    refine ⟨hkept, hzero (hcopy .homogeneous) e he ((Value.yields_of_reads hread).2 ?_)⟩
    rw [hoffset, add_zero]
  | none =>
    cases value with
    | unknown => exact ⟨_, _, valueEquation_unknown (hc .affine), valueEquation_unknown (hc .homogeneous), nofun⟩
    | const k =>
      have hconst := fun enc => valueEquation_const (hc enc) k
      refine ⟨_, _, hconst .affine, hconst .homogeneous, fun e he => ?_⟩
      obtain ⟨rfl, hkept⟩ := constEquation_homogeneous he
      exact ⟨hkept, hzero (hconst .homogeneous) e he rfl⟩
    | var | plus | minus => cases hread

/-! ## Statements in both encodings -/

/-- The origin is in the set if anything is. -/
def Centered (names : List String) (S : Set (Nat → ℚ)) : Prop := S.Nonempty → zeroPoint names ∈ S

/-- What a statement does to the points of a state, with and without constants. Without them more points
are left, and the origin stays where it is. -/
structure Coarsens (names : List String) (statement : Statement) (F G : Set (Nat → ℚ) → Set (Nat → ℚ)) : Prop where
  affine : (⟨names, .affine⟩ : Frame).Acts statement F
  homogeneous : (⟨names, .homogeneous⟩ : Frame).Acts statement G
  subset : ∀ S, F S ⊆ G S
  centered : ∀ S, Centered names S → Centered names (G S)

/-- A statement that does the same in both encodings. -/
theorem Coarsens.of_same {statement : Statement} {F : Set (Nat → ℚ) → Set (Nat → ℚ)}
    (h : ∀ enc, (⟨names, enc⟩ : Frame).Acts statement F)
    (hcentered : ∀ S, Centered names S → Centered names (F S)) : Coarsens names statement F F :=
  ⟨h .affine, h .homogeneous, fun _ => subset_rfl, hcentered⟩

theorem centered_freed (c : Nat) {S : Set (Nat → ℚ)} (h : Centered names S) : Centered names (freed c S) := by
  rintro ⟨y, q, hq⟩
  refine ⟨zeroPoint names c, ?_⟩
  rw [Function.update_eq_self]
  exact h ⟨_, hq⟩

theorem centered_sep {S : Set (Nat → ℚ)} {P : (Nat → ℚ) → Prop} (h : Centered names S)
    (hP : ∀ y ∈ S, P y → P (zeroPoint names)) : Centered names {y | y ∈ S ∧ P y} := by
  rintro ⟨y, hy, hPy⟩
  exact ⟨h ⟨y, hy⟩, hP y hy hPy⟩

theorem exists_coarsens_assign (hnames : names.Nodup) (hx : x ∈ names) (hu : ∀ u ∈ value.reads, u ∈ names) :
    ∃ F G, Coarsens names (.assign x value) F G := by
  obtain ⟨c, hc⟩ := exists_columns hx
  by_cases hreads : value.reads = some x
  · by_cases hzero : value.offset = 0
    · exact ⟨_, _, .of_same (fun enc => acts_keep hnames (hc enc) hreads hzero) fun _ h => h⟩
    · -- The old value is one that the variable may have had when nothing is known of it.
      refine ⟨_, _, acts_shift hnames (hc .affine) hreads hzero rfl,
        acts_increment hnames (hc .homogeneous) hreads hzero rfl, ?_, fun S => centered_freed c⟩
      exact fun S y hy => ⟨_, hy⟩
  · obtain ⟨o, o', ho, ho', hsub⟩ := exists_equations hc hreads hu
    refine ⟨_, _, acts_assign hnames (hc .affine) hreads hu ho, acts_assign hnames (hc .homogeneous) hreads hu ho',
      ?_, ?_⟩
    · exact fun S y hy => ⟨hy.1, fun e he => hy.2 e (hsub e he).1⟩
    · exact fun S h => centered_sep (centered_freed c h) fun _ _ _ e he => (hsub e he).2

theorem exists_coarsens_equal (hx : x ∈ names) (hu : ∀ u ∈ value.reads, u ∈ names) :
    ∃ F G, Coarsens names (.assume (.equal x value)) F G := by
  obtain ⟨c, hc⟩ := exists_columns hx
  by_cases hreads : value.reads = some x
  · exact ⟨_, _, .of_same (fun _ => acts_equal_self hreads) fun S h => centered_sep h fun _ _ => id⟩
  · obtain ⟨o, o', ho, ho', hsub⟩ := exists_equations hc hreads hu
    refine ⟨_, _, acts_equal (hc .affine) hreads hu ho, acts_equal (hc .homogeneous) hreads hu ho', ?_, ?_⟩
    · exact fun S y hy => ⟨hy.1, fun e he => hy.2 e (hsub e he).1⟩
    · exact fun S h => centered_sep h fun _ _ _ e he => (hsub e he).2

theorem exists_coarsens_unequal (hx : x ∈ names) (hu : ∀ u ∈ value.reads, u ∈ names) :
    ∃ F G, Coarsens names (.assume (.unequal x value)) F G := by
  obtain ⟨c, hc⟩ := exists_columns hx
  by_cases hreads : value.reads = some x
  · exact ⟨_, _, .of_same (fun _ => acts_unequal_self hreads) fun S h => centered_sep h fun _ _ => id⟩
  · obtain ⟨o, o', ho, ho', hsub⟩ := exists_equations hc hreads hu
    refine ⟨_, _, acts_unequal (hc .affine) hreads hu ho, acts_unequal (hc .homogeneous) hreads hu ho', ?_, ?_⟩
    · exact fun S y hy => ⟨hy.1, fun e he => hy.2 e (hsub e he).1⟩
    · exact fun S h => centered_sep h fun _ _ => id

/-- Every statement over the variables does to sets of points what such a pair of maps does. -/
theorem exists_coarsens (hnames : names.Nodup) {statement : Statement} (h : ∀ x ∈ statement.mentions, x ∈ names) :
    ∃ F G, Coarsens names statement F G := by
  cases statement with
  | skip => exact ⟨_, _, .of_same (fun _ => acts_skip) fun _ h => h⟩
  | assert a => exact ⟨_, _, .of_same (fun _ => acts_assert a) fun _ h => h⟩
  | assign x value => exact exists_coarsens_assign hnames (h x List.mem_cons_self) (Value.reads_mem h)
  | assume condition =>
    cases condition with
    | always => exact ⟨_, _, .of_same (fun _ => acts_always) fun _ h => h⟩
    | never => exact ⟨_, _, .of_same (fun _ => acts_never) fun _ _ h => absurd h Set.not_nonempty_empty⟩
    | equal x value => exact exists_coarsens_equal (h x List.mem_cons_self) (Value.reads_mem h)
    | unequal x value => exact exists_coarsens_unequal (h x List.mem_cons_self) (Value.reads_mem h)

/-- Every statement over the variables of a frame acts by a monotone map. -/
theorem exists_acts {f : Frame} (hf : f.names.Nodup) {statement : Statement}
    (h : ∀ x ∈ statement.mentions, x ∈ f.names) : ∃ F, f.Acts statement F := by
  obtain ⟨names, enc⟩ := f
  obtain ⟨F, G, hFG⟩ := exists_coarsens hf h
  cases enc with
  | affine => exact ⟨F, hFG.affine⟩
  | homogeneous => exact ⟨G, hFG.homogeneous⟩

end Frame

end FlowFacts
