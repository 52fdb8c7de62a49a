import Mathlib
import FlowFacts.Proofs.LiftChecks

/-!
# The parities that equations allow

An equation with rational coefficients is read modulo two after it is scaled to integers without a common factor. It
can be scaled so in two ways, which are the same modulo two (`Primitive.intCast_eq`), so a system has one set of
solutions there, whatever the scaling: `RationalMatrix.solutionsModTwo`. The parities of an integer point of the system
are among them.

What is listed for some columns is what these solutions are in the columns (`Frame.Restricts`). The directions that the
list goes along are independent, so no two of its rows are the same. `Frame.parityPoints_exact` says both, and when
there is no list.
-/

namespace FlowFacts

/-! ## Solutions modulo two -/

namespace RationalMatrix

variable {n : Nat} {m : RationalMatrix}

/-- The parities of `n` variables that satisfy the rows of a system, each scaled to integers without a common factor. -/
def solutionsModTwo (n : Nat) (m : RationalMatrix) : Set (Fin n → ZMod 2) :=
  {v | ∀ row ∈ m.rows, ∀ z : Fin (n + 1) → ℤ, Primitive row z →
    ∑ i : Fin n, (z i.castSucc : ZMod 2) * v i + z (Fin.last n) = 0}

/-- The parities of an integer point of a system satisfy it modulo two. -/
theorem intCast_mem_solutionsModTwo {x : Fin n → ℤ} (h : (fun i => (x i : ℚ)) ∈ m.solutionSet n) :
    (fun i => (x i : ZMod 2)) ∈ m.solutionsModTwo n := by
  intro row hrow z hz
  obtain ⟨c, hc⟩ := hz.multiple
  exact sum_mod_two (fun i _ => hc i.castSucc) (hc (Fin.last n)) (h row hrow)

end RationalMatrix

/-- The equation of a row modulo two, from any scaling of it. -/
theorem Primitive.equationAt_eq {n c : Nat} {row : List Fraction} {z : Fin (n + 1) → ℤ} (hz : Primitive row z)
    (hlen : row.length = n + 1) (hc : row.getD c 0 ≠ 0) (w : Nat → ZMod 2) :
    equationAt n (parityCoeff row) w = ∑ i : Fin n, (z i.castSucc : ZMod 2) * w i + z (Fin.last n) := by
  have hcoeff : ∀ j : Fin (n + 1), parityCoeff row j = z j := fun j =>
    (Fraction.primitive_integerRow hlen hc).intCast_eq hz j
  rw [equationAt_eq_sum]
  congr 1
  · refine Finset.sum_congr rfl fun i _ => ?_
    rw [← hcoeff]
    rfl
  · exact hcoeff (Fin.last n)

theorem IsCanonical.mem_parities {n : Nat} {m : RationalMatrix} (hm : IsCanonical n m) {w : Nat → ZMod 2} :
    w ∈ m.parities n ↔ (fun i : Fin n => w i) ∈ m.solutionsModTwo n := by
  refine forall₂_congr fun row hrow => ?_
  have hlen : row.length = n + 1 := (m.width row hrow).trans hm.columns
  obtain ⟨c, -, hone⟩ := hm.reduced.lead_one row hrow
  have hc : row.getD c 0 ≠ 0 := by
    intro hzero
    rw [vec_fractions, hzero, Fraction.toRat_zero] at hone
    exact zero_ne_one hone
  constructor
  · intro hw z hz
    rwa [hz.equationAt_eq hlen hc] at hw
  · intro hw
    have hz := Fraction.primitive_integerRow hlen hc
    have hsum := hw _ hz
    rwa [← hz.equationAt_eq hlen hc] at hsum

/-! ## No row is listed twice -/

namespace Frame

/-- Rows stay apart if they do not differ by the directions that are still to come. -/
theorem reached_apart {n : Nat} {directions rows : List BitRow} (hd : ∀ d ∈ directions, d.length = n)
    (hrows : ∀ r ∈ rows, r.length = n) (hred : IsReduced directions)
    (hapart : rows.Pairwise fun r q => Row.vec r - Row.vec q ∉ rowSpace directions) :
    (reached rows directions).Pairwise fun r q => Row.vec r ≠ Row.vec q := by
  induction directions generalizing rows with
  | nil => exact hapart.imp fun hrq heq => hrq (by rw [heq, sub_self]; exact zero_mem _)
  | cons d rest ih =>
    have hdlen : d.length = n := hd d List.mem_cons_self
    have hadd : ∀ r ∈ rows, Row.vec (moved d r) = Row.vec r + Row.vec d := fun r hr =>
      vec_moved (hdlen.trans (hrows r hr).symm)
    have hle : rowSpace rest ≤ rowSpace (d :: rest) :=
      rowSpace_le.2 fun r hr => vec_mem_rowSpace (List.mem_cons_of_mem _ hr)
    -- A row and a moved one differ by the direction if they come from the same row, and else as the two rows did.
    have hmoved : ∀ r ∈ rows, ∀ q ∈ rows, Row.vec r - (Row.vec q + Row.vec d) ∉ rowSpace rest := by
      intro r hr q hq hmem
      by_cases hrq : r = q
      · rw [hrq, sub_add_cancel_left, neg_mem_iff] at hmem
        exact hred.vec_notMem_tail hmem
      · have hsymm : Std.Symm fun r q : BitRow => Row.vec r - Row.vec q ∉ rowSpace (d :: rest) := by
          refine ⟨fun r q h hmem => ?_⟩
          rw [← neg_sub] at hmem
          exact h (neg_mem_iff.1 hmem)
        refine hapart.forall hr hq hrq ?_
        have hsum := add_mem (hle hmem) (vec_mem_rowSpace (List.mem_cons_self : d ∈ d :: rest))
        rwa [← sub_sub, sub_add_cancel] at hsum
    refine ih (fun e he => hd e (List.mem_cons_of_mem _ he)) (length_of_mem_moved hdlen hrows) hred.tail
      (List.pairwise_append.2 ⟨?_, ?_, ?_⟩)
    · exact hapart.imp fun hrq hmem => hrq (hle hmem)
    · refine List.pairwise_map.2 (hapart.imp_of_mem fun {r q} hr hq hrq hmem => hrq (hle ?_))
      rwa [hadd r hr, hadd q hq, add_sub_add_right_eq_sub] at hmem
    · intro r hr s hs
      obtain ⟨q, hq, rfl⟩ := List.mem_map.1 hs
      rw [hadd q hq]
      exact hmoved r hr q hq

theorem length_reached (rows directions : List BitRow) :
    (reached rows directions).length = 2 ^ directions.length * rows.length := by
  induction directions generalizing rows with
  | nil => simp [reached]
  | cons d rest ih =>
    show (reached (rows ++ rows.map (moved d)) rest).length = _
    rw [ih, List.length_append, List.length_map, List.length_cons, pow_succ]
    ring

/-! ## Maps of parities -/

variable {f : Frame} {columns : List Nat}

/-- A map that gives the variables in some columns the parities of a vector, and leaves all other names open. -/
structure Restricts (f : Frame) (columns : List Nat) (v : Fin f.names.length → ZMod 2) (p : ParityMap) : Prop where
  default : p.default = .top
  selected : ∀ c : Fin f.names.length, (c : Nat) ∈ columns → p.get (f.names.get c) = .ofBit (v c)
  others : ∀ x, (∀ c : Fin f.names.length, (c : Nat) ∈ columns → f.names.get c ≠ x) → p.get x = .top

namespace Restricts

variable {v w : Fin f.names.length → ZMod 2} {p q : ParityMap}

/-- Two such maps are the same just if the vectors are the same in the columns. -/
theorem eq_iff (hp : f.Restricts columns v p) (hq : f.Restricts columns w q) :
    p = q ↔ ∀ c : Fin f.names.length, (c : Nat) ∈ columns → v c = w c := by
  constructor
  · rintro rfl c hc
    have hbit : Function.Injective Parity.ofBit := by decide
    exact hbit ((hp.selected c hc).symm.trans (hq.selected c hc))
  · intro h
    refine VarMap.ext_get (hp.default.trans hq.default.symm) fun x => ?_
    by_cases hx : ∃ c : Fin f.names.length, (c : Nat) ∈ columns ∧ f.names.get c = x
    · obtain ⟨c, hc, rfl⟩ := hx
      rw [hp.selected c hc, hq.selected c hc, h c hc]
    · have hnone : ∀ c : Fin f.names.length, (c : Nat) ∈ columns → f.names.get c ≠ x := fun c hc heq => hx ⟨c, hc, heq⟩
      rw [hp.others x hnone, hq.others x hnone]

end Restricts

/-- The map of a listed row. -/
theorem restricts_parityMapAt (hf : f.names.Nodup) (hcols : ∀ c ∈ columns, c < f.names.length) {bits : BitRow}
    {w : Nat → ZMod 2} (hlen : bits.length = columns.length) (hbits : Row.vec bits = pick columns w) :
    f.Restricts columns (fun i => w i) (f.parityMapAt columns bits) := by
  have hcolumn : ∀ c : Fin f.names.length, f.HasColumn (f.names.get c) c := fun c =>
    hasColumn_of_nodup hf (List.getElem?_eq_getElem c.isLt)
  refine ⟨default_ofEntries _, fun c hc => ?_, fun x hx => ?_⟩
  · exact get_parityMapAt hlen hbits (fun d hd => ⟨_, hcolumn ⟨d, hcols d hd⟩⟩) (hcolumn c) hc
  · rw [parityMapAt_eq hlen hbits]
    rcases VarMap.get_ofEntries Parity.top (columns.map fun c => ⟨f.names.getD c "", .ofBit (w c)⟩) x with
      ⟨e, he, hex, -⟩ | ⟨-, hget⟩
    · obtain ⟨c, hc, rfl⟩ := List.mem_map.1 he
      refine absurd ?_ (hx ⟨c, hcols c hc⟩ hc)
      rw [← hex]
      exact (List.getD_eq_getElem _ _ (hcols c hc)).symm
    · exact hget

/-! ## The list -/

namespace Lists

variable {m : RationalMatrix} {origin : BitRow} {dirs : BitMatrix}

theorem length_map (h : Lists f.names.length m columns origin dirs) :
    ((reached [origin] dirs.rows).map (f.parityMapAt columns)).length = 2 ^ m.freeParities f.names.length columns := by
  rw [List.length_map, length_reached, List.length_singleton, mul_one, ← h.height]
  rfl

/-- What a solution modulo two is in the columns is listed. -/
theorem exists_restricts (h : Lists f.names.length m columns origin dirs) (hf : f.names.Nodup)
    (hm : IsCanonical f.names.length m) (hcols : ∀ c ∈ columns, c < f.names.length)
    {v : Fin f.names.length → ZMod 2} (hv : v ∈ m.solutionsModTwo f.names.length) :
    ∃ p ∈ (reached [origin] dirs.rows).map (f.parityMapAt columns), f.Restricts columns v p := by
  obtain ⟨hlen, hmem⟩ := h.spec
  -- The vector goes on with any parities beyond the last variable.
  obtain ⟨w, rfl⟩ := Fin.val_injective.surjective_comp_right v
  obtain ⟨bits, hbits, hvec⟩ := (hmem _).2 ⟨w, hm.mem_parities.2 hv, rfl⟩
  exact ⟨_, List.mem_map_of_mem hbits, restricts_parityMapAt hf hcols (hlen bits hbits) hvec⟩

/-- The maps of the listed rows are what the solutions modulo two are in the columns. -/
theorem mem_map_iff (h : Lists f.names.length m columns origin dirs) (hf : f.names.Nodup)
    (hm : IsCanonical f.names.length m) (hcols : ∀ c ∈ columns, c < f.names.length) {p : ParityMap} :
    p ∈ (reached [origin] dirs.rows).map (f.parityMapAt columns) ↔
      ∃ v ∈ m.solutionsModTwo f.names.length, f.Restricts columns v p := by
  constructor
  · intro hp
    obtain ⟨hlen, hmem⟩ := h.spec
    obtain ⟨bits, hbits, rfl⟩ := List.mem_map.1 hp
    obtain ⟨w, hw, hvec⟩ := (hmem _).1 ⟨bits, hbits, rfl⟩
    exact ⟨_, hm.mem_parities.1 hw, restricts_parityMapAt hf hcols (hlen bits hbits) hvec.symm⟩
  · rintro ⟨v, hv, hp⟩
    obtain ⟨q, hq, hrestricts⟩ := h.exists_restricts hf hm hcols hv
    rwa [(hp.eq_iff hrestricts).2 fun _ _ => rfl]

/-- No map is listed twice, since rows that give the same map are the same vector. -/
theorem nodup_map (h : Lists f.names.length m columns origin dirs) (hf : f.names.Nodup)
    (hcols : ∀ c ∈ columns, c < f.names.length) :
    ((reached [origin] dirs.rows).map (f.parityMapAt columns)).Nodup := by
  obtain ⟨hlen, hmem⟩ := h.spec
  have hapart : (reached [origin] dirs.rows).Pairwise fun r q => Row.vec r ≠ Row.vec q :=
    reached_apart (fun d => h.width_row) (List.forall_mem_singleton.2 h.length) h.reduced (List.pairwise_singleton _ _)
  refine List.pairwise_map.2 (hapart.imp_of_mem fun {r q} hr hq hrq heq => hrq ?_)
  obtain ⟨v, -, hv⟩ := (hmem _).1 ⟨r, hr, rfl⟩
  obtain ⟨w, -, hw⟩ := (hmem _).1 ⟨q, hq, rfl⟩
  have hsame := ((restricts_parityMapAt hf hcols (hlen r hr) hv.symm).eq_iff
    (restricts_parityMapAt hf hcols (hlen q hq) hw.symm)).1 heq
  rw [← hv, ← hw]
  funext i
  rw [pick_apply, pick_apply]
  cases hi : columns[i]? with
  | none => rfl
  | some c =>
    have hc := List.mem_of_getElem? hi
    exact hsame ⟨c, hcols c hc⟩ hc

end Lists

/-- For a state over distinct variables and some of their columns there is no list just if the equations have no
solution modulo two. Else, unless there are too many to choose freely, the list holds each map once that a solution
modulo two is in the columns, and no other maps. The parities of an integer point are such a solution. -/
theorem parityPoints_exact {m : RationalMatrix} (hf : f.names.Nodup) (hm : IsCanonical f.names.length m)
    (hcols : ∀ c ∈ columns, c < f.names.length) :
    (f.parityPoints (.system m) columns = .ok none ↔ m.solutionsModTwo f.names.length = ∅) ∧
      ((m.solutionsModTwo f.names.length).Nonempty → 64 ≤ m.freeParities f.names.length columns →
        f.parityPoints (.system m) columns = .error (.tooManyDirections (m.freeParities f.names.length columns))) ∧
      ((m.solutionsModTwo f.names.length).Nonempty → m.freeParities f.names.length columns < 64 →
        ∃ ps, f.parityPoints (.system m) columns = .ok (some ps) ∧ ps.Nodup ∧
          ps.length = 2 ^ m.freeParities f.names.length columns ∧
          (∀ p, p ∈ ps ↔ ∃ v ∈ m.solutionsModTwo f.names.length, f.Restricts columns v p) ∧
          ∀ x : Fin f.names.length → ℤ, (fun i => (x i : ℚ)) ∈ m.solutionSet f.names.length →
            ∃ p ∈ ps, f.Restricts columns (fun i => (x i : ZMod 2)) p) := by
  rcases parityPoints_cases hm hcols with ⟨hno, hpoints⟩ | ⟨origin, dirs, hlists, hpoints⟩
  · have hnone : m.solutionsModTwo f.names.length = ∅ := by
      refine Set.eq_empty_of_forall_notMem fun v hv => ?_
      obtain ⟨w, rfl⟩ := Fin.val_injective.surjective_comp_right v
      have hw := hm.mem_parities.2 hv
      rwa [hno] at hw
    rw [hnone]
    exact ⟨iff_of_true hpoints rfl, fun hsome => absurd hsome Set.not_nonempty_empty,
      fun hsome => absurd hsome Set.not_nonempty_empty⟩
  · obtain ⟨w, hw, -⟩ := hlists.origin
    have hsome : (m.solutionsModTwo f.names.length).Nonempty := ⟨_, hm.mem_parities.1 hw⟩
    rw [hpoints, hlists.height]
    refine ⟨iff_of_false ?_ hsome.ne_empty, fun _ hmany => if_pos hmany, fun _ hfew => ?_⟩
    · split
      · nofun
      · nofun
    · refine ⟨_, if_neg (by omega), hlists.nodup_map hf hcols, hlists.length_map,
        fun p => hlists.mem_map_iff hf hm hcols, fun x hx => ?_⟩
      exact hlists.exists_restricts hf hm hcols (RationalMatrix.intCast_mem_solutionsModTwo hx)

/-- `2 x + 3 y = 1` and `x = z`, which is `x = z` and `y + 2 z / 3 = 1 / 3`. -/
def slanted : RationalMatrix :=
  RowMatrix.reduced ⟨4, [[.ofInt 2, .ofInt 3, 0, -1], [1, 0, -1, 0]], by decide⟩

/-- `2 x + 2 y = 1`, which is `x + y = 1 / 2`. -/
def uneven : RationalMatrix := RowMatrix.reduced ⟨4, [[.ofInt 2, .ofInt 2, 0, -1]], by decide⟩

/-- Three variables, with constants. -/
def triple : Frame := ⟨["x", "y", "z"], .affine⟩

/-- Where `2 x + 3 y = 1` and `x = z`, modulo two `y` is odd and `z` has the parity of `x`. So two maps are listed for
`z` and `y`, and the point `(2, -1, 2)` has one of them. For `2 x + 2 y = 1` there is no list. -/
theorem parityPoints_exact_slanted :
    (triple.names.Nodup ∧ IsCanonical 3 slanted ∧ ∃ ps, triple.parityPoints (.system slanted) [2, 1] = .ok (some ps) ∧
      ps.Nodup ∧ ps = [.ofEntries .top [⟨"y", .odd⟩, ⟨"z", .even⟩], .ofEntries .top [⟨"y", .odd⟩, ⟨"z", .odd⟩]] ∧
      ∃ p ∈ ps, triple.Restricts [2, 1] ![0, 1, 0] p) ∧
    (IsCanonical 3 uneven ∧ triple.parityPoints (.system uneven) [2, 1] = .ok none ∧ uneven.solutionsModTwo 3 = ∅) := by
  have hf : triple.names.Nodup := by decide
  have hcols : ∀ c ∈ [2, 1], c < triple.names.length := by decide
  have hslanted : IsCanonical 3 slanted := Relations.isCanonical_of_ofEquations rfl (by decide +kernel)
  have huneven : IsCanonical 3 uneven := Relations.isCanonical_of_ofEquations rfl (by decide +kernel)
  have hpoint : (fun i => ((![2, -1, 2] : Fin 3 → ℤ) i : ℚ)) ∈ slanted.solutionSet 3 := by
    have hrows : ∀ row ∈ slanted.rows,
        ∑ i : Fin 3, (row.getD i 0).toRat * ((![2, -1, 2] : Fin 3 → ℤ) i : ℚ) + (row.getD 3 0).toRat = 0 := by
      decide +kernel
    exact hrows
  have hsome : (slanted.solutionsModTwo 3).Nonempty := ⟨_, RationalMatrix.intCast_mem_solutionsModTwo hpoint⟩
  have hlisted : triple.parityPoints (.system slanted) [2, 1] =
      .ok (some [.ofEntries .top [⟨"y", .odd⟩, ⟨"z", .even⟩], .ofEntries .top [⟨"y", .odd⟩, ⟨"z", .odd⟩]]) := by
    decide +kernel
  obtain ⟨-, hmany, hlist⟩ := parityPoints_exact hf hslanted hcols
  have hfew : slanted.freeParities 3 [2, 1] < 64 := by
    by_contra hge
    have herror := hmany hsome (not_lt.1 hge)
    rw [hlisted] at herror
    cases herror
  obtain ⟨ps, hps, hnodup, -, -, hinteger⟩ := hlist hsome hfew
  obtain ⟨p, hp, hrestricts⟩ := hinteger _ hpoint
  have hnone : triple.parityPoints (.system uneven) [2, 1] = .ok none := by decide +kernel
  refine ⟨⟨hf, hslanted, ps, hps, hnodup, ?_, p, hp, ?_⟩, huneven, hnone,
    (parityPoints_exact hf huneven hcols).1.1 hnone⟩
  · exact Option.some.inj (Except.ok.inj (hps.symm.trans hlisted))
  · have hparities : (fun i => ((![2, -1, 2] : Fin 3 → ℤ) i : ZMod 2)) = ![0, 1, 0] := by decide
    rwa [← hparities]

end Frame

end FlowFacts
