import Mathlib
import FlowFacts.Combined.Lift
import FlowFacts.Proofs.IntegerRows
import FlowFacts.Proofs.ParityStatements
import FlowFacts.Proofs.ReducedForms
import FlowFacts.Proofs.SumAnalysis

/-!
# Parities from equations

An equation over the rationals that holds of integers holds modulo two once it is scaled to whole
numbers (`Frame.paritySystem_spec`). The solutions modulo two are a point moved by a span, and listing
the sums of a basis of the span, seen in the columns that matter, lists the parities that the variables
there can have together (`Frame.parityPoints_spec`). So what the lift and product analyses call proved
holds: `Frame.liftCheck_spec`, `ProductState.check_spec`. The only thing that can go wrong is that a check
goes through parities (`Frame.Enumerates`) of which 64 or more can be chosen freely.
-/

namespace FlowFacts

theorem Atom.parityNames_subset (atom : Atom) : atom.parityNames ⊆ atom.names := by
  cases atom <;> simp [parityNames, names]

/-! ## Modulo two -/

theorem bitVal_odd (n : Int) : bitVal (n % 2 ≠ 0) = (n : ZMod 2) := by
  rcases Int.emod_two_eq_zero_or_one n with h | h
  · have : (n : ZMod 2) = 0 := (ZMod.intCast_zmod_eq_zero_iff_dvd n 2).2 (Int.dvd_of_emod_eq_zero h)
    rw [this]
    simp [h, bitVal]
  · have : ((n - 1 : Int) : ZMod 2) = 0 := (ZMod.intCast_zmod_eq_zero_iff_dvd _ 2).2 (by omega)
    rw [Int.cast_sub, Int.cast_one, sub_eq_zero] at this
    rw [this]
    simp [h, bitVal]

theorem vec_ofList (bits : List Bool) (i : Nat) : Row.vec (BitRow.ofList bits) i = bitVal (bits.getD i false) := by
  rw [vec_bits, BitRow.ofList, BitRow.bit_ofFn]
  by_cases hi : i < bits.length
  · simp [hi, List.getD_eq_getElem?_getD]
  · simp [hi, List.getD_eq_getElem?_getD]

/-- The coefficients of an equation modulo two, once it is scaled to whole numbers. -/
def parityCoeff (r : List Fraction) (i : Nat) : ZMod 2 := ((Fraction.integerRow r).getD i 0 : Int)

theorem vec_parityCoeff (r : List Fraction) :
    Row.vec (BitRow.ofList ((Fraction.integerRow r).map fun n => n % 2 ≠ 0)) = parityCoeff r := by
  funext i
  rw [vec_ofList, parityCoeff, ← bitVal_odd, List.getD_eq_getElem?_getD, List.getD_eq_getElem?_getD, List.getElem?_map]
  cases (Fraction.integerRow r)[i]? <;> simp

namespace RationalMatrix

/-- The parities that satisfy the equations of a system modulo two. -/
def parities (n : Nat) (m : RationalMatrix) : Set (Nat → ZMod 2) :=
  {v | ∀ r ∈ m.rows, equationAt n (parityCoeff r) v = 0}

/-- The parities that satisfy the equations without their constants. They are what solutions differ by. -/
def parityKernel (n : Nat) (m : RationalMatrix) : Submodule (ZMod 2) (Nat → ZMod 2) where
  carrier := {v | ∀ r ∈ m.rows, dotTo n (parityCoeff r) v = 0}
  zero_mem' r _ := by rw [dotTo_comm, dotTo_zero_left]
  add_mem' hv hw r hr := by rw [dotTo_add_right, hv r hr, hw r hr, add_zero]
  smul_mem' k v hv r hr := by rw [dotTo_smul_right, hv r hr, mul_zero]

end RationalMatrix

namespace Frame

variable {f : Frame}

/-- The parities of the variables in a store, by column. -/
def storeBits (f : Frame) (s : Store) : Nat → ZMod 2 := fun i => (s (f.names.getD i "") : ZMod 2)

/-- An equation that holds of a store holds modulo two of its parities. -/
theorem equationAt_mod_two {r : List Fraction} {s : Store}
    (h : equationAt f.names.length (Row.vec r) (Row.vec (f.point s)) = 0) :
    equationAt f.names.length (parityCoeff r) (f.storeBits s) = 0 := by
  obtain ⟨c, -, hc⟩ := Fraction.integerRow_spec r
  refine sum_mod_two (fun i _ => hc i) (hc _) ?_
  rw [← h, equationAt, dotTo]
  congr 1
  refine Finset.sum_congr rfl fun i hi => ?_
  have hname : f.names[i]? = some (f.names.getD i "") := by
    rw [List.getD_eq_getElem?_getD, List.getElem?_eq_getElem (Finset.mem_range.1 hi)]
    rfl
  rw [vec_point hname]
  rfl

theorem storeBits_mem {m : RationalMatrix} {s : Store}
    (h : Row.vec (f.point s) ∈ solutions f.names.length m.rows) : f.storeBits s ∈ m.parities f.names.length :=
  fun r hr => equationAt_mod_two (h r hr)

theorem paritySystem_spec {m : RationalMatrix} (hm : m.columns = f.names.length + 1) :
    ∃ b, f.paritySystem m = .ok b ∧ b.columns = f.names.length + 1 ∧
      solutions f.names.length b.rows = m.parities f.names.length ∧
      nullSpace f.names.length b.rows = (m.parityKernel f.names.length : Set (Nat → ZMod 2)) := by
  have hwide : ∀ q ∈ (RationalMatrix.integerRows m).map (fun r => BitRow.ofList (r.map fun n => n % 2 ≠ 0)),
      Sized.length q = f.width := by
    intro q hq
    obtain ⟨_, hints, rfl⟩ := List.mem_map.1 hq
    obtain ⟨r, hr, rfl⟩ := List.mem_map.1 hints
    show (BitRow.ofList _).length = _
    simp only [BitRow.ofList, BitRow.ofFn, List.size_toArray, List.length_map, Fraction.length_integerRow]
    exact (m.width r hr).trans hm
  refine ⟨_, dif_pos hwide, rfl, ?_, ?_⟩
  all_goals
    ext v
    simp only [solutions, nullSpace, RationalMatrix.integerRows, List.map_map, List.forall_mem_map,
      Function.comp_apply, vec_parityCoeff]
    rfl

end Frame

/-! ## Some columns of a row -/

/-- The entries of a vector in some columns, as a vector of their own. -/
def pick (columns : List Nat) : (Nat → ZMod 2) →ₗ[ZMod 2] Nat → ZMod 2 where
  toFun v i := (columns[i]?.map v).getD 0
  map_add' v w := by
    funext i
    cases h : columns[i]? <;> simp [h]
  map_smul' k v := by
    funext i
    cases h : columns[i]? <;> simp [h]

theorem pick_apply (columns : List Nat) (v : Nat → ZMod 2) (i : Nat) :
    pick columns v i = (columns[i]?.map v).getD 0 := rfl

theorem pick_firstOf {columns : List Nat} {n : Nat} (h : ∀ c ∈ columns, c < n) (v : Nat → ZMod 2) :
    pick columns (firstOf n v) = pick columns v := by
  funext i
  rw [pick_apply, pick_apply]
  cases hi : columns[i]? with
  | none => rfl
  | some c => simp [firstOf, h c (List.mem_of_getElem? hi)]

theorem BitRow.project_spec {r : BitRow} {columns : List Nat} (h : ∀ c ∈ columns, c < r.length) :
    ∃ q, r.project columns = .ok q ∧ q.length = columns.length ∧ Row.vec q = pick columns (Row.vec r) := by
  have hget : columns.mapM r.get = .ok (columns.map r.bit) := by
    induction columns with
    | nil => rfl
    | cons c rest ih =>
      rw [List.mapM_cons, ih fun d hd => h d (List.mem_cons_of_mem _ hd), get, if_pos (h c List.mem_cons_self)]
      rfl
  refine ⟨ofList (columns.map r.bit), by rw [project, hget]; rfl, ?_, ?_⟩
  · simp [ofList, ofFn]
  · funext i
    rw [vec_ofList, pick_apply, List.getD_eq_getElem?_getD, List.getElem?_map]
    cases columns[i]? <;> rfl

theorem mapM_project {rows : List BitRow} {columns : List Nat} (h : ∀ r ∈ rows, ∀ c ∈ columns, c < r.length) :
    ∃ qs, rows.mapM (·.project columns) = .ok qs ∧ (∀ q ∈ qs, q.length = columns.length) ∧
      (rowSpace qs : Submodule (ZMod 2) (Nat → ZMod 2)) = (rowSpace rows).map (pick columns) := by
  induction rows with
  | nil =>
    refine ⟨[], rfl, nofun, ?_⟩
    simp [rowSpace]
  | cons r rest ih =>
    obtain ⟨q, hq, hlen, hvec⟩ := BitRow.project_spec (h r List.mem_cons_self)
    obtain ⟨qs, hqs, hlens, hspace⟩ := ih fun s hs => h s (List.mem_cons_of_mem _ hs)
    refine ⟨q :: qs, by rw [List.mapM_cons, hq, hqs]; rfl, ?_, ?_⟩
    · intro t ht
      rcases List.mem_cons.1 ht with rfl | ht
      · exact hlen
      · exact hlens t ht
    · rw [show q :: qs = [q] ++ qs from rfl, show r :: rest = [r] ++ rest from rfl, rowSpace_append, rowSpace_append,
        Submodule.map_sup, hspace, rowSpace_singleton, rowSpace_singleton, Submodule.map_span, Set.image_singleton, hvec]

/-- How many of the parities in some columns can be chosen freely where a system holds modulo two. -/
noncomputable def RationalMatrix.freeParities (n : Nat) (m : RationalMatrix) (columns : List Nat) : Nat :=
  Module.finrank (ZMod 2) ((m.parityKernel n).map (pick columns))

namespace Frame

variable {f : Frame}

/-! ## Listing what a span reaches -/

/-- A row moved along a direction. -/
def moved (d r : BitRow) : BitRow := resultOr r (r.xor d)

theorem moved_eq {r d : BitRow} (h : d.length = r.length) : moved d r = r.add d h := by
  rw [moved, BitRow.xor, dif_pos h]
  rfl

theorem xor_eq {r d : BitRow} (h : d.length = r.length) : r.xor d = .ok (moved d r) := by
  rw [moved_eq h, BitRow.xor, dif_pos h]

theorem vec_moved {r d : BitRow} (h : d.length = r.length) : Row.vec (moved d r) = Row.vec r + Row.vec d := by
  funext i
  rw [moved_eq h, Pi.add_apply, vec_bits, vec_bits, vec_bits, BitRow.bit_add]
  cases r.bit i <;> cases d.bit i <;> decide

/-- The rows after some directions, each of which adds to the rows there were those moved along it. -/
def reached (rows directions : List BitRow) : List BitRow :=
  directions.foldl (fun rows d => rows ++ rows.map (moved d)) rows

theorem length_of_mem_moved {n : Nat} {d : BitRow} {rows : List BitRow} (hd : d.length = n)
    (hrows : ∀ r ∈ rows, r.length = n) : ∀ q ∈ rows ++ rows.map (moved d), q.length = n := by
  intro q hq
  rcases List.mem_append.1 hq with hq | hq
  · exact hrows q hq
  · obtain ⟨r, hr, rfl⟩ := List.mem_map.1 hq
    rw [moved_eq (hd.trans (hrows r hr).symm)]
    exact hrows r hr

theorem translates_eq {origin : BitRow} {directions : List BitRow} (h : ∀ d ∈ directions, d.length = origin.length) :
    translates origin directions = .ok (reached [origin] directions) := by
  have hstep : ∀ d ∈ directions, ∀ {rows moving : List BitRow},
      rows = moving ∧ (∀ r ∈ moving, r.length = origin.length) →
      ∃ next, (do return rows ++ (← rows.mapM (·.xor d)) : Except Fault (List BitRow)) = .ok next ∧
        next = moving ++ moving.map (moved d) ∧ ∀ r ∈ moving ++ moving.map (moved d), r.length = origin.length := by
    rintro d hd rows _ ⟨rfl, hrows⟩
    have hmap : rows.mapM (·.xor d) = .ok (rows.map (moved d)) :=
      mapM_eq_map fun r hr => xor_eq ((h d hd).trans (hrows r hr).symm)
    refine ⟨_, ?_, rfl, length_of_mem_moved (h d hd) hrows⟩
    simp only [hmap, bind, Except.bind, pure, Except.pure]
  obtain ⟨rows, hrows, rfl, -⟩ := exists_foldlM
    (R := fun rows (moving : List BitRow) => rows = moving ∧ ∀ r ∈ moving, r.length = origin.length)
    ⟨rfl, List.forall_mem_singleton.2 rfl⟩ hstep
  exact hrows

/-- The rows that are reached are sums of one of the first rows with a combination of the directions. -/
theorem reached_spec {n : Nat} {directions rows : List BitRow} (hd : ∀ d ∈ directions, d.length = n)
    (hrows : ∀ r ∈ rows, r.length = n) :
    (∀ q ∈ reached rows directions, q.length = n) ∧
      ∀ u, (∃ q ∈ reached rows directions, Row.vec q = u) ↔ ∃ r ∈ rows, u - Row.vec r ∈ rowSpace directions := by
  induction directions generalizing rows with
  | nil => exact ⟨hrows, fun u => by simp [reached, rowSpace, sub_eq_zero, eq_comm]⟩
  | cons d rest ih =>
    have hdlen : d.length = n := hd d List.mem_cons_self
    have hadd : ∀ r ∈ rows, Row.vec (moved d r) = Row.vec r + Row.vec d := fun r hr =>
      vec_moved (hdlen.trans (hrows r hr).symm)
    obtain ⟨hlen, hmem⟩ := ih (fun e he => hd e (List.mem_cons_of_mem _ he)) (length_of_mem_moved hdlen hrows)
    refine ⟨hlen, fun u => (hmem u).trans ?_⟩
    -- Modulo two the direction is used once or not at all.
    have hspace : ∀ v, v ∈ rowSpace (d :: rest) ↔ v ∈ rowSpace rest ∨ v - Row.vec d ∈ rowSpace rest := by
      intro v
      rw [mem_rowSpace_cons]
      constructor
      · rintro ⟨k, w, hw, rfl⟩
        rcases zmod_eq_zero_or_one k with rfl | rfl
        · exact .inl (by rwa [zero_smul, zero_add])
        · exact .inr (by rwa [one_smul, add_sub_cancel_left])
      · rintro (hv | hv)
        · exact ⟨0, v, hv, by rw [zero_smul, zero_add]⟩
        · exact ⟨1, _, hv, by rw [one_smul, add_sub_cancel]⟩
    constructor
    · rintro ⟨q, hq, hu⟩
      rcases List.mem_append.1 hq with hq | hq
      · exact ⟨q, hq, (hspace _).2 (.inl hu)⟩
      · obtain ⟨r, hr, rfl⟩ := List.mem_map.1 hq
        rw [hadd r hr, ← sub_sub] at hu
        exact ⟨r, hr, (hspace _).2 (.inr hu)⟩
    · rintro ⟨r, hr, hu⟩
      rcases (hspace _).1 hu with hu | hu
      · exact ⟨r, List.mem_append_left _ hr, hu⟩
      · refine ⟨_, List.mem_append_right _ (List.mem_map_of_mem hr), ?_⟩
        rwa [hadd r hr, ← sub_sub]

/-! ## The parities that variables can have together -/

theorem contains_ofEntries {entries : List (Entry Parity)} {s : Store}
    (h : ∀ e ∈ entries, e.value.Contains (s e.name)) : ParityMap.Contains (VarMap.ofEntries .top entries) s := by
  have hfold : ∀ (es : List (Entry Parity)) (m : ParityMap), (∀ e ∈ es, e.value.Contains (s e.name)) → m.Contains s →
      ParityMap.Contains (es.foldl (fun m e => m.set e.name e.value) m) s := by
    intro es
    induction es with
    | nil => exact fun m _ hm => hm
    | cons e rest ih =>
      intro m hes hm
      refine ih _ (fun d hd => hes d (List.mem_cons_of_mem _ hd)) ?_
      exact ParityMap.contains_set_same hm (hes e List.mem_cons_self)
  exact hfold entries _ h fun _ => trivial

theorem default_ofEntries (entries : List (Entry Parity)) : (VarMap.ofEntries Parity.top entries).default = .top := by
  have hfold : ∀ (es : List (Entry Parity)) (m : ParityMap),
      (es.foldl (fun m e => m.set e.name e.value) m).default = m.default := by
    intro es
    induction es with
    | nil => exact fun _ => rfl
    | cons e rest ih =>
      intro m
      rw [List.foldl_cons, ih, VarMap.default_set]
  exact hfold entries _

/-- The map of the bits in some columns. -/
def parityMapAt (f : Frame) (columns : List Nat) (bits : BitRow) : ParityMap :=
  .ofEntries .top ((columns.zip bits.toList).map fun q => ⟨f.names.getD q.1 "", if q.2 then .odd else .even⟩)

theorem parityPoint_eq {columns : List Nat} (hcols : ∀ c ∈ columns, c < f.names.length) (bits : BitRow) :
    f.parityPoint columns bits = .ok (f.parityMapAt columns bits) := by
  have hentries : (columns.zip bits.toList).mapM f.parityEntry =
      .ok ((columns.zip bits.toList).map fun q => ⟨f.names.getD q.1 "", if q.2 then .odd else .even⟩) := by
    refine mapM_eq_map fun q hq => ?_
    have hlt := hcols q.1 (List.of_mem_zip hq).1
    rw [parityEntry, entryAt_of_lt hlt, List.getD_eq_getElem _ _ hlt]
    rfl
  simp only [parityPoint, hentries, bind, Except.bind, pure, Except.pure, parityMapAt]

/-- The bits of a store in some columns give a map that contains the store. -/
theorem contains_parityMapAt {columns : List Nat} {bits : BitRow} {s : Store}
    (h : Row.vec bits = pick columns (f.storeBits s)) : (f.parityMapAt columns bits).Contains s := by
  refine contains_ofEntries fun e he => ?_
  obtain ⟨⟨c, b⟩, hcb, rfl⟩ := List.mem_map.1 he
  obtain ⟨i, hi, hget⟩ := List.getElem_of_mem hcb
  have hlen : i < columns.length ∧ i < bits.toList.length := by simpa using hi
  rw [List.getElem_zip] at hget
  obtain ⟨rfl, rfl⟩ := Prod.mk.inj hget
  have hval := congrFun h i
  rw [vec_bits, pick_apply, List.getElem?_eq_getElem hlen.1, Option.map_some, Option.getD_some, storeBits,
    ← bitVal_odd] at hval
  have hodd := VectorRow.val_injective (R := BitRow) hval
  rw [BitRow.getElem_toList, hodd]
  by_cases hpar : s (f.names.getD columns[i] "") % 2 = 0
  · simp only [hpar, ne_eq, not_true_eq_false, decide_false, Bool.false_eq_true, if_false]
    exact hpar
  · simp only [hpar, ne_eq, not_false_eq_true, decide_true, if_true]
    show s (f.names.getD columns[i] "") % 2 = 1
    omega

/-- The kernel of a reduced system modulo two, seen in some columns, spans what solutions differ by there. -/
theorem map_rowSpace_kernel {m : RationalMatrix} {n : Nat} {t : BitMatrix} (htcol : t.columns = n)
    (htred : IsReduced t.rows) (hnull : nullSpace n t.rows = (m.parityKernel n : Set (Nat → ZMod 2)))
    {columns : List Nat} (hcols : ∀ c ∈ columns, c < n) :
    (rowSpace t.kernelBasis).map (pick columns) = (m.parityKernel n).map (pick columns) := by
  subst htcol
  apply le_antisymm
  · refine Submodule.map_mono (rowSpace_le.2 fun k hk => ?_)
    rw [← SetLike.mem_coe, ← hnull]
    exact RowMatrix.kernel_subset_nullSpace htred hk
  · rintro _ ⟨v, hv, rfl⟩
    -- Entries beyond the last variable are not seen.
    rw [← pick_firstOf hcols]
    refine Submodule.mem_map_of_mem (RowMatrix.mem_rowSpace_kernel htred ?_ fun i hi => firstOf_of_le v hi)
    rw [← hnull] at hv
    intro r hr
    rw [dotTo_firstOf]
    exact hv r hr

/-- A row and independent directions that lead from it to the parities that a system allows in some columns. -/
structure Lists (n : Nat) (m : RationalMatrix) (columns : List Nat) (origin : BitRow) (dirs : BitMatrix) : Prop where
  length : origin.length = columns.length
  origin : ∃ v ∈ m.parities n, Row.vec origin = pick columns v
  width : dirs.columns = columns.length
  reduced : IsReduced dirs.rows
  space : rowSpace dirs.rows = (m.parityKernel n).map (pick columns)

namespace Lists

variable {n : Nat} {m : RationalMatrix} {columns : List Nat} {origin : BitRow} {dirs : BitMatrix}

theorem height (h : Lists n m columns origin dirs) : dirs.height = m.freeParities n columns := by
  rw [RationalMatrix.freeParities, ← h.space, h.reduced.finrank_rowSpace]
  rfl

theorem width_row (h : Lists n m columns origin dirs) {d : BitRow} (hd : d ∈ dirs.rows) : d.length = columns.length :=
  (dirs.width d hd).trans h.width

/-- The rows that the directions lead to. -/
theorem spec (h : Lists n m columns origin dirs) : (∀ r ∈ reached [origin] dirs.rows, r.length = columns.length) ∧
    ∀ u, (∃ r ∈ reached [origin] dirs.rows, Row.vec r = u) ↔ ∃ w ∈ m.parities n, pick columns w = u := by
  obtain ⟨hlen, hmem⟩ := reached_spec (fun d => h.width_row) (List.forall_mem_singleton.2 h.length)
  refine ⟨hlen, fun u => (hmem u).trans ?_⟩
  obtain ⟨v, hv, hvec⟩ := h.origin
  simp only [List.mem_singleton, exists_eq_left, hvec, h.space]
  -- Solutions differ by the kernel.
  constructor
  · rintro ⟨z, hz, hpick⟩
    refine ⟨v + z, fun r hr => ?_, by rw [map_add, hpick, add_sub_cancel]⟩
    have hvr := hv r hr
    rw [equationAt] at hvr ⊢
    rw [dotTo_add_right, hz r hr, add_zero, hvr]
  · rintro ⟨w, hw, rfl⟩
    refine ⟨w - v, fun r hr => ?_, map_sub _ _ _⟩
    have hwr := hw r hr
    have hvr := hv r hr
    rw [equationAt] at hwr hvr
    rw [dotTo_sub_right]
    linear_combination hwr - hvr

end Lists

/-- Listing the parities in some columns: there are none, or they are those of a point moved by independent
directions, which must not be too many. -/
theorem parityPoints_cases {m : RationalMatrix} (hm : IsCanonical f.names.length m) {columns : List Nat}
    (hcols : ∀ c ∈ columns, c < f.names.length) :
    (m.parities f.names.length = ∅ ∧ f.parityPoints (.system m) columns = .ok none) ∨
      ∃ origin dirs, Lists f.names.length m columns origin dirs ∧
        f.parityPoints (.system m) columns = if 64 ≤ dirs.height then .error (.tooManyDirections dirs.height)
          else .ok (some ((reached [origin] dirs.rows).map (f.parityMapAt columns))) := by
  obtain ⟨b, hb, hbcol, hbsol, hbnull⟩ := paritySystem_spec hm.columns
  have hred := RowMatrix.isReduced_reduced b
  have hcol : b.reduced.columns = f.names.length + 1 := (RowMatrix.columns_reduced b).trans hbcol
  have hspace := RowMatrix.rowSpace_reduced b
  have hsol : solutions f.names.length b.reduced.rows = m.parities f.names.length :=
    (solutions_congr hspace).trans hbsol
  have hnull : nullSpace f.names.length b.reduced.rows = (m.parityKernel f.names.length : Set (Nat → ZMod 2)) :=
    (Set.Subset.antisymm (nullSpace_anti hspace.ge) (nullSpace_anti hspace.le)).trans hbnull
  simp only [parityPoints, hb, RowMatrix.rrefMinimal_eq, bind, Except.bind, pure, Except.pure]
  rcases RowMatrix.backSubstitute_cases hred hcol with ⟨p, hp, hplen, hpsol, hcons⟩ | ⟨hnone, r, hr, hlead⟩
  · obtain ⟨t, ht, htcol, htred, htnull⟩ := dropLastColumn_spec hred hcol hcons
    have hpcols : ∀ c ∈ columns, c < p.length := fun c hc => (hcols c hc).trans_eq (Eq.symm hplen)
    have hkcols : ∀ r ∈ t.kernelBasis, ∀ c ∈ columns, c < r.length := fun r hr c hc =>
      (hcols c hc).trans_eq (htcol.symm.trans (RowMatrix.length_of_mem_kernel hr).symm)
    obtain ⟨o, ho, holen, hovec⟩ := BitRow.project_spec hpcols
    obtain ⟨qs, hqs, hqlen, hqspace⟩ := mapM_project hkcols
    let seen : BitMatrix := ⟨columns.length, qs, hqlen⟩
    have hof : RowMatrix.ofRows columns.length qs = .ok seen := dif_pos hqlen
    have hlists : Lists f.names.length m columns o seen.reduced := by
      refine ⟨holen, ⟨Row.vec p, hsol ▸ hpsol, hovec⟩, RowMatrix.columns_reduced seen,
        RowMatrix.isReduced_reduced seen, ?_⟩
      rw [RowMatrix.rowSpace_reduced, hqspace]
      exact map_rowSpace_kernel htcol htred (htnull.trans hnull) hcols
    refine .inr ⟨o, seen.reduced, hlists, ?_⟩
    have hmoved := translates_eq fun d hd => (hlists.width_row hd).trans hlists.length.symm
    have hpoints : (reached [o] seen.reduced.rows).mapM (f.parityPoint columns) =
        .ok ((reached [o] seen.reduced.rows).map (f.parityMapAt columns)) :=
      mapM_eq_map fun bits _ => parityPoint_eq hcols bits
    simp only [hp, ht, RowMatrix.kernel_eq, ho, hqs, hof, hmoved, hpoints]
    rfl
  · rw [solutions_eq_empty hr hlead] at hsol
    refine .inl ⟨hsol.symm, ?_⟩
    simp only [hnone]

/-- What is listed has a map for every store that the equations allow. -/
theorem exists_parityPoint {m : RationalMatrix} {columns : List Nat} {origin : BitRow} {dirs : BitMatrix}
    (h : Lists f.names.length m columns origin dirs) {σ : Store}
    (hσ : Row.vec (f.point σ) ∈ solutions f.names.length m.rows) :
    ∃ p ∈ (reached [origin] dirs.rows).map (f.parityMapAt columns), p.default = .top ∧ ParityMap.Contains p σ := by
  obtain ⟨r, hr, hvec⟩ := (h.spec.2 _).2 ⟨_, storeBits_mem hσ, rfl⟩
  exact ⟨_, List.mem_map_of_mem hr, default_ofEntries _, contains_parityMapAt hvec⟩

/-- Listing the parities of some variables ends with one map for every store that the equations allow,
unless too many of them can be chosen freely. -/
theorem parityPoints_spec {m : RationalMatrix} (hm : IsCanonical f.names.length m) {columns : List Nat}
    (hcols : ∀ c ∈ columns, c < f.names.length) :
    (∃ k, k = m.freeParities f.names.length columns ∧ 64 ≤ k ∧ k ≤ columns.length ∧
        (m.parities f.names.length).Nonempty ∧ f.parityPoints (.system m) columns = .error (.tooManyDirections k)) ∨
      ((m.parities f.names.length).Nonempty → m.freeParities f.names.length columns < 64) ∧
      ∃ o, f.parityPoints (.system m) columns = .ok o ∧ ∀ σ : Store,
        Row.vec (f.point σ) ∈ solutions f.names.length m.rows →
          ∃ ps, o = some ps ∧ ∃ p ∈ ps, p.default = .top ∧ ParityMap.Contains p σ := by
  rcases parityPoints_cases hm hcols with ⟨hno, hpoints⟩ | ⟨o, dirs, hlists, hpoints⟩
  · refine .inr ⟨fun hsome => ?_, none, hpoints, fun σ hσ => ?_⟩
    · rw [hno] at hsome
      exact absurd hsome Set.not_nonempty_empty
    · -- Without a solution modulo two there is no store either.
      have hstore := storeBits_mem hσ
      rw [hno] at hstore
      exact hstore.elim
  · have hheight := hlists.height
    rw [hpoints]
    by_cases hmany : 64 ≤ dirs.height
    · have hfew : dirs.height ≤ columns.length := hlists.reduced.length_le fun r hr c hc =>
        (Row.lead_lt_length hc).trans_eq ((dirs.width r hr).trans hlists.width)
      obtain ⟨v, hv, -⟩ := hlists.origin
      rw [if_pos hmany]
      exact .inl ⟨dirs.height, hheight, hmany, hfew, ⟨v, hv⟩, rfl⟩
    · rw [if_neg hmany]
      refine .inr ⟨fun _ => ?_, _, rfl, fun σ hσ => ⟨_, rfl, exists_parityPoint hlists hσ⟩⟩
      omega

/-! ## Assertions with parities -/

variable {s : Relations}

/-- Of the clauses whose sums are proved the parity atoms remain; where one of them holds, so does the
clause it comes from. -/
theorem dischargeSums_spec (hs : s.Canonical f.names.length) {clauses : List Clause}
    (h : ∀ c ∈ clauses, ∀ atom ∈ c, ∀ x ∈ atom.names, x ∈ f.names) :
    ∃ kept, f.dischargeSums s clauses = .ok kept ∧
      (∀ k ∈ kept, ∀ atom ∈ k, atom.isParity = true ∧ ∀ x ∈ atom.names, x ∈ f.names) ∧
      ∀ σ : Store, Row.vec (f.point σ) ∈ s.Points f.names.length → (∃ k ∈ kept, Clause.Holds σ k) →
        ∃ c ∈ clauses, Clause.Holds σ c := by
  induction clauses with
  | nil => exact ⟨[], rfl, nofun, fun _ _ h => h⟩
  | cons c rest ih =>
    obtain ⟨kept, hkept, hatoms, hholds⟩ := ih fun d hd => h d (List.mem_cons_of_mem _ hd)
    have hc := h c List.mem_cons_self
    -- A clause without sums is kept as if its sums were proved, so both cases are one.
    obtain ⟨b, hb, hsums⟩ : ∃ b, f.dischargeSums s (c :: rest) =
          .ok (if b = true then c.filter Atom.isParity :: kept else kept) ∧
        (b = true → ∀ σ : Store, Row.vec (f.point σ) ∈ s.Points f.names.length →
          ∀ atom ∈ c, atom.isSum → atom.Holds σ) := by
      by_cases hany : c.any Atom.isSum = true
      · obtain ⟨b, hb, -⟩ := provesSums_spec hc hs
        refine ⟨b, by simp only [dischargeSums, hany, hb, hkept, if_true, bind, Except.bind, pure, Except.pure], ?_⟩
        rintro rfl σ hσ
        exact holds_of_provesSums hc hs hb hσ
      · refine ⟨true, ?_, ?_⟩
        · simp only [dischargeSums, hany, hkept, if_true, if_false, Bool.false_eq_true, bind, Except.bind, pure,
            Except.pure]
        · exact fun _ σ _ atom hatom hsum => absurd (List.any_eq_true.2 ⟨atom, hatom, hsum⟩) hany
    rw [hb]
    have hrest : ∀ σ : Store, Row.vec (f.point σ) ∈ s.Points f.names.length → (∃ k ∈ kept, Clause.Holds σ k) →
        ∃ d ∈ c :: rest, Clause.Holds σ d := fun σ hσ hk => by
      obtain ⟨d, hd, hdσ⟩ := hholds σ hσ hk
      exact ⟨d, List.mem_cons_of_mem _ hd, hdσ⟩
    cases b with
    | false => exact ⟨kept, rfl, hatoms, hrest⟩
    | true =>
      refine ⟨c.filter Atom.isParity :: kept, rfl, ?_, fun σ hσ ⟨k, hk, hkσ⟩ => ?_⟩
      · intro k hk
        rcases List.mem_cons.1 hk with rfl | hk
        · intro atom hatom
          obtain ⟨hmem, hpar⟩ := List.mem_filter.1 hatom
          exact ⟨hpar, hc atom hmem⟩
        · exact hatoms k hk
      · rcases List.mem_cons.1 hk with rfl | hk
        · refine ⟨c, List.mem_cons_self, fun atom hatom => ?_⟩
          by_cases hsum : atom.isSum = true
          · exact hsums rfl σ hσ atom hatom hsum
          · exact hkσ atom (List.mem_filter.2 ⟨hatom, by simp [Atom.isParity, hsum]⟩)
        · exact hrest σ hσ ⟨k, hk, hkσ⟩

/-- A clause of parity atoms holds where its map contains the store. -/
theorem exists_holds {kept : List Clause} (hatoms : ∀ k ∈ kept, ∀ atom ∈ k, atom.isParity = true) {σ : Store}
    (h : ∃ fact ∈ kept.map ParityMap.ofClause, ParityMap.Contains fact σ) : ∃ k ∈ kept, Clause.Holds σ k := by
  obtain ⟨fact, hfact, hσ⟩ := h
  obtain ⟨k, hk, rfl⟩ := List.mem_map.1 hfact
  exact ⟨k, hk, fun atom hatom => ParityMap.contains_ofClause.1 hσ atom hatom (hatoms k hk atom hatom)⟩

theorem exists_holds_of_isEmpty {kept : List Clause} (h : kept.any List.isEmpty = true) (σ : Store) :
    ∃ k ∈ kept, Clause.Holds σ k := by
  obtain ⟨k, hk, hempty⟩ := List.any_eq_true.1 h
  rw [List.isEmpty_iff.1 hempty] at hk
  exact ⟨[], hk, nofun⟩

/-- The columns that are listed are those of the variables in parity atoms, each once. -/
theorem parityColumns_spec {kept : List Clause} (h : ∀ k ∈ kept, ∀ atom ∈ k, ∀ x ∈ atom.names, x ∈ f.names) :
    ∃ cs, f.parityColumns kept = .ok cs ∧
      (∀ c, c ∈ cs ↔ ∃ x ∈ kept.flatten.flatMap Atom.parityNames, f.HasColumn x c) ∧ cs.length ≤ f.names.length := by
  have hmem : ∀ x ∈ kept.flatten.flatMap Atom.parityNames, x ∈ f.names := by
    intro x hx
    obtain ⟨atom, hatom, hxa⟩ := List.mem_flatMap.1 hx
    obtain ⟨k, hk, hak⟩ := List.mem_flatten.1 hatom
    exact h k hk atom hak x (atom.parityNames_subset hxa)
  obtain ⟨cs, hcs, hall⟩ := mapM_column hmem
  refine ⟨(SortedSet.ofList cs).toList, ?_, fun c => SortedSet.mem_ofList.trans (mem_columns hall), ?_⟩
  · simp only [parityColumns, hcs, bind, Except.bind, pure, Except.pure]
  · have hsub := List.subperm_of_subset (SortedSet.nodup_toList _) fun c hc =>
      List.mem_range.2 (lt_of_columns hall c (SortedSet.mem_ofList.1 hc))
    simpa using hsub.length_le

/-- A store of one listed point satisfies one of the facts that the point alone satisfies. -/
theorem exists_contains_of_satisfies {p : ParityMap} {facts : List ParityMap} {σ : Store} (hdefault : p.default = .top)
    (hp : ParityMap.Contains p σ) (h : ParityState.satisfies (.ofDisjuncts [p]) facts = true) :
    ∃ fact ∈ facts, ParityMap.Contains fact σ := by
  refine ParityState.contains_of_satisfies h ?_
  have hlive : p.hasBottom = false := by
    refine ParityMap.hasBottom_of_contains ?_ hp
    rw [hdefault]
    nofun
  obtain ⟨k, hk, hpk⟩ := ParityState.covered_ofDisjuncts (List.mem_singleton.2 rfl) hlive
  exact ⟨k, hk, ParityMap.contains_mono hpk hp⟩

/-- If every listed point satisfies the facts that are left, one of them holds in the store of any point. -/
theorem exists_holds_of_points {kept : List Clause} (hatoms : ∀ k ∈ kept, ∀ atom ∈ k, atom.isParity = true)
    {ps : List ParityMap} {σ : Store} (hpoint : ∃ p ∈ ps, p.default = .top ∧ ParityMap.Contains p σ)
    (h : Verdict.ofBool (ps.all fun p => ParityState.satisfies (.ofDisjuncts [p]) (kept.map ParityMap.ofClause)) =
      .proved) : ∃ k ∈ kept, Clause.Holds σ k := by
  obtain ⟨p, hp, hdefault, hcontains⟩ := hpoint
  refine exists_holds hatoms (exists_contains_of_satisfies hdefault hcontains ?_)
  by_contra hn
  rw [List.all_eq_false.2 ⟨p, hp, hn⟩] at h
  cases h

/-- A check gets as far as going through parities: the state has equations that hold of some parities, of the
clauses whose sums are proved some are left, and each of them has parity atoms. The number is how many parities
of the variables in these atoms can be chosen freely. -/
def Enumerates (f : Frame) (a : Assertion) (s : Relations) (free : Nat) : Prop :=
  ∃ m kept columns, s = .system m ∧ f.dischargeSums s a.clauses = .ok kept ∧ kept ≠ [] ∧ [] ∉ kept ∧
    f.parityColumns kept = .ok columns ∧ (m.parities f.names.length).Nonempty ∧
    free = m.freeParities f.names.length columns

theorem not_enumerates {a : Assertion} (h : ∀ m, s ≠ .system m) (free : Nat) : ¬ f.Enumerates a s free := by
  rintro ⟨m, _, _, hs, -⟩
  exact h m hs

theorem enumerates_system {a : Assertion} {m : RationalMatrix} {kept : List Clause} {free : Nat}
    (hkept : f.dischargeSums (.system m) a.clauses = .ok kept) :
    f.Enumerates a (.system m) free ↔ kept ≠ [] ∧ [] ∉ kept ∧ ∃ columns, f.parityColumns kept = .ok columns ∧
      (m.parities f.names.length).Nonempty ∧ free = m.freeParities f.names.length columns := by
  constructor
  · rintro ⟨m', kept', columns, hm, hkept', hne, hnil, hcolumns, hparities, hfree⟩
    obtain rfl := Relations.system.inj hm
    obtain rfl := Except.ok.inj (hkept.symm.trans hkept')
    exact ⟨hne, hnil, columns, hcolumns, hparities, hfree⟩
  · rintro ⟨hne, hnil, columns, hrest⟩
    exact ⟨m, kept, columns, rfl, hkept, hne, hnil, hrest⟩

/-- The check of the lift analysis answers unless it goes through too many parities, and an assertion that it
calls proved holds in every store that the state allows. -/
theorem liftCheck_spec {a : Assertion} (h : ∀ x ∈ (Statement.assert a).mentions, x ∈ f.names)
    (hs : s.Canonical f.names.length) :
    (∃ k, 64 ≤ k ∧ k ≤ f.names.length ∧ f.Enumerates a s k ∧ f.liftCheck a s = .error (.tooManyDirections k)) ∨
      (∀ k, f.Enumerates a s k → k < 64) ∧ ∃ v, f.liftCheck a s = .ok v ∧
      (v = .proved → ∀ σ : Store, Row.vec (f.point σ) ∈ s.Points f.names.length → a.Holds σ) := by
  obtain ⟨kept, hkept, hatoms, hholds⟩ := dischargeSums_spec hs (names_of_clause h)
  cases s with
  | bottom =>
    have hnone := not_enumerates (f := f) (a := a) (s := .bottom) fun m hm => by cases hm
    exact .inr ⟨fun k hk => absurd hk (hnone k), .proved, rfl, fun _ _ hσ => hσ.elim⟩
  | top =>
    simp only [liftCheck, hkept, Relations.isBottom, Relations.isTop, Bool.or_true, Bool.false_eq_true, if_false,
      if_true, bind, Except.bind, pure, Except.pure]
    have hnone := not_enumerates (f := f) (a := a) (s := .top) fun m hm => by cases hm
    refine .inr ⟨fun k hk => absurd hk (hnone k), ?_⟩
    by_cases hempty : kept.any List.isEmpty = true
    · rw [if_pos hempty]
      exact ⟨.proved, rfl, fun _ σ hσ => hholds σ hσ (exists_holds_of_isEmpty hempty σ)⟩
    · rw [if_neg hempty]
      exact ⟨.violated, rfl, fun hproved => by cases hproved⟩
  | system m =>
    have henumerates : ∀ k, f.Enumerates a (.system m) k ↔ _ := fun _ => enumerates_system hkept
    simp only [liftCheck, hkept, henumerates, Relations.isBottom, Relations.isTop, Bool.or_false, Bool.false_eq_true,
      if_false, bind, Except.bind, pure, Except.pure]
    by_cases hempty : kept.any List.isEmpty = true
    · rw [if_pos hempty]
      refine .inr ⟨fun k hk => ?_, .proved, rfl, fun _ σ hσ => hholds σ hσ (exists_holds_of_isEmpty hempty σ)⟩
      obtain ⟨c, hc, hnil⟩ := List.any_eq_true.1 hempty
      rw [List.isEmpty_iff.1 hnil] at hc
      exact absurd hc hk.2.1
    · rw [if_neg hempty]
      by_cases hnone : kept.isEmpty = true
      · rw [if_pos hnone]
        exact .inr ⟨fun k hk => absurd (List.isEmpty_iff.1 hnone) hk.1, .violated, rfl, fun hproved => by cases hproved⟩
      · rw [if_neg hnone]
        obtain ⟨cs, hcs, hmem, hlen⟩ := parityColumns_spec fun k hk atom hatom => (hatoms k hk atom hatom).2
        have hlt : ∀ c ∈ cs, c < f.names.length := fun c hc => by
          obtain ⟨x, -, hx⟩ := (hmem c).1 hc
          exact hx.lt
        simp only [hcs, Except.ok.injEq, exists_eq_left']
        rcases parityPoints_spec hs hlt with ⟨k, hfree, hmany, hfew, hsome, herror⟩ | ⟨hfree, o, ho, hpoints⟩
        · simp only [herror]
          have hnil : [] ∉ kept := fun hmem => hempty (List.any_eq_true.2 ⟨[], hmem, rfl⟩)
          exact .inl ⟨k, hmany, hfew.trans hlen, ⟨fun hkept => hnone (List.isEmpty_iff.2 hkept), hnil, hsome, hfree⟩,
            rfl⟩
        · simp only [ho]
          refine .inr ⟨fun k hk => hk.2.2.2 ▸ hfree hk.2.2.1, ?_⟩
          cases o with
          | none =>
            refine ⟨.proved, rfl, fun _ σ hσ => ?_⟩
            obtain ⟨ps, hps, -⟩ := hpoints σ hσ
            cases hps
          | some ps =>
            refine ⟨_, rfl, fun hv σ hσ => hholds σ hσ ?_⟩
            obtain ⟨ps', hps, hpoint⟩ := hpoints σ hσ
            obtain rfl := Option.some.inj hps
            exact exists_holds_of_points (fun k hk atom ha => (hatoms k hk atom ha).1) hpoint hv

end Frame

/-- The check of the product analysis answers, and an assertion that it calls proved holds in every
store that both halves of the state allow. -/
theorem ProductState.check_spec {f : Frame} {a : Assertion} {s : ProductState}
    (h : ∀ x ∈ (Statement.assert a).mentions, x ∈ f.names) (hs : s.2.Canonical f.names.length) :
    ∃ v, ProductState.check f a s = .ok v ∧ (v = .proved → ∀ σ : Store, ParityState.Contains s.1 σ →
      Row.vec (f.point σ) ∈ s.2.Points f.names.length → a.Holds σ) := by
  obtain ⟨kept, hkept, hatoms, hholds⟩ := Frame.dischargeSums_spec hs (Frame.names_of_clause h)
  simp only [check, hkept, bind, Except.bind, pure, Except.pure]
  by_cases hbot : Product.hasBottom s = true
  · rw [if_pos hbot]
    refine ⟨.proved, rfl, fun _ σ h1 h2 => ?_⟩
    rcases Bool.or_eq_true_iff.1 hbot with hb | hb
    · exact absurd hb (by rw [show Domain.isBottom s.1 = false from ParityState.isBottom_of_contains h1]; nofun)
    · exact absurd hb (by rw [show Domain.isBottom s.2 = false from Relations.isBottom_of_mem h2]; nofun)
  · rw [if_neg hbot]
    by_cases hempty : kept.any List.isEmpty = true
    · rw [if_pos hempty]
      exact ⟨.proved, rfl, fun _ σ _ hσ => hholds σ hσ (Frame.exists_holds_of_isEmpty hempty σ)⟩
    · rw [if_neg hempty]
      by_cases hnone : kept.isEmpty = true
      · rw [if_pos hnone]
        exact ⟨.violated, rfl, nofun⟩
      · rw [if_neg hnone]
        refine ⟨_, rfl, fun hv σ h1 h2 => ?_⟩
        have hsat : s.1.satisfies (kept.map ParityMap.ofClause) = true := by
          by_contra hn
          rw [Bool.eq_false_iff.2 hn] at hv
          cases hv
        exact hholds σ h2 (Frame.exists_holds (fun k hk atom ha => (hatoms k hk atom ha).1)
          (ParityState.contains_of_satisfies hsat h1))

end FlowFacts
