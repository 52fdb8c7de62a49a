import Mathlib
import FlowFacts.Proofs.ParityPoints

/-!
# What the lift proves from a stronger state

A state with fewer points need not allow fewer parities: its equations follow over the rationals, but clearing
denominators and reading the result modulo two can lose them. From `x + z / 2 = 0` and `y + z / 2 = 0` follows
`x = y`, while modulo two both equations say no more than that `z` is even. So the lift can prove less from a stronger
state (`Frame.liftCheck_halves`). It does not if the stronger state allows fewer parities, as it does when its
coefficients have odd denominators, and over few variables only then: `Frame.liftCheck_of_stronger`.
-/

namespace FlowFacts

/-! ## Rationals modulo two -/

section ModTwo

variable {p q r : ℚ}

theorem odd_den_sub_mul (hp : Odd p.den) (hq : Odd q.den) (hr : Odd r.den) : Odd (p - q * r).den :=
  (hp.mul ((hq.mul hr).of_dvd_nat (Rat.mul_den_dvd q r))).of_dvd_nat (Rat.sub_den_dvd p (q * r))

/-- Rationals with odd denominators are multiplied and added modulo two. -/
theorem cast_mul_add (hp : Odd p.den) (hq : Odd q.den) (hr : Odd r.den) :
    ((p * q + r : ℚ) : ZMod 2) = (p : ZMod 2) * (q : ZMod 2) + (r : ZMod 2) := by
  have hmul : Odd (p * q).den := (hp.mul hq).of_dvd_nat (Rat.mul_den_dvd p q)
  rw [Rat.cast_add_of_ne_zero (ZMod.natCast_ne_zero_iff_odd.2 hmul) (ZMod.natCast_ne_zero_iff_odd.2 hr),
    Rat.cast_mul_of_ne_zero (ZMod.natCast_ne_zero_iff_odd.2 hp) (ZMod.natCast_ne_zero_iff_odd.2 hq)]

/-- A row that is not zero is not zero modulo two either, since its integers have no common factor. -/
theorem parityCoeff_ne_zero {row : List Fraction} {c : Nat} (h : row.getD c 0 ≠ 0) : parityCoeff row ≠ 0 := by
  intro hzero
  obtain ⟨i, hi⟩ := (Fraction.primitive_integerRow rfl h).exists_odd
  exact zero_ne_one ((congrFun hzero i).symm.trans hi)

/-- Scaling a row with a one and odd denominators to whole numbers does not change it modulo two. -/
theorem parityCoeff_eq_cast {row : List Fraction} {c : Nat} (hone : Row.vec row c = 1)
    (hodd : ∀ i, Odd (Row.vec row i).den) : parityCoeff row = fun i => ((Row.vec row i : ℚ) : ZMod 2) := by
  obtain ⟨k, -, hrow⟩ := Fraction.integerRow_spec row
  -- The factor is the integer in the column of the one.
  have hfactor : ((Fraction.integerRow row).getD c 0 : ℚ) = k := by
    rw [hrow, ← vec_fractions, hone, mul_one]
  have hmul : ∀ i, parityCoeff row i = parityCoeff row c * ((Row.vec row i : ℚ) : ZMod 2) := by
    intro i
    have hint : (((Fraction.integerRow row).getD i 0 : Int) : ℚ) =
        ((Fraction.integerRow row).getD c 0 : Int) * Row.vec row i + 0 := by
      rw [hrow, hfactor, add_zero, vec_fractions]
    have hcast := congrArg (Rat.cast : ℚ → ZMod 2) hint
    rw [cast_mul_add (by simp) (hodd i) (by simp)] at hcast
    simpa [parityCoeff] using hcast
  rcases zmod_eq_zero_or_one (parityCoeff row c) with hzero | hunit
  · -- If the factor were even, all integers of the row would be.
    have hne : row.getD c 0 ≠ 0 := by
      intro h
      rw [vec_fractions, h, Fraction.toRat_zero] at hone
      exact zero_ne_one hone
    refine absurd (funext fun i => ?_) (parityCoeff_ne_zero hne)
    rw [hmul, hzero, zero_mul]
    rfl
  · funext i
    rw [hmul, hunit, one_mul]

/-- Parities that satisfy reduced rows satisfy their combinations, as long as all denominators are odd. The first row
takes part with the entry that the combination has in its leading column, so this is one factor with odd denominator,
and what is left is a combination of the other rows. -/
theorem equationAt_cast {n : Nat} {rows : List (List Fraction)} (h : IsReduced rows)
    (hodd : ∀ row ∈ rows, ∀ i, Odd (Row.vec row i).den) {w : Nat → ZMod 2}
    (hw : ∀ row ∈ rows, equationAt n (fun i => ((Row.vec row i : ℚ) : ZMod 2)) w = 0) {v : Nat → ℚ}
    (hv : v ∈ rowSpace rows) (hvodd : ∀ i, Odd (v i).den) : equationAt n (fun i => ((v i : ℚ) : ZMod 2)) w = 0 := by
  induction rows generalizing v with
  | nil =>
    obtain rfl : v = 0 := by simpa [rowSpace] using hv
    simp [equationAt, dotTo]
  | cons row rest ih =>
    obtain ⟨k, u, hu, rfl⟩ := mem_rowSpace_cons.1 hv
    obtain ⟨c, hc, hone⟩ := h.lead_one row List.mem_cons_self
    have hk : (k • Row.vec row + u) c = k := by
      simp [hone, h.eq_zero_of_mem_tail hc hu le_rfl]
    have hkodd : Odd k.den := hk ▸ hvodd c
    have hrow := hodd row List.mem_cons_self
    have huodd : ∀ i, Odd (u i).den := by
      intro i
      have hui : u i = (k • Row.vec row + u) i - k * Row.vec row i := by simp
      rw [hui]
      exact odd_den_sub_mul (hvodd i) hkodd (hrow i)
    have hcast : (fun i => (((k • Row.vec row + u) i : ℚ) : ZMod 2)) =
        (k : ZMod 2) • (fun i => ((Row.vec row i : ℚ) : ZMod 2)) + fun i => ((u i : ℚ) : ZMod 2) := by
      funext i
      exact cast_mul_add hkodd (hrow i) (huodd i)
    have hfirst := hw row List.mem_cons_self
    have hrest := ih h.tail (fun q hq => hodd q (List.mem_cons_of_mem _ hq))
      (fun q hq => hw q (List.mem_cons_of_mem _ hq)) hu huodd
    rw [equationAt] at hfirst hrest
    rw [hcast, equationAt, dotTo_add_left, dotTo_smul_left, Pi.add_apply, Pi.smul_apply, smul_eq_mul]
    linear_combination (k : ZMod 2) * hfirst + hrest

end ModTwo

namespace Relations

/-- The parities that the equations of a state allow modulo two. -/
def parities (n : Nat) : Relations → Set (Nat → ZMod 2)
  | bottom => ∅
  | top => Set.univ
  | system m => m.parities n

/-- All coefficients of a state have odd denominators. -/
def OddDenominators : Relations → Prop
  | bottom => True
  | top => True
  | system m => ∀ row ∈ m.rows, ∀ x ∈ row, Odd x.denom

/-- Only bottom is below bottom, and only top is above top. -/
theorem cases_of_subset {n : Nat} {s t : Relations} (hs : s.Canonical n) (ht : t.Canonical n)
    (hle : s.Points n ⊆ t.Points n) : s = .bottom ∨ t = .top ∨ ∃ m q, s = .system m ∧ t = .system q := by
  cases s with
  | bottom => exact .inl rfl
  | top => exact .inr (.inl (eq_of_points_eq ht hs (Set.univ_subset_iff.1 hle)))
  | system m =>
    cases t with
    | bottom =>
      obtain ⟨y, hy⟩ := IsCanonical.solutions_nonempty hs
      exact (hle hy).elim
    | top => exact .inr (.inl rfl)
    | system q => exact .inr (.inr ⟨m, q, rfl, rfl⟩)

instance : DecidablePred OddDenominators
  | bottom => isTrue trivial
  | top => isTrue trivial
  | system m => inferInstanceAs (Decidable (∀ row ∈ m.rows, ∀ x ∈ row, Odd x.denom))

end Relations

/-- If all denominators of a stronger system are odd, its parities are among those of the weaker one. -/
theorem IsCanonical.parities_subset {n : Nat} {m q : RationalMatrix} (hm : IsCanonical n m) (hq : IsCanonical n q)
    (hodd : ∀ row ∈ m.rows, ∀ x ∈ row, Odd x.denom)
    (hle : (solutions n m.rows : Set (Nat → ℚ)) ⊆ solutions n q.rows) : m.parities n ⊆ q.parities n := by
  have hden : ∀ row ∈ m.rows, ∀ i, Odd (Row.vec row i).den := by
    intro row hrow i
    rw [vec_fractions, List.getD_eq_getElem?_getD]
    cases hi : row[i]? with
    | none => simp
    | some x => exact hodd row hrow x (List.mem_of_getElem? hi)
  intro w hw row hrow
  -- The integers of the row are a combination of the rows of the stronger system.
  obtain ⟨k, -, hk⟩ := Fraction.integerRow_spec row
  have hspan : (fun i => ((Fraction.integerRow row).getD i 0 : ℚ)) ∈ rowSpace m.rows := by
    have hscaled : (fun i => ((Fraction.integerRow row).getD i 0 : ℚ)) = k • Row.vec row := funext hk
    rw [hscaled]
    exact Submodule.smul_mem _ _ ((hm.rowSpace_le_iff hq).2 hle (vec_mem_rowSpace hrow))
  have hrows : ∀ r ∈ m.rows, equationAt n (fun i => ((Row.vec r i : ℚ) : ZMod 2)) w = 0 := by
    intro r hr
    obtain ⟨c, -, hone⟩ := hm.reduced.lead_one r hr
    rw [← parityCoeff_eq_cast hone (hden r hr)]
    exact hw r hr
  have hzero := equationAt_cast hm.reduced hden hrows hspan fun i => by simp
  simp only [Rat.cast_intCast] at hzero
  exact hzero

namespace Frame

variable {f : Frame} {s t : Relations} {a : Assertion} {m q : RationalMatrix} {w : Nat → ZMod 2}

/-! ## Fewer parities -/

theorem SumsHold.mono {clause : Clause} (h : f.SumsHold t clause)
    (hle : s.Points f.names.length ⊆ t.Points f.names.length) : f.SumsHold s clause := fun y hy => h y (hle hy)

/-- A check that answers goes through few parities. -/
theorem lt_of_liftCheck (h : ∀ x ∈ (Statement.assert a).mentions, x ∈ f.names) (hs : s.Canonical f.names.length)
    {v : Verdict} (hv : f.liftCheck a s = .ok v) : ∀ k, f.Enumerates a s k → k < 64 := by
  rcases liftCheck_spec h hs with ⟨k, -, -, -, herror⟩ | ⟨hfew, -⟩
  · cases herror.symm.trans hv
  · exact hfew

/-- With few variables no check goes through many parities. -/
theorem liftCheck_answers (hsmall : f.names.length < 64) (h : ∀ x ∈ (Statement.assert a).mentions, x ∈ f.names)
    (hs : s.Canonical f.names.length) :
    (∀ k, f.Enumerates a s k → k < 64) ∧ ∃ v, f.liftCheck a s = .ok v := by
  rcases liftCheck_spec h hs with ⟨k, hmany, hfew, -⟩ | ⟨hfew, v, hv, -⟩
  · omega
  · exact ⟨hfew, v, hv⟩

/-- A state that allows fewer points and fewer parities proves more. -/
theorem liftCheck_mono (h : ∀ x ∈ (Statement.assert a).mentions, x ∈ f.names) (hs : s.Canonical f.names.length)
    (ht : t.Canonical f.names.length) (hle : s.Points f.names.length ⊆ t.Points f.names.length)
    (hparities : s.parities f.names.length ⊆ t.parities f.names.length)
    (hfew : ∀ k, f.Enumerates a s k → k < 64) (hproved : f.liftCheck a t = .ok .proved) :
    f.liftCheck a s = .ok .proved := by
  rcases Relations.cases_of_subset hs ht hle with rfl | rfl | ⟨m, q, rfl, rfl⟩
  · rfl
  · cases s with
    | bottom => rfl
    | top => exact hproved
    | system m =>
      -- The clause that is proved has sums only, and fits all parities.
      obtain ⟨c, hc, hsums, hall⟩ := (liftCheck_top h).1 hproved
      have hsums' := hsums.mono hle
      rw [liftCheck_system h hs hfew]
      exact ⟨⟨c, hc, hsums'⟩, fun w _ => ⟨c, hc, hsums', fun atom hatom => fits_of_isSum (hall atom hatom)⟩⟩
  · obtain ⟨⟨c, hc, hsums⟩, hall⟩ := (liftCheck_system h ht (lt_of_liftCheck h ht hproved)).1 hproved
    rw [liftCheck_system h hs hfew]
    refine ⟨⟨c, hc, hsums.mono hle⟩, fun w hw => ?_⟩
    obtain ⟨d, hd, hdsums, hfits⟩ := hall w (hparities hw)
    exact ⟨d, hd, hdsums.mono hle, hfits⟩

/-! ## More parities -/

/-- Some variable does not have the given parity. -/
def otherwise (f : Frame) (w : Nat → ZMod 2) : Assertion :=
  ⟨f.names.mapIdx fun i x => [if w i = 0 then .odd x else .even x]⟩

theorem mem_otherwise {c : Clause} : c ∈ (f.otherwise w).clauses ↔
    ∃ (i : Nat) (h : i < f.names.length), [if w i = 0 then Atom.odd f.names[i] else .even f.names[i]] = c :=
  List.mem_mapIdx

theorem mentions_otherwise : ∀ x ∈ (Statement.assert (f.otherwise w)).mentions, x ∈ f.names := by
  intro x hx
  obtain ⟨atom, hatom, hxa⟩ := List.mem_flatMap.1 hx
  obtain ⟨c, hc, hac⟩ := List.mem_flatten.1 hatom
  obtain ⟨i, hi, rfl⟩ := mem_otherwise.1 hc
  rw [List.mem_singleton.1 hac] at hxa
  have hxi : x = f.names[i] := by
    split at hxa <;> exact List.mem_singleton.1 hxa
  rw [hxi]
  exact List.getElem_mem hi

/-- Parities fit the assertion if they are other ones. -/
theorem exists_fits_otherwise (hf : f.names.Nodup) {v : Nat → ZMod 2} :
    (∃ c ∈ (f.otherwise w).clauses, f.SumsHold s c ∧ ∀ atom ∈ c, f.Fits v atom) ↔
      ∃ i < f.names.length, v i ≠ w i := by
  have hsums : ∀ c ∈ (f.otherwise w).clauses, f.SumsHold s c := by
    intro c hc y _ atom hatom hsum
    obtain ⟨i, hi, rfl⟩ := mem_otherwise.1 hc
    rw [List.mem_singleton.1 hatom] at hsum
    split at hsum <;> cases hsum
  have hfits : ∀ (i : Nat) (hi : i < f.names.length),
      f.Fits v (if w i = 0 then Atom.odd f.names[i] else .even f.names[i]) ↔ v i ≠ w i := by
    intro i hi
    have hcolumn : f.HasColumn f.names[i] i := hasColumn_of_nodup hf (List.getElem?_eq_getElem hi)
    have hbit : (if w i = 0 then v i = 1 else v i = 0) ↔ v i ≠ w i := by
      generalize v i = b
      generalize w i = d
      revert b d
      decide
    rw [← hbit]
    split <;> simp [Fits, ← hcolumn.iff]
  constructor
  · rintro ⟨c, hc, -, hall⟩
    obtain ⟨i, hi, rfl⟩ := mem_otherwise.1 hc
    exact ⟨i, hi, (hfits i hi).1 (hall _ (List.mem_singleton.2 rfl))⟩
  · rintro ⟨i, hi, hne⟩
    have hc : _ ∈ (f.otherwise w).clauses := mem_otherwise.2 ⟨i, hi, rfl⟩
    refine ⟨_, hc, hsums _ hc, fun atom hatom => ?_⟩
    rw [List.mem_singleton.1 hatom]
    exact (hfits i hi).2 hne

theorem liftCheck_ne_unsupported : f.liftCheck a s ≠ .ok .unsupported := by
  intro h
  simp only [liftCheck, Verdict.ofBool, bind, Except.bind, pure, Except.pure] at h
  repeat' split at h
  all_goals cases h

/-- With parities that the stronger system allows and the weaker one does not, the assertion that the variables have
other ones is proved from the weaker system only. -/
theorem liftCheck_otherwise (hf : f.names.Nodup) (hsmall : f.names.length < 64) (hm : IsCanonical f.names.length m)
    (hq : IsCanonical f.names.length q) (hw : w ∈ m.parities f.names.length) (hout : w ∉ q.parities f.names.length) :
    f.liftCheck (f.otherwise w) (.system q) = .ok .proved ∧ f.liftCheck (f.otherwise w) (.system m) = .ok .violated := by
  constructor
  · obtain ⟨hfew, -⟩ := liftCheck_answers (s := .system q) hsmall mentions_otherwise hq
    rw [liftCheck_system mentions_otherwise hq hfew]
    constructor
    · -- There is a variable, since a canonical system has an equation.
      obtain ⟨r, hr⟩ := List.exists_mem_of_ne_nil _ hq.nonempty
      obtain ⟨c, hc, -⟩ := hq.reduced.lead_one r hr
      have hother : ∃ i < f.names.length, (w + 1) i ≠ w i := ⟨c, hq.lead_lt hr hc, by simp⟩
      obtain ⟨clause, hclause, hsums, -⟩ := (exists_fits_otherwise hf).2 hother
      exact ⟨clause, hclause, hsums⟩
    · intro v hv
      apply (exists_fits_otherwise hf).2
      by_contra hsame
      push Not at hsame
      apply hout
      intro r hr
      have hvr := hv r hr
      rw [equationAt] at hvr ⊢
      rw [← hvr, dotTo, dotTo]
      congr 1
      exact Finset.sum_congr rfl fun i hi => by rw [hsame i (Finset.mem_range.1 hi)]
  · obtain ⟨hfew, v, hv⟩ := liftCheck_answers (s := .system m) hsmall mentions_otherwise hm
    have hnot : v ≠ .proved := by
      rintro rfl
      obtain ⟨-, hall⟩ := (liftCheck_system mentions_otherwise hm hfew).1 hv
      obtain ⟨i, -, hne⟩ := (exists_fits_otherwise hf).1 (hall w hw)
      exact hne rfl
    cases v with
    | proved => exact absurd rfl hnot
    | violated => exact hv
    | unsupported => exact absurd hv liftCheck_ne_unsupported

/-- Of two states the stronger one proves in the lift whatever the weaker one proves, as long as it allows fewer
parities. It does if its coefficients have odd denominators. If it does not, some assertion is proved from the weaker
state and not from the stronger one. -/
theorem liftCheck_of_stronger (hs : s.Canonical f.names.length) (ht : t.Canonical f.names.length)
    (hle : Domain.le s t = .ok true) :
    (s.parities f.names.length ⊆ t.parities f.names.length →
      ∀ a : Assertion, (∀ x ∈ (Statement.assert a).mentions, x ∈ f.names) → (∀ k, f.Enumerates a s k → k < 64) →
        f.liftCheck a t = .ok .proved → f.liftCheck a s = .ok .proved) ∧
    (s.OddDenominators → s.parities f.names.length ⊆ t.parities f.names.length) ∧
    (f.names.Nodup → f.names.length < 64 → ¬ s.parities f.names.length ⊆ t.parities f.names.length →
      ∃ a : Assertion, (∀ x ∈ (Statement.assert a).mentions, x ∈ f.names) ∧
        f.liftCheck a t = .ok .proved ∧ f.liftCheck a s = .ok .violated) := by
  have hpoints := (Relations.le_iff hs ht).1 hle
  refine ⟨fun hparities a h hfew => liftCheck_mono h hs ht hpoints hparities hfew, ?_⟩
  rcases Relations.cases_of_subset hs ht hpoints with rfl | rfl | ⟨m, q, rfl, rfl⟩
  · exact ⟨fun _ => Set.empty_subset _, fun _ _ hnot => absurd (Set.empty_subset _) hnot⟩
  · exact ⟨fun _ => Set.subset_univ _, fun _ _ hnot => absurd (Set.subset_univ _) hnot⟩
  · refine ⟨fun hodd => IsCanonical.parities_subset hs ht hodd hpoints, fun hf hsmall hnot => ?_⟩
    obtain ⟨w, hw, hout⟩ := Set.not_subset.1 hnot
    exact ⟨f.otherwise w, mentions_otherwise, liftCheck_otherwise hf hsmall hs ht hw hout⟩

/-- `2 x + z = 0` and `2 y + z = 0`, which is `x + z / 2 = 0` and `y + z / 2 = 0`. -/
def halves : Relations := .solving ⟨4, [[.ofInt 2, 0, 1, 0], [0, .ofInt 2, 1, 0]], by decide⟩

/-- `x = y`. -/
def alike : Relations := .solving ⟨4, [[1, -1, 0, 0]], by decide⟩

/-- `x = y` and `x = z`. -/
def allAlike : Relations := .solving ⟨4, [[1, -1, 0, 0], [1, 0, -1, 0]], by decide⟩

/-- `x` and `y` have the same parity. -/
def sameParity : Assertion := ⟨[[.even "x", .even "y"], [.odd "x", .odd "y"]]⟩

/-- From `x = y` and `x = z`, which have odd denominators, all is proved that `x = y` proves. With halves more parities
are possible, and some of what `x = y` proves is not proved. -/
theorem liftCheck_of_stronger_alike :
    (Domain.le allAlike alike = .ok true ∧ allAlike.OddDenominators ∧
      triple.liftCheck sameParity alike = .ok .proved ∧ triple.liftCheck sameParity allAlike = .ok .proved) ∧
    (Domain.le halves alike = .ok true ∧ ¬ halves.parities 3 ⊆ alike.parities 3 ∧
      ∃ a : Assertion, (∀ x ∈ (Statement.assert a).mentions, x ∈ triple.names) ∧
        triple.liftCheck a alike = .ok .proved ∧ triple.liftCheck a halves = .ok .violated) := by
  have hallAlike : allAlike.Canonical triple.names.length := (Relations.solving_spec rfl).1
  have halike : alike.Canonical triple.names.length := (Relations.solving_spec rfl).1
  have hhalves : halves.Canonical triple.names.length := (Relations.solving_spec rfl).1
  have hnames : ∀ x ∈ (Statement.assert sameParity).mentions, x ∈ triple.names := by decide
  have hsmall : triple.names.length < 64 := by decide
  have hle : Domain.le allAlike alike = .ok true := by decide +kernel
  have hodd : allAlike.OddDenominators := by decide +kernel
  have hproved : triple.liftCheck sameParity alike = .ok .proved := by decide +kernel
  obtain ⟨hmono, hparities, -⟩ := liftCheck_of_stronger hallAlike halike hle
  have hkept := hmono (hparities hodd) sameParity hnames (liftCheck_answers hsmall hnames hallAlike).1 hproved
  have hle' : Domain.le halves alike = .ok true := by decide +kernel
  have hviolated : triple.liftCheck sameParity halves ≠ .ok .proved := by decide +kernel
  obtain ⟨hmono', -, hsharp⟩ := liftCheck_of_stronger hhalves halike hle'
  have hmore : ¬ halves.parities 3 ⊆ alike.parities 3 := fun hsub =>
    hviolated (hmono' hsub sameParity hnames (liftCheck_answers hsmall hnames hhalves).1 hproved)
  exact ⟨⟨hle, hodd, hproved, hkept⟩, hle', hmore, hsharp (by decide) hsmall hmore⟩

/-- From `2 x + z = 0` and `2 y + z = 0` follows `x = y`, which proves that both have the same parity. But from the two
equations themselves this is not proved, although both checks go through few parities. -/
theorem liftCheck_halves :
    halves.Canonical triple.names.length ∧ alike.Canonical triple.names.length ∧ Domain.le halves alike = .ok true ∧
      (∀ x ∈ (Statement.assert sameParity).mentions, x ∈ triple.names) ∧
      (∀ k, triple.Enumerates sameParity halves k → k < 64) ∧ (∀ k, triple.Enumerates sameParity alike k → k < 64) ∧
      triple.liftCheck sameParity alike = .ok .proved ∧ triple.liftCheck sameParity halves = .ok .violated := by
  have hhalves : halves.Canonical triple.names.length := (Relations.solving_spec rfl).1
  have halike : alike.Canonical triple.names.length := (Relations.solving_spec rfl).1
  have hnames : ∀ x ∈ (Statement.assert sameParity).mentions, x ∈ triple.names := by decide
  have hsmall : triple.names.length < 64 := by decide
  exact ⟨hhalves, halike, by decide +kernel, hnames, (liftCheck_answers hsmall hnames hhalves).1,
    (liftCheck_answers hsmall hnames halike).1, by decide +kernel, by decide +kernel⟩

end Frame

end FlowFacts
