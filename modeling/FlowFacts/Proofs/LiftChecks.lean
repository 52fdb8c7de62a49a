import Mathlib
import FlowFacts.Proofs.ProductRefinement

/-!
# What the lift proves

The lift goes through the parities that the equations of a state allow modulo two, and asks of each whether some
clause fits it. So what it calls proved can be said without the list: the sums of some clause hold at every point,
and each of the parities fits a clause whose sums do (`Frame.liftCheck_system`). A state without equations proves a
clause only if no parity atom is in it (`Frame.liftCheck_top`).
-/

namespace FlowFacts

/-- The value of a name is that of one of its entries, or the default if it has none. -/
theorem VarMap.get_ofEntries {V : Type} [DecidableEq V] (v : V) (entries : List (Entry V)) (x : String) :
    (∃ e ∈ entries, e.name = x ∧ (VarMap.ofEntries v entries).get x = e.value) ∨
      (∀ e ∈ entries, e.name ≠ x) ∧ (VarMap.ofEntries v entries).get x = v := by
  induction entries using List.reverseRecOn with
  | nil => exact .inr ⟨nofun, rfl⟩
  | append_singleton entries e ih =>
    have hlast : VarMap.ofEntries v (entries ++ [e]) = (VarMap.ofEntries v entries).set e.name e.value := by
      simp [VarMap.ofEntries]
    rw [hlast]
    by_cases hx : e.name = x
    · exact .inl ⟨e, by simp, hx, by rw [hx, VarMap.get_set_self]⟩
    · rw [VarMap.get_set_of_ne _ _ (Ne.symm hx)]
      rcases ih with ⟨d, hd, hname, hget⟩ | ⟨hnone, hget⟩
      · exact .inl ⟨d, List.mem_append_left _ hd, hname, hget⟩
      · refine .inr ⟨?_, hget⟩
        simpa [or_imp, forall_and] using ⟨hnone, hx⟩

/-- The parity of a bit. -/
def Parity.ofBit (z : ZMod 2) : Parity := if z = 0 then .even else .odd

theorem Parity.ofBit_le_even : ∀ {z : ZMod 2}, (Parity.ofBit z).le .even = true ↔ z = 0 := by decide

theorem Parity.ofBit_le_odd : ∀ {z : ZMod 2}, (Parity.ofBit z).le .odd = true ↔ z = 1 := by decide

theorem Parity.ofBit_ne_bottom : ∀ {z : ZMod 2}, Parity.ofBit z ≠ .bottom := by decide

theorem Parity.le_meet {p q r : Parity} : p.le (q.meet r) = true ↔ p.le q = true ∧ p.le r = true := by
  cases p <;> cases q <;> cases r <;> decide

/-! ## Maps and clauses -/

namespace ParityMap

variable {m n : ParityMap} {x : String}

/-- What a map says makes a parity atom hold. -/
def Entails (m : ParityMap) : Atom → Prop
  | .even x => (m.get x).le .even = true
  | .odd x => (m.get x).le .odd = true
  | .sum _ _ => True

theorem le_restrict {p : Parity} : m ≤ n.set x ((n.get x).meet p) ↔ m ≤ n ∧ (m.get x).le p = true := by
  simp only [le_def, VarMap.default_set, VarMap.get_set, and_assoc]
  refine and_congr_right fun _ => ⟨fun h => ?_, fun ⟨h, hx⟩ y => ?_⟩
  · have hx := h x
    rw [if_pos rfl, Parity.le_meet] at hx
    refine ⟨fun y => ?_, hx.2⟩
    have hy := h y
    split at hy
    · next heq => exact heq ▸ hx.1
    · exact hy
  · split
    · next heq =>
      rw [heq]
      exact Parity.le_meet.2 ⟨h x, hx⟩
    · exact h y

/-- A map is below that of a clause if it makes the parity atoms of the clause hold. -/
theorem le_ofClause {c : Clause} : m ≤ ofClause c ↔ ∀ atom ∈ c, m.Entails atom := by
  have hfold : ∀ (c : Clause) (n : ParityMap), m ≤ c.foldl withAtom n ↔ m ≤ n ∧ ∀ atom ∈ c, m.Entails atom := by
    intro c
    induction c with
    | nil => simp
    | cons atom rest ih =>
      intro n
      rw [List.foldl_cons, ih, List.forall_mem_cons, ← and_assoc]
      cases atom <;> simp [withAtom, Entails, le_restrict]
  rw [ofClause, hfold, and_iff_right (le_top m)]

end ParityMap

/-- A single map satisfies facts if it is below one of them. -/
theorem ParityState.satisfies_singleton {p : ParityMap} (hp : p.hasBottom = false) {facts : List ParityMap} :
    ParityState.satisfies (.ofDisjuncts [p]) facts = true ↔ ∃ fact ∈ facts, p ≤ fact := by
  obtain ⟨k, hk, -⟩ := covered_ofDisjuncts (List.mem_singleton.2 rfl) hp
  have honly : ∀ k ∈ (Disjunction.ofDisjuncts [p]).expand, k = p := fun k hk =>
    List.mem_singleton.1 (mem_of_mem_ofDisjuncts hk)
  rw [satisfies, List.all_eq_true]
  constructor
  · intro h
    obtain ⟨fact, hfact, hle⟩ := List.any_eq_true.1 (h k hk)
    exact ⟨fact, hfact, honly k hk ▸ hle⟩
  · rintro ⟨fact, hfact, hle⟩ k hk
    exact List.any_eq_true.2 ⟨fact, hfact, honly k hk ▸ hle⟩

namespace Frame

variable {f : Frame} {columns : List Nat} {bits : BitRow} {w : Nat → ZMod 2} {x : String} {c : Nat}

/-! ## Listed points -/

/-- A row of the list, read as a map. -/
theorem parityMapAt_eq (hlen : bits.length = columns.length) (hbits : Row.vec bits = pick columns w) :
    f.parityMapAt columns bits = .ofEntries .top (columns.map fun c => ⟨f.names.getD c "", .ofBit (w c)⟩) := by
  unfold parityMapAt
  congr 1
  have hlist : bits.toList.length = columns.length := bits.length_toList.trans hlen
  apply List.ext_getElem
  · simp [hlist]
  · intro i hi _
    have hc : i < columns.length := by simpa [hlist] using hi
    have hval := congrFun hbits i
    rw [vec_bits, pick_apply, List.getElem?_eq_getElem hc, Option.map_some, Option.getD_some] at hval
    simp only [List.getElem_map, List.getElem_zip, BitRow.getElem_toList, ← hval]
    cases bits.bit i <;> rfl

/-- A map of the list has no parity that no number has. -/
theorem hasBottom_parityMapAt (hlen : bits.length = columns.length) (hbits : Row.vec bits = pick columns w) :
    (f.parityMapAt columns bits).hasBottom = false := by
  rw [ParityMap.hasBottom_eq_false, parityMapAt_eq hlen hbits, default_ofEntries]
  refine ⟨nofun, fun x => ?_⟩
  rcases VarMap.get_ofEntries Parity.top (columns.map fun c => ⟨f.names.getD c "", .ofBit (w c)⟩) x with
    ⟨e, he, -, hget⟩ | ⟨-, hget⟩
  · obtain ⟨c, -, rfl⟩ := List.mem_map.1 he
    rw [hget]
    exact Parity.ofBit_ne_bottom
  · rw [hget]
    nofun

/-- In the columns of variables it has the parities of the row. -/
theorem get_parityMapAt (hlen : bits.length = columns.length) (hbits : Row.vec bits = pick columns w)
    (hcolumns : ∀ c ∈ columns, ∃ u, f.HasColumn u c) (hx : f.HasColumn x c) (hc : c ∈ columns) :
    (f.parityMapAt columns bits).get x = .ofBit (w c) := by
  have hname : ∀ {u d}, f.HasColumn u d → f.names.getD d "" = u := by
    intro u d hu
    rw [List.getD_eq_getElem?_getD, hu.name, Option.getD_some]
  rw [parityMapAt_eq hlen hbits]
  rcases VarMap.get_ofEntries Parity.top (columns.map fun c => ⟨f.names.getD c "", .ofBit (w c)⟩) x with
    ⟨e, he, hex, hget⟩ | ⟨hnone, -⟩
  · obtain ⟨d, hd, rfl⟩ := List.mem_map.1 he
    obtain ⟨u, hu⟩ := hcolumns d hd
    obtain rfl : u = x := (hname hu).symm.trans hex
    rw [hget, hx.iff.2 hu]
  · exact absurd (hname hx) (hnone _ (List.mem_map_of_mem hc))

/-! ## Parities that fit a clause -/

/-- A parity atom holds of the parities in the columns. -/
def Fits (f : Frame) (w : Nat → ZMod 2) : Atom → Prop
  | .even x => ∀ c, f.HasColumn x c → w c = 0
  | .odd x => ∀ c, f.HasColumn x c → w c = 1
  | .sum _ _ => True

theorem fits_of_isSum {atom : Atom} (h : atom.isSum = true) : f.Fits w atom := by
  cases atom with
  | even x => cases h
  | odd x => cases h
  | sum left right => trivial

theorem entails_parityMapAt (hlen : bits.length = columns.length) (hbits : Row.vec bits = pick columns w)
    (hcolumns : ∀ c ∈ columns, ∃ u, f.HasColumn u c) {atom : Atom}
    (hatom : ∀ x ∈ atom.parityNames, ∃ c ∈ columns, f.HasColumn x c) :
    (f.parityMapAt columns bits).Entails atom ↔ f.Fits w atom := by
  have hcolumn : ∀ {x c z}, f.HasColumn x c → ((∀ d, f.HasColumn x d → w d = z) ↔ w c = z) := by
    intro x c z hx
    simp [← hx.iff]
  cases atom with
  | even x =>
    obtain ⟨c, hc, hx⟩ := hatom x (by simp [Atom.parityNames])
    rw [ParityMap.Entails, get_parityMapAt hlen hbits hcolumns hx hc, Parity.ofBit_le_even, Fits, hcolumn hx]
  | odd x =>
    obtain ⟨c, hc, hx⟩ := hatom x (by simp [Atom.parityNames])
    rw [ParityMap.Entails, get_parityMapAt hlen hbits hcolumns hx hc, Parity.ofBit_le_odd, Fits, hcolumn hx]
  | sum left right => exact Iff.rfl

/-- The sums of a clause hold at every point of a state. -/
def SumsHold (f : Frame) (s : Relations) (clause : Clause) : Prop :=
  ∀ y ∈ s.Points f.names.length, ∀ atom ∈ clause, atom.isSum → atom.HoldsAt (f.read fun i => y i)

variable {s : Relations} {a : Assertion} {m : RationalMatrix} {clauses kept : List Clause}

/-- What remains are the parity atoms of the clauses whose sums hold. -/
theorem mem_dischargeSums_iff (hs : s.Canonical f.names.length)
    (h : ∀ c ∈ clauses, ∀ atom ∈ c, ∀ x ∈ atom.names, x ∈ f.names) (hkept : f.dischargeSums s clauses = .ok kept)
    {k : Clause} : k ∈ kept ↔ ∃ c ∈ clauses, f.SumsHold s c ∧ c.filter Atom.isParity = k := by
  rw [mem_dischargeSums hkept]
  refine exists_congr fun c => and_congr_right fun hc => and_congr_left fun _ => ?_
  obtain ⟨b, hb, hiff⟩ := provesSums_spec (h c hc) hs
  rw [SumsHold, ← hiff, hb, Except.ok.injEq]
  refine ⟨fun hproves => ?_, fun hb _ => hb⟩
  by_cases hany : c.any Atom.isSum = true
  · exact hproves hany
  · apply hiff.2
    intro y _ atom hatom hsum
    exact absurd (List.any_eq_true.2 ⟨atom, hatom, hsum⟩) hany

/-- Parities fit what remains of some clause if they fit a clause whose sums hold. -/
theorem exists_fits_iff (hs : s.Canonical f.names.length)
    (h : ∀ c ∈ clauses, ∀ atom ∈ c, ∀ x ∈ atom.names, x ∈ f.names) (hkept : f.dischargeSums s clauses = .ok kept) :
    (∃ k ∈ kept, ∀ atom ∈ k, f.Fits w atom) ↔ ∃ c ∈ clauses, f.SumsHold s c ∧ ∀ atom ∈ c, f.Fits w atom := by
  simp only [mem_dischargeSums_iff hs h hkept]
  constructor
  · rintro ⟨_, ⟨c, hc, hsums, rfl⟩, hfits⟩
    refine ⟨c, hc, hsums, fun atom hatom => ?_⟩
    by_cases hsum : atom.isSum = true
    · exact fits_of_isSum hsum
    · exact hfits atom (List.mem_filter.2 ⟨hatom, by simp [Atom.isParity, hsum]⟩)
  · rintro ⟨c, hc, hsums, hfits⟩
    exact ⟨_, ⟨c, hc, hsums, rfl⟩, fun atom hatom => hfits atom (List.mem_filter.1 hatom).1⟩

/-! ## The check -/

/-- The facts cover a point of the list if its parities fit one of the clauses. -/
theorem satisfies_parityMapAt (hlen : bits.length = columns.length) (hbits : Row.vec bits = pick columns w)
    (hcolumns : ∀ c ∈ columns, ∃ u, f.HasColumn u c)
    (hkept : ∀ k ∈ kept, ∀ atom ∈ k, ∀ x ∈ atom.parityNames, ∃ c ∈ columns, f.HasColumn x c) :
    ParityState.satisfies (.ofDisjuncts [f.parityMapAt columns bits]) (kept.map ParityMap.ofClause) = true ↔
      ∃ k ∈ kept, ∀ atom ∈ k, f.Fits w atom := by
  simp only [ParityState.satisfies_singleton (hasBottom_parityMapAt hlen hbits), List.mem_map, exists_exists_and_eq_and,
    ParityMap.le_ofClause]
  refine exists_congr fun k => and_congr_right fun hk => forall₂_congr fun atom hatom => ?_
  exact entails_parityMapAt hlen hbits hcolumns (hkept k hk atom hatom)

/-- The facts cover the list if all parities that the system allows fit one of the clauses. -/
theorem all_satisfies_iff {origin : BitRow} {dirs : BitMatrix} (hlists : Lists f.names.length m columns origin dirs)
    (hcolumns : ∀ c ∈ columns, ∃ u, f.HasColumn u c)
    (hkept : ∀ k ∈ kept, ∀ atom ∈ k, ∀ x ∈ atom.parityNames, ∃ c ∈ columns, f.HasColumn x c) :
    (((reached [origin] dirs.rows).map (f.parityMapAt columns)).all fun p =>
        ParityState.satisfies (.ofDisjuncts [p]) (kept.map ParityMap.ofClause)) = true ↔
      ∀ w ∈ m.parities f.names.length, ∃ k ∈ kept, ∀ atom ∈ k, f.Fits w atom := by
  obtain ⟨hlen, hrows⟩ := hlists.spec
  simp only [List.all_eq_true, List.forall_mem_map]
  constructor
  · intro hall w hw
    obtain ⟨r, hr, hvec⟩ := (hrows _).2 ⟨w, hw, rfl⟩
    exact (satisfies_parityMapAt (hlen r hr) hvec hcolumns hkept).1 (hall r hr)
  · intro hall r hr
    obtain ⟨w, hw, hvec⟩ := (hrows _).1 ⟨r, hr, rfl⟩
    exact (satisfies_parityMapAt (hlen r hr) hvec.symm hcolumns hkept).2 (hall w hw)

/-- Without equations the sums of a clause have to be all there is in it. -/
theorem liftCheck_top (h : ∀ x ∈ (Statement.assert a).mentions, x ∈ f.names) :
    f.liftCheck a .top = .ok .proved ↔ ∃ c ∈ a.clauses, f.SumsHold .top c ∧ ∀ atom ∈ c, atom.isSum = true := by
  have htop : Relations.top.Canonical f.names.length := trivial
  obtain ⟨kept, hkept, -⟩ := dischargeSums_spec htop (names_of_clause h)
  have hempty : kept.any List.isEmpty = true ↔
      ∃ c ∈ a.clauses, f.SumsHold .top c ∧ ∀ atom ∈ c, atom.isSum = true := by
    simp [mem_dischargeSums_iff htop (names_of_clause h) hkept, Atom.isParity]
  rw [← hempty]
  simp only [liftCheck, hkept, Relations.isBottom, Relations.isTop, Bool.or_true, Bool.false_eq_true, if_false, if_true,
    bind, Except.bind, pure, Except.pure]
  by_cases hany : kept.any List.isEmpty = true
  · simp [hany]
  · simp [hany]

/-- With equations, the sums of some clause have to hold, and all parities that the equations allow modulo two have
to fit a clause whose sums hold. -/
theorem liftCheck_system (h : ∀ x ∈ (Statement.assert a).mentions, x ∈ f.names) (hm : IsCanonical f.names.length m)
    (hfew : ∀ k, f.Enumerates a (.system m) k → k < 64) :
    f.liftCheck a (.system m) = .ok .proved ↔ (∃ c ∈ a.clauses, f.SumsHold (.system m) c) ∧
      ∀ w ∈ m.parities f.names.length, ∃ c ∈ a.clauses, f.SumsHold (.system m) c ∧ ∀ atom ∈ c, f.Fits w atom := by
  have hs : (Relations.system m).Canonical f.names.length := hm
  obtain ⟨kept, hkept, hatoms, -⟩ := dischargeSums_spec hs (names_of_clause h)
  have hmem : ∀ {k}, k ∈ kept ↔ _ := mem_dischargeSums_iff hs (names_of_clause h) hkept
  have hsome : (∃ c ∈ a.clauses, f.SumsHold (.system m) c) ↔ kept ≠ [] := by
    constructor
    · rintro ⟨c, hc, hsums⟩
      exact List.ne_nil_of_mem (hmem.2 ⟨c, hc, hsums, rfl⟩)
    · intro hne
      obtain ⟨k, hk⟩ := List.exists_mem_of_ne_nil _ hne
      obtain ⟨c, hc, hsums, -⟩ := hmem.1 hk
      exact ⟨c, hc, hsums⟩
  simp only [hsome, ← exists_fits_iff hs (names_of_clause h) hkept]
  simp only [liftCheck, hkept, Relations.isBottom, Relations.isTop, Bool.or_false, Bool.false_eq_true, if_false, bind,
    Except.bind, pure, Except.pure]
  by_cases hempty : kept.any List.isEmpty = true
  · -- A clause of which nothing remains fits all parities.
    rw [if_pos hempty]
    obtain ⟨k, hk, hnil⟩ := List.any_eq_true.1 hempty
    rw [List.isEmpty_iff.1 hnil] at hk
    exact iff_of_true rfl ⟨List.ne_nil_of_mem hk, fun w _ => ⟨[], hk, by simp⟩⟩
  · rw [if_neg hempty]
    by_cases hnone : kept = []
    · simp [hnone]
    · rw [if_neg (by simpa using hnone), and_iff_right hnone]
      obtain ⟨cs, hcs, hcolumns, -⟩ := parityColumns_spec fun k hk atom hatom => (hatoms k hk atom hatom).2
      have hlt : ∀ c ∈ cs, c < f.names.length := fun c hc => by
        obtain ⟨x, -, hx⟩ := (hcolumns c).1 hc
        exact hx.lt
      simp only [hcs]
      rcases parityPoints_cases hm hlt with ⟨hno, hpoints⟩ | ⟨origin, dirs, hlists, hpoints⟩
      · simp [hpoints, hno]
      · have hheight : ¬ 64 ≤ dirs.height := by
          obtain ⟨v, hv, -⟩ := hlists.origin
          have hnil : [] ∉ kept := fun hk => hempty (List.any_eq_true.2 ⟨[], hk, rfl⟩)
          have hfree := hfew _ ((enumerates_system hkept).2 ⟨hnone, hnil, cs, hcs, ⟨v, hv⟩, rfl⟩)
          rw [hlists.height]
          omega
        rw [if_neg hheight] at hpoints
        have hnames : ∀ k ∈ kept, ∀ atom ∈ k, ∀ x ∈ atom.parityNames, ∃ c ∈ cs, f.HasColumn x c := by
          intro k hk atom hatom x hx
          have hlisted : x ∈ kept.flatten.flatMap Atom.parityNames :=
            List.mem_flatMap.2 ⟨atom, List.mem_flatten.2 ⟨k, hk, hatom⟩, hx⟩
          obtain ⟨c, hc⟩ := exists_column ((hatoms k hk atom hatom).2 x (atom.parityNames_subset hx))
          exact ⟨c, (hcolumns c).2 ⟨x, hlisted, hc⟩, hc⟩
        rw [← all_satisfies_iff hlists (fun c hc => ((hcolumns c).1 hc).imp fun _ => And.right) hnames]
        simp only [hpoints]
        cases (List.map (f.parityMapAt cs) (reached [origin] dirs.rows)).all _ <;> simp [Verdict.ofBool]

end Frame

end FlowFacts
