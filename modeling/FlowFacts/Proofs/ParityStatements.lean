import Mathlib
import FlowFacts.Parity.Analysis
import FlowFacts.Proofs.ParityStates

/-!
# Parity states under statements

Every statement either passes a state on, or leaves nothing of it, or replaces each alternative by some
that follow from it (`ParityState.transfer_cases`). The last preserves covering and follows the steps of
stores, so the analysis is monotone in this order, although it is not in the order in which the solver
compares states. A statement that does not pass states on makes the same of states that cover each other
(`ParityState.transfer_congr`).
-/

namespace FlowFacts

/-! ## Alternatives under a statement -/

/-- Each map is replaced by maps that follow from it under a statement: over the same variables and with
the same default, more from a higher map, and with one for every step of a store. -/
structure Alternatives (names : List String) (statement : Statement) (f : ParityMap → List ParityMap) : Prop where
  confined : ∀ m, m.Confined names → ∀ k ∈ f m, k.Confined names
  default : ∀ m, ∀ k ∈ f m, k.default = m.default
  mono : ∀ m n, m ≤ n → ∀ k ∈ f m, k.hasBottom = false → ∃ l ∈ f n, k ≤ l
  step : ∀ m s t, statement.Step s t → m.Contains s → ∃ k ∈ f m, k.Contains t

namespace ParityMap

variable {names : List String} {m n k : ParityMap} {x u : String}

theorem Confined.set (h : m.Confined names) (hx : x ∈ names) (p : Parity) : ParityMap.Confined names (m.set x p) where
  default := by rw [VarMap.default_set, h.default]
  other y hy := by
    have hne : y ≠ x := by
      rintro rfl
      exact hy hx
    rw [VarMap.get_set_of_ne _ _ hne]
    exact h.other y hy

theorem top_of_le {p : Parity} (h : Parity.le .top p = true) : p = .top := by
  cases p <;> first | rfl | cases h

/-- A parity that is neither nothing nor everything is one of the two. -/
theorem even_or_odd {p : Parity} (hb : p ≠ .bottom) (ht : p ≠ .top) : p ∈ [Parity.even, .odd] := by
  cases p <;> simp_all

theorem of_mem (i : Int) : Parity.of i ∈ [Parity.even, .odd] := by
  unfold Parity.of
  split <;> simp

theorem contains_shift_back {p : Parity} {i j : Int} (h : p.Contains (i + j)) : (p.shift j).Contains i := by
  unfold Parity.shift
  split <;> cases p <;> simp only [Parity.flip, Parity.Contains] at h ⊢ <;> omega

/-! ### Assignments -/

theorem mem_copy {j : Int} : k ∈ m.copy x u j ↔ (u = x ∨ m.get u ≠ .top) ∧ k = m.set x ((m.get u).shift j) ∨
    ¬ (u = x ∨ m.get u ≠ .top) ∧ ∃ p ∈ [Parity.even, .odd], (m.set u p).set x (p.shift j) = k := by
  unfold copy
  split
  · next h => rw [List.mem_singleton, and_iff_right h, or_iff_left fun hn => hn.1 h]
  · next h => rw [List.mem_map, and_iff_right h, or_iff_right fun hn => h hn.1]

theorem alternatives_copy (hx : x ∈ names) (hu : u ∈ names) {value : Value} (hreads : value.reads = some u) :
    Alternatives names (.assign x value) (copy x u value.offset) where
  confined m hm k hk := by
    rcases mem_copy.1 hk with ⟨-, rfl⟩ | ⟨-, p, hp, rfl⟩
    · exact hm.set hx _
    · exact (hm.set hu _).set hx _
  default m k hk := by
    rcases mem_copy.1 hk with ⟨-, rfl⟩ | ⟨-, p, -, rfl⟩
    · rw [VarMap.default_set]
    · rw [VarMap.default_set, VarMap.default_set]
  mono m n hmn k hk hlive := by
    have hget := (le_def.1 hmn).2
    by_cases hn : u = x ∨ n.get u ≠ .top
    · -- A map below one that knows the variable knows it too.
      have hm' : u = x ∨ m.get u ≠ .top := hn.imp_right fun h htop => h (top_of_le (htop ▸ hget u))
      rcases mem_copy.1 hk with ⟨-, rfl⟩ | ⟨h, -⟩
      · exact ⟨_, mem_copy.2 (.inl ⟨hn, rfl⟩), set_mono hmn (Parity.shift_mono (hget u) _) x⟩
      · exact absurd hm' h
    · rcases mem_copy.1 hk with ⟨h, rfl⟩ | ⟨-, p, hp, rfl⟩
      · -- The variable that is read keeps its parity, so this is one that some number has.
        have hux : u ≠ x := fun h => hn (.inl h)
        have hbottom := (hasBottom_eq_false.1 hlive).2 u
        rw [VarMap.get_set_of_ne _ _ hux] at hbottom
        refine ⟨_, mem_copy.2 (.inr ⟨hn, m.get u, even_or_odd hbottom (h.resolve_left hux), rfl⟩), ?_⟩
        exact set_mono (le_set hmn (Parity.le_refl _)) (Parity.le_refl _) x
      · refine ⟨_, mem_copy.2 (.inr ⟨hn, p, hp, rfl⟩), ?_⟩
        exact set_mono (set_mono hmn (Parity.le_refl _) u) (Parity.le_refl _) x
  step m s t hstep hm := by
    cases hstep with
    | assign _ hyields =>
      rw [(Value.yields_of_reads hreads).1 hyields]
      by_cases h : u = x ∨ m.get u ≠ .top
      · exact ⟨_, mem_copy.2 (.inl ⟨h, rfl⟩), contains_set hm (Parity.contains_shift.2 (hm u)) x⟩
      · refine ⟨_, mem_copy.2 (.inr ⟨h, Parity.of (s u), of_mem _, rfl⟩), ?_⟩
        exact contains_set (contains_set_same hm (Parity.contains_of _))
          (Parity.contains_shift.2 (Parity.contains_of _)) x

theorem alternatives_set (hx : x ∈ names) {value : Value} {p : Parity}
    (hyields : ∀ s i, value.Yields s i → p.Contains i) :
    Alternatives names (.assign x value) fun m => [m.set x p] where
  confined m hm k hk := by
    rw [List.mem_singleton.1 hk]
    exact hm.set hx p
  default m k hk := by rw [List.mem_singleton.1 hk, VarMap.default_set]
  mono m n hmn k hk _ := by
    rw [List.mem_singleton.1 hk]
    exact ⟨_, List.mem_singleton.2 rfl, set_mono hmn (Parity.le_refl _) x⟩
  step m s t hstep hm := by
    cases hstep with
    | assign _ h => exact ⟨_, List.mem_singleton.2 rfl, contains_set hm (hyields _ _ h) x⟩

theorem alternatives_assign (hx : x ∈ names) {value : Value} (hu : ∀ u ∈ value.reads, u ∈ names) :
    Alternatives names (.assign x value) (assign x value) := by
  cases value with
  | const c => exact alternatives_set hx fun s i hi => (show i = c from hi) ▸ Parity.contains_of c
  | unknown => exact alternatives_set hx fun _ _ _ => trivial
  | var u => exact alternatives_copy hx (hu u rfl) rfl
  | plus u c => exact alternatives_copy hx (hu u rfl) rfl
  | minus u c => exact alternatives_copy hx (hu u rfl) rfl

/-! ### Assumptions -/

theorem alternatives_restrict (hx : x ∈ names) (c : Int) :
    Alternatives names (.assume (.equal x (.const c))) (restrict x (.of c)) where
  confined m hm k hk := by
    rw [List.mem_singleton.1 hk]
    exact hm.set hx _
  default m k hk := by rw [List.mem_singleton.1 hk, VarMap.default_set]
  mono m n hmn k hk _ := by
    rw [List.mem_singleton.1 hk]
    refine ⟨_, List.mem_singleton.2 rfl, ?_⟩
    exact set_mono hmn (Parity.meet_mono ((le_def.1 hmn).2 x) (Parity.le_refl _)) x
  step m s t hstep hm := by
    obtain ⟨⟨i, hi, hx⟩, rfl⟩ := Statement.step_assume hstep
    refine ⟨_, List.mem_singleton.2 rfl, contains_set_same hm (Parity.contains_meet.2 ⟨hm x, ?_⟩)⟩
    rw [hx, show i = c from hi]
    exact Parity.contains_of c

theorem mem_relate {j : Int} : k ∈ m.relate x u j ↔
    (m.get x = .top ∧ m.get u = .top) ∧ (∃ p ∈ [Parity.even, .odd], (m.set u p).set x (p.shift j) = k) ∨
    ¬ (m.get x = .top ∧ m.get u = .top) ∧
      k = (m.set x ((m.get x).meet ((m.get u).shift j))).set u (((m.get x).meet ((m.get u).shift j)).shift j) := by
  unfold relate
  split
  · next h => rw [List.mem_map, and_iff_right h, or_iff_left fun hn => hn.1 h]
  · next h => rw [List.mem_singleton, and_iff_right h, or_iff_right fun hn => h hn.1]

/-- If one of two parities is known then so is what they say together. -/
theorem meet_shift_ne_top {p q : Parity} {j : Int} (h : ¬ (p = .top ∧ q = .top)) : p.meet (q.shift j) ≠ .top := by
  unfold Parity.shift
  split <;> cases p <;> cases q <;> simp_all [Parity.meet, Parity.flip]

/-- Where a map knows one of the two parities and a map above it knows none, one of the two cases of
the upper map is above what the lower one becomes. -/
theorem exists_relate_of_known (hux : u ≠ x) {j : Int} (hmn : m ≤ n) (hm : ¬ (m.get x = .top ∧ m.get u = .top))
    (hn : n.get x = .top ∧ n.get u = .top) (hk : k ∈ relate x u j m) (hlive : k.hasBottom = false) :
    ∃ l ∈ relate x u j n, k ≤ l := by
  rcases mem_relate.1 hk with ⟨h, -⟩ | ⟨-, rfl⟩
  · exact absurd h hm
  set p := (m.get x).meet ((m.get u).shift j) with hp
  have hpu := (hasBottom_eq_false.1 hlive).2 u
  rw [VarMap.get_set_self] at hpu
  have hpt : p.shift j ≠ .top := by
    intro h
    apply meet_shift_ne_top hm (j := j)
    rw [← hp, ← Parity.shift_shift p j, h]
    unfold Parity.shift
    split <;> rfl
  -- What `u` becomes is even or odd, and the case of that parity gives `x` the parity it has below.
  refine ⟨_, mem_relate.2 (.inl ⟨hn, p.shift j, even_or_odd hpu hpt, rfl⟩), ?_⟩
  rw [Parity.shift_shift]
  refine le_def.2 ⟨by simpa using (le_def.1 hmn).1, fun y => ?_⟩
  simp only [VarMap.get_set]
  by_cases hyu : y = u
  · subst hyu
    simp [hux, Parity.le_refl]
  · by_cases hyx : y = x
    · simp [hyx, hux.symm, Parity.le_refl]
    · simp only [hyu, hyx, if_false]
      exact (le_def.1 hmn).2 y

theorem alternatives_relate (hx : x ∈ names) (hu : u ∈ names) (hux : u ≠ x) {value : Value}
    (hreads : value.reads = some u) :
    Alternatives names (.assume (.equal x value)) (relate x u value.offset) where
  confined m hm k hk := by
    rcases mem_relate.1 hk with ⟨-, p, -, rfl⟩ | ⟨-, rfl⟩
    · exact (hm.set hu _).set hx _
    · exact (hm.set hx _).set hu _
  default m k hk := by
    rcases mem_relate.1 hk with ⟨-, p, -, rfl⟩ | ⟨-, rfl⟩ <;> rw [VarMap.default_set, VarMap.default_set]
  mono m n hmn k hk hlive := by
    have hget := (le_def.1 hmn).2
    by_cases hn : n.get x = .top ∧ n.get u = .top
    · rcases mem_relate.1 hk with ⟨-, p, hp, rfl⟩ | ⟨hm, -⟩
      · refine ⟨_, mem_relate.2 (.inl ⟨hn, p, hp, rfl⟩), ?_⟩
        exact set_mono (set_mono hmn (Parity.le_refl _) u) (Parity.le_refl _) x
      · exact exists_relate_of_known hux hmn hm hn hk hlive
    · have hm : ¬ (m.get x = .top ∧ m.get u = .top) := fun h => hn ⟨top_of_le (h.1 ▸ hget x), top_of_le (h.2 ▸ hget u)⟩
      rcases mem_relate.1 hk with ⟨h, -⟩ | ⟨-, rfl⟩
      · exact absurd h hm
      · have hp := Parity.meet_mono (hget x) (Parity.shift_mono (hget u) value.offset)
        exact ⟨_, mem_relate.2 (.inr ⟨hn, rfl⟩), set_mono (set_mono hmn hp x) (Parity.shift_mono hp _) u⟩
  step m s t hstep hm := by
    obtain ⟨⟨i, hi, hxi⟩, rfl⟩ := Statement.step_assume hstep
    have hsum : t x = t u + value.offset := hxi.trans ((Value.yields_of_reads hreads).1 hi)
    by_cases h : m.get x = .top ∧ m.get u = .top
    · refine ⟨_, mem_relate.2 (.inl ⟨h, Parity.of (t u), of_mem _, rfl⟩), ?_⟩
      refine contains_set_same (contains_set_same hm (Parity.contains_of _)) ?_
      rw [hsum]
      exact Parity.contains_shift.2 (Parity.contains_of _)
    · refine ⟨_, mem_relate.2 (.inr ⟨h, rfl⟩), ?_⟩
      have hp : ((m.get x).meet ((m.get u).shift value.offset)).Contains (t x) :=
        Parity.contains_meet.2 ⟨hm x, hsum ▸ Parity.contains_shift.2 (hm u)⟩
      exact contains_set_same (contains_set_same hm hp) (contains_shift_back (hsum ▸ hp))

end ParityMap

namespace ParityState

variable {names : List String} {d e : ParityState} {s t : Store}

/-- A statement that hands a state on as it is, and a store too. -/
structure Passes (statement : Statement) : Prop where
  transfer : ∀ d : ParityState, d.transfer statement = d
  step : ∀ s t, statement.Step s t → t = s

/-- A statement that nothing comes through. -/
structure Blocks (statement : Statement) : Prop where
  transfer : ∀ d : ParityState, d.transfer statement = .bottom
  step : ∀ s t, ¬ statement.Step s t

theorem passes_assume {c : Condition} (h : ∀ d : ParityState, d.assume c = d) : Passes (.assume c) :=
  ⟨h, fun _ _ hstep => (Statement.step_assume hstep).2⟩

theorem blocks_assume {c : Condition} (h : ∀ d : ParityState, d.assume c = .bottom) (hc : ∀ s, ¬ c.Admits s) :
    Blocks (.assume c) := ⟨h, fun s _ hstep => hc s (Statement.step_assume hstep).1⟩

theorem assume_equal {x u : String} {value : Value} (h : value.reads = some u) (d : ParityState) :
    d.assume (.equal x value) = d.assumeCopy x u value.offset := by
  cases value <;> cases h <;> rfl

/-- What a statement does to a state: it passes it on, blocks it, or replaces its alternatives. -/
theorem transfer_cases {statement : Statement} (h : ∀ x ∈ statement.mentions, x ∈ names) :
    Passes statement ∨ Blocks statement ∨
      ∃ f, Alternatives names statement f ∧ ∀ d : ParityState, d.transfer statement = d.mapDisjuncts f := by
  cases statement with
  | skip => exact .inl ⟨fun _ => rfl, fun s t hstep => by cases hstep; rfl⟩
  | assert a => exact .inl ⟨fun _ => rfl, fun s t hstep => by cases hstep; rfl⟩
  | assign x value =>
    exact .inr (.inr ⟨_, ParityMap.alternatives_assign (h x List.mem_cons_self) (Value.reads_mem h), fun _ => rfl⟩)
  | assume c =>
    cases c with
    | always => exact .inl (passes_assume fun _ => rfl)
    | never => exact .inr (.inl (blocks_assume (fun _ => rfl) fun _ => id))
    | unequal x value =>
      by_cases hself : value.reads = some x ∧ value.offset = 0
      · refine .inr (.inl (blocks_assume (fun d => by rw [assume, if_pos hself]) ?_))
        rintro s ⟨i, hi, hne⟩
        rw [Value.yields_of_reads hself.1, hself.2, add_zero] at hi
        exact hne hi.symm
      · exact .inl (passes_assume fun d => by rw [assume, if_neg hself])
    | equal x value =>
      cases hreads : value.reads with
      | none =>
        cases value with
        | unknown => exact .inl (passes_assume fun _ => rfl)
        | const c => exact .inr (.inr ⟨_, ParityMap.alternatives_restrict (h x List.mem_cons_self) c, fun _ => rfl⟩)
        | var u => cases hreads
        | plus u c => cases hreads
        | minus u c => cases hreads
      | some u =>
        have hassume := fun d => assume_equal (x := x) hreads d
        by_cases hux : u = x
        · by_cases hzero : value.offset = 0
          · exact .inl (passes_assume fun d => by rw [hassume, assumeCopy, if_pos hux, if_pos hzero])
          · refine .inr (.inl (blocks_assume (fun d => by rw [hassume, assumeCopy, if_pos hux, if_neg hzero]) ?_))
            rintro s ⟨i, hi, heq⟩
            rw [Value.yields_of_reads hreads, hux] at hi
            omega
        · have halternatives := ParityMap.alternatives_relate (h x List.mem_cons_self) (Value.reads_mem h u hreads) hux hreads
          refine .inr (.inr ⟨_, halternatives, fun d => ?_⟩)
          rw [transfer, hassume, assumeCopy, if_neg hux]

/-! ## States under a statement -/

section Alternatives

variable {statement : Statement} {f : ParityMap → List ParityMap}

theorem mapDisjuncts_proper (hf : Alternatives names statement f) (hd : d.Proper names) :
    Proper names (d.mapDisjuncts f) := by
  intro m hm
  rw [mapDisjuncts_eq] at hm
  obtain ⟨hmem, hlive⟩ := mem_of_mem_reduce hm
  obtain ⟨k, hk, hmk⟩ := List.mem_flatMap.1 hmem
  exact (hf.confined k (hd k hk).toConfined m hmk).proper hlive

theorem covered_flatMap (hf : Alternatives names statement f) (h : d.Covered e) :
    ∀ m ∈ d.expand.flatMap f, m.hasBottom = false → ∃ k ∈ e.expand.flatMap f, m ≤ k := by
  intro m hm hlive
  obtain ⟨k, hk, hmk⟩ := List.mem_flatMap.1 hm
  obtain ⟨k', hk', hle⟩ := h k hk
  obtain ⟨l, hl, hml⟩ := hf.mono k k' hle m hmk hlive
  exact ⟨l, List.mem_flatMap.2 ⟨k', hk', hl⟩, hml⟩

theorem mapDisjuncts_covered (hf : Alternatives names statement f) (h : d.Covered e) :
    Covered (d.mapDisjuncts f) (e.mapDisjuncts f) := by
  intro m hm
  rw [mapDisjuncts_eq] at hm ⊢
  obtain ⟨hmem, hlive⟩ := mem_of_mem_reduce hm
  obtain ⟨l, hl, hml⟩ := covered_flatMap hf h m hmem hlive
  obtain ⟨k, hk, hlk⟩ := covered_reduce hl (ParityMap.hasBottom_of_le hml hlive)
  exact ⟨k, hk, hml.trans hlk⟩

theorem mapDisjuncts_contains (hf : Alternatives names statement f) (hd : d.Live) (hstep : statement.Step s t)
    (h : d.Contains s) : Contains (d.mapDisjuncts f) t := by
  obtain ⟨m, hm, hms⟩ := h
  obtain ⟨k, hk, hkt⟩ := hf.step m s t hstep hms
  have hdefault : k.default ≠ .bottom := by
    rw [hf.default m k hk]
    exact (ParityMap.hasBottom_eq_false.1 (hd m hm)).1
  obtain ⟨l, hl, hkl⟩ :=
    covered_reduce (List.mem_flatMap.2 ⟨m, hm, hk⟩) (ParityMap.hasBottom_of_contains hdefault hkt)
  rw [mapDisjuncts_eq]
  exact ⟨l, hl, ParityMap.contains_mono hkl hkt⟩

end Alternatives

variable {statement : Statement} (hst : ∀ x ∈ statement.mentions, x ∈ names)

include hst

theorem transfer_proper (hd : d.Proper names) : Proper names (d.transfer statement) := by
  rcases transfer_cases hst with hp | hb | ⟨f, hf, htransfer⟩
  · rwa [hp.transfer]
  · rw [hb.transfer]
    exact nofun
  · rw [htransfer]
    exact mapDisjuncts_proper hf hd

/-- More alternatives before a statement give more alternatives after it. -/
theorem transfer_covered (h : d.Covered e) : Covered (d.transfer statement) (e.transfer statement) := by
  rcases transfer_cases hst with hp | hb | ⟨f, hf, htransfer⟩
  · rwa [hp.transfer, hp.transfer]
  · rw [hb.transfer, hb.transfer]
    exact Covered.refl _
  · rw [htransfer, htransfer]
    exact mapDisjuncts_covered hf h

/-- What a statement makes of a state depends on nothing but what the state covers, unless it hands the
state on. -/
theorem transfer_congr (hnot : ¬ Passes statement) (hde : d.Covered e) (hed : e.Covered d) :
    d.transfer statement = e.transfer statement := by
  rcases transfer_cases hst with hp | hb | ⟨f, hf, htransfer⟩
  · exact absurd hp hnot
  · rw [hb.transfer, hb.transfer]
  · rw [htransfer, htransfer, mapDisjuncts_eq, mapDisjuncts_eq]
    exact reduce_congr (covered_flatMap hf hde) (covered_flatMap hf hed)

theorem transfer_live (hd : d.Live) : Live (d.transfer statement) := by
  rcases transfer_cases hst with hp | hb | ⟨f, -, htransfer⟩
  · rwa [hp.transfer]
  · rw [hb.transfer]
    exact nofun
  · rw [htransfer, mapDisjuncts_eq]
    exact fun m hm => (mem_of_mem_reduce hm).2

theorem transfer_contains (hd : d.Live) (hstep : statement.Step s t) (h : d.Contains s) :
    Contains (d.transfer statement) t := by
  rcases transfer_cases hst with hp | hb | ⟨f, hf, htransfer⟩
  · rw [hp.transfer, hp.step s t hstep]
    exact h
  · exact absurd hstep (hb.step s t)
  · rw [htransfer]
    exact mapDisjuncts_contains hf hd hstep h

end ParityState

/-! ## Assertions -/

theorem ParityMap.contains_restrict {m : ParityMap} {s : Store} {x : String} {p : Parity} :
    ParityMap.Contains (m.set x ((m.get x).meet p)) s ↔ m.Contains s ∧ p.Contains (s x) := by
  rw [contains_set_iff, Parity.contains_meet]
  constructor
  · rintro ⟨⟨hx, hp⟩, hrest⟩
    refine ⟨fun y => ?_, hp⟩
    by_cases hy : y = x
    · exact hy ▸ hx
    · exact hrest y hy
  · rintro ⟨hm, hp⟩
    exact ⟨⟨hm x, hp⟩, fun y _ => hm y⟩

/-- The map of a clause contains the stores in which its parity atoms hold. -/
theorem ParityMap.contains_ofClause {c : Clause} {s : Store} :
    (ParityMap.ofClause c).Contains s ↔ ∀ atom ∈ c, atom.isParity → atom.Holds s := by
  have hfold : ∀ (c : Clause) (m : ParityMap), ParityMap.Contains (c.foldl withAtom m) s ↔
      m.Contains s ∧ ∀ atom ∈ c, atom.isParity → atom.Holds s := by
    intro c
    induction c with
    | nil => simp
    | cons atom rest ih =>
      intro m
      rw [List.foldl_cons, ih, List.forall_mem_cons]
      cases atom with
      | even x => simp [withAtom, contains_restrict, Atom.isParity, Atom.isSum, Atom.Holds, Parity.Contains, and_assoc]
      | odd x => simp [withAtom, contains_restrict, Atom.isParity, Atom.isSum, Atom.Holds, Parity.Contains, and_assoc]
      | sum l r => simp [withAtom, Atom.isParity, Atom.isSum]
  have htop : ParityMap.Contains (VarMap.uniform .top) s := fun _ => trivial
  exact (hfold c _).trans (and_iff_right htop)

namespace ParityState

variable {d : ParityState} {s : Store}

theorem contains_of_satisfies {facts : List ParityMap} (h : d.satisfies facts = true) (hd : d.Contains s) :
    ∃ fact ∈ facts, ParityMap.Contains fact s := by
  obtain ⟨m, hm, hs⟩ := hd
  obtain ⟨fact, hfact, hle⟩ := List.any_eq_true.1 (List.all_eq_true.1 h m hm)
  exact ⟨fact, hfact, ParityMap.contains_mono hle hs⟩

theorem isBottom_of_contains (h : d.Contains s) : d.isBottom = false := by
  obtain ⟨m, hm, -⟩ := h
  cases d with
  | bottom => cases hm
  | top => rfl
  | any _ => rfl

/-- An assertion that the parity analysis calls proved holds in every store of the state. -/
theorem holds_of_check {a : Assertion} (h : d.check a = .proved) (hd : d.Contains s) : a.Holds s := by
  unfold check at h
  rw [isBottom_of_contains hd, if_neg Bool.false_ne_true] at h
  split at h
  · cases h
  · next hsum =>
    have hsat : d.satisfies (a.clauses.map ParityMap.ofClause) = true := by
      by_contra hn
      rw [Bool.eq_false_iff.2 hn] at h
      cases h
    obtain ⟨fact, hfact, hcontains⟩ := contains_of_satisfies hsat hd
    obtain ⟨c, hc, rfl⟩ := List.mem_map.1 hfact
    refine ⟨c, hc, fun atom hatom => ParityMap.contains_ofClause.1 hcontains atom hatom ?_⟩
    -- The assertion has no sum atoms, or the check would not have answered.
    by_contra hpar
    exact hsum (List.any_eq_true.2 ⟨atom, List.mem_flatten.2 ⟨c, hc, hatom⟩, by simpa [Atom.isParity] using hpar⟩)

end ParityState

end FlowFacts
