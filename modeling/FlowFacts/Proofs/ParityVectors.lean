import Mathlib
import FlowFacts.Proofs.FixedPoints

/-!
# Parity states are exact

What a statement makes of a parity state contains no store but those that the statement can lead to, up
to their parities: `ParityState.exists_step_of_transfer`. Nothing is lost by splitting a map, by meeting
parities or by dropping maps below others, so the vectors of parities after a statement are exactly those
of its executions (`ParityState.transfer_exact`). Nothing is added by a merge either, which only lists the
alternatives of both sides. So a run that has converged knows at every node exactly which vectors of
parities can come there (`parityAnalysis_exact`).
-/

namespace FlowFacts

/-! ## Stores with the same parities -/

/-- All variables have the same parities. -/
def Store.Alike (s t : Store) : Prop := ∀ x, s x % 2 = t x % 2

theorem Store.Alike.refl (s : Store) : s.Alike s := fun _ => rfl

theorem Store.Alike.symm {s t : Store} (h : s.Alike t) : t.Alike s := fun x => (h x).symm

theorem Store.set_set (s : Store) (x : String) (m n : Int) : (s.set x m).set x n = s.set x n := by
  funext y
  by_cases hy : y = x
  · rw [hy, set_self, set_self]
  · rw [set_of_ne _ _ hy, set_of_ne _ _ hy, set_of_ne _ _ hy]

theorem Store.alike_set {s : Store} {x : String} {n : Int} (h : n % 2 = s x % 2) : (s.set x n).Alike s := by
  intro y
  by_cases hy : y = x
  · rw [hy, Store.set_self, h]
  · rw [Store.set_of_ne s n hy]

namespace Parity

variable {p : Parity} {m n k : Int}

theorem contains_of_mod (h : m % 2 = n % 2) (hp : p.Contains m) : p.Contains n := by
  cases p with
  | bottom => exact hp
  | even => exact h.symm.trans hp
  | odd => exact h.symm.trans hp
  | top => trivial

theorem exists_contains (h : p ≠ .bottom) : ∃ n, p.Contains n := by
  cases p with
  | bottom => exact absurd rfl h
  | even => exact ⟨0, rfl⟩
  | odd => exact ⟨1, rfl⟩
  | top => exact ⟨0, trivial⟩

/-- Numbers that are both even or both odd. -/
theorem mod_eq_of_contains (hp : p ∈ [Parity.even, .odd]) (hm : p.Contains m) (hn : p.Contains n) : m % 2 = n % 2 := by
  rcases List.mem_pair.1 hp with rfl | rfl
  · exact Eq.trans hm (Eq.symm hn)
  · exact Eq.trans hm (Eq.symm hn)

/-- If two numbers have a known parity and the same one shifted, their difference is even or odd as the
shift is. -/
theorem mod_eq_of_shift (hp : p ∈ [Parity.even, .odd]) (hm : p.Contains m) (hn : (p.shift k).Contains n) :
    (m + k) % 2 = n % 2 := by
  refine mod_eq_of_contains ?_ (contains_shift.2 hm) hn
  unfold shift
  rcases List.mem_pair.1 hp with rfl | rfl <;> split <;> decide

end Parity

theorem ParityMap.Contains.of_alike {m : ParityMap} {s t : Store} (h : m.Contains s) (hst : s.Alike t) : m.Contains t :=
  fun x => Parity.contains_of_mod (hst x) (h x)

/-! ## Maps under a statement -/

/-- Every store of an alternative comes from a store of the map by the statement, up to parities. -/
def Traceable (statement : Statement) (f : ParityMap → List ParityMap) : Prop :=
  ∀ m : ParityMap, (∀ x, m.get x ≠ .bottom) → ∀ k ∈ f m, ∀ t, k.Contains t →
    ∃ s t', statement.Step s t' ∧ m.Contains s ∧ t'.Alike t

namespace ParityMap

variable {m k : ParityMap} {x u : String} {t : Store}

/-- A store that fits a map but for one variable fits it with another value of that variable. -/
theorem contains_store_set {i : Int} (hx : (m.get x).Contains i) (h : ∀ y, y ≠ x → (m.get y).Contains (t y)) :
    m.Contains (t.set x i) := by
  intro y
  by_cases hy : y = x
  · rwa [hy, Store.set_self]
  · rw [Store.set_of_ne _ _ hy]
    exact h y hy

/-- After `x := u + j` the two variables have parities that belong together, and the others are left as
they were. -/
theorem of_mem_copy (hux : u ≠ x) (hlive : ∀ y, m.get y ≠ .bottom) {j : Int} (hk : k ∈ m.copy x u j)
    (ht : k.Contains t) : (t u + j) % 2 = t x % 2 ∧ ∀ y, y ≠ x → (m.get y).Contains (t y) := by
  rcases mem_copy.1 hk with ⟨hknown, rfl⟩ | ⟨hunknown, p, hp, rfl⟩
  · obtain ⟨hx, hrest⟩ := contains_set_iff.1 ht
    exact ⟨Parity.mod_eq_of_shift (even_or_odd (hlive u) (hknown.resolve_left hux)) (hrest u hux) hx, hrest⟩
  · obtain ⟨hx, hrest⟩ := contains_set_iff.1 ht
    have hu := hrest u hux
    rw [VarMap.get_set_self] at hu
    refine ⟨Parity.mod_eq_of_shift hp hu hx, fun y hy => ?_⟩
    by_cases hyu : y = u
    · rw [hyu, not_not.1 fun h => hunknown (.inr h)]
      trivial
    · simpa only [VarMap.get_set_of_ne _ _ hyu] using hrest y hy

theorem traceable_copy {value : Value} (hreads : value.reads = some u) :
    Traceable (.assign x value) (copy x u value.offset) := by
  intro m hlive k hk t ht
  by_cases hux : u = x
  · -- The value before is the one after, less what was added.
    subst hux
    obtain rfl : k = m.set u ((m.get u).shift value.offset) := by
      rcases mem_copy.1 hk with ⟨-, h⟩ | ⟨h, -⟩
      · exact h
      · exact absurd (.inl rfl) h
    obtain ⟨hu, hrest⟩ := contains_set_iff.1 ht
    refine ⟨t.set u (t u - value.offset), _, .assign u ((Value.yields_of_reads hreads).2 rfl),
      contains_store_set ?_ hrest, ?_⟩
    · rwa [← Parity.contains_shift (k := value.offset), sub_add_cancel]
    · rw [Store.set_set, Store.set_self, sub_add_cancel]
      exact Store.alike_set rfl
  · obtain ⟨hmod, hrest⟩ := of_mem_copy hux hlive hk ht
    obtain ⟨i, hi⟩ := Parity.exists_contains (hlive x)
    refine ⟨t.set x i, _, .assign x ((Value.yields_of_reads hreads).2 rfl), contains_store_set hi hrest, ?_⟩
    rw [Store.set_set, Store.set_of_ne _ _ hux]
    exact Store.alike_set hmod

/-- A value that does not depend on the store may be any number of the parity that is assigned. -/
theorem traceable_set {value : Value} {p : Parity}
    (hyields : ∀ i, p.Contains i → ∃ j, j % 2 = i % 2 ∧ ∀ s, value.Yields s j) :
    Traceable (.assign x value) fun m => [m.set x p] := by
  intro m hlive k hk t ht
  obtain rfl := List.mem_singleton.1 hk
  obtain ⟨hx, hrest⟩ := contains_set_iff.1 ht
  obtain ⟨j, hmod, hj⟩ := hyields _ hx
  obtain ⟨i, hi⟩ := Parity.exists_contains (hlive x)
  refine ⟨t.set x i, _, .assign x (hj _), contains_store_set hi hrest, ?_⟩
  rw [Store.set_set]
  exact Store.alike_set hmod

theorem traceable_assign (x : String) (value : Value) : Traceable (.assign x value) (assign x value) := by
  cases value with
  | const c =>
    refine traceable_set fun i hi => ⟨c, ?_, fun _ => rfl⟩
    exact Parity.mod_eq_of_contains (of_mem c) (Parity.contains_of c) hi
  | unknown => exact traceable_set fun i _ => ⟨i, rfl, fun _ => trivial⟩
  | var u => exact traceable_copy rfl
  | plus u c => exact traceable_copy rfl
  | minus u c => exact traceable_copy rfl

theorem traceable_restrict (x : String) (c : Int) : Traceable (.assume (.equal x (.const c))) (restrict x (.of c)) := by
  intro m _ k hk t ht
  obtain rfl := List.mem_singleton.1 hk
  obtain ⟨hm, hx⟩ := contains_restrict.1 ht
  have halike : (t.set x c).Alike t :=
    Store.alike_set (Parity.mod_eq_of_contains (of_mem c) (Parity.contains_of c) hx)
  exact ⟨_, _, .assume ⟨c, rfl, Store.set_self t x c⟩, hm.of_alike halike.symm, halike⟩

/-- Where `x = u + j` is assumed the two variables have parities that belong together, and nothing else
has changed. -/
theorem of_mem_relate (hux : u ≠ x) {j : Int} (hk : k ∈ m.relate x u j) (ht : k.Contains t) :
    (t u + j) % 2 = t x % 2 ∧ m.Contains t := by
  rcases mem_relate.1 hk with ⟨⟨hxtop, hutop⟩, p, hp, rfl⟩ | ⟨hknown, rfl⟩
  · obtain ⟨hx, hrest⟩ := contains_set_iff.1 ht
    have hu := hrest u hux
    rw [VarMap.get_set_self] at hu
    refine ⟨Parity.mod_eq_of_shift hp hu hx, fun y => ?_⟩
    by_cases hyx : y = x
    · rw [hyx, hxtop]
      trivial
    · by_cases hyu : y = u
      · rw [hyu, hutop]
        trivial
      · simpa only [VarMap.get_set_of_ne _ _ hyu] using hrest y hyx
  · set p := (m.get x).meet ((m.get u).shift j) with hp
    obtain ⟨hu, hrest⟩ := contains_set_iff.1 ht
    have hx := hrest x hux.symm
    rw [VarMap.get_set_self] at hx
    have hmem := even_or_odd (Parity.ne_bottom_of_contains hx) (meet_shift_ne_top hknown)
    have hmod : (t u + j) % 2 = t x % 2 := by
      have := Parity.mod_eq_of_shift hmem hx hu
      omega
    obtain ⟨hmx, hmu⟩ := Parity.contains_meet.1 (hp ▸ hx)
    refine ⟨hmod, fun y => ?_⟩
    by_cases hyu : y = u
    · exact hyu ▸ Parity.contains_shift.1 (Parity.contains_of_mod hmod.symm hmu)
    · by_cases hyx : y = x
      · exact hyx ▸ hmx
      · simpa only [VarMap.get_set_of_ne _ _ hyx] using hrest y hyu

theorem traceable_relate (hux : u ≠ x) {value : Value} (hreads : value.reads = some u) :
    Traceable (.assume (.equal x value)) (relate x u value.offset) := by
  intro m _ k hk t ht
  obtain ⟨hmod, hm⟩ := of_mem_relate hux hk ht
  have halike : (t.set x (t u + value.offset)).Alike t := Store.alike_set hmod
  refine ⟨_, _, .assume ⟨_, (Value.yields_of_reads hreads).2 rfl, ?_⟩, hm.of_alike halike.symm, halike⟩
  rw [Store.set_self, Store.set_of_ne _ _ hux]

end ParityMap

/-! ## States under a statement -/

/-- Two numbers of each parity are enough to avoid a value, unless it is that of the variable itself. -/
theorem exists_unequal {x : String} {value : Value} (h : ¬ (value.reads = some x ∧ value.offset = 0)) (t : Store) :
    ∃ s : Store, s.Alike t ∧ (Condition.unequal x value).Admits s := by
  have hstep : (t.set x (t x + 2)).Alike t := Store.alike_set (by omega)
  have hself : t.set x (t x + 2) x = t x + 2 := Store.set_self _ _ _
  cases hreads : value.reads with
  | none =>
    obtain ⟨c, hc⟩ : ∃ c, ∀ s, value.Yields s c := by
      cases value with
      | const c => exact ⟨c, fun _ => rfl⟩
      | unknown => exact ⟨0, fun _ => trivial⟩
      | var u => cases hreads
      | plus u c => cases hreads
      | minus u c => cases hreads
    by_cases heq : t x = c
    · exact ⟨_, hstep, c, hc _, by omega⟩
    · exact ⟨t, .refl t, c, hc _, heq⟩
  | some u =>
    by_cases heq : t x = t u + value.offset
    · have hux : u ≠ x := by
        rintro rfl
        exact h ⟨hreads, by omega⟩
      refine ⟨_, hstep, _, (Value.yields_of_reads hreads).2 rfl, ?_⟩
      rw [Store.set_of_ne _ _ hux]
      omega
    · exact ⟨t, .refl t, _, (Value.yields_of_reads hreads).2 rfl, heq⟩

namespace ParityState

variable {d : ParityState} {t : Store}

theorem exists_step_of_mapDisjuncts {statement : Statement} {f : ParityMap → List ParityMap}
    (hf : Traceable statement f) (hlive : ∀ m ∈ d.expand, ∀ x, m.get x ≠ .bottom) (h : Contains (d.mapDisjuncts f) t) :
    ∃ s t', statement.Step s t' ∧ d.Contains s ∧ t'.Alike t := by
  obtain ⟨k, hk, ht⟩ := h
  rw [mapDisjuncts_eq] at hk
  obtain ⟨m, hm, hkm⟩ := List.mem_flatMap.1 (mem_of_mem_reduce hk).1
  obtain ⟨s, t', hstep, hs, halike⟩ := hf m (hlive m hm) k hkm t ht
  exact ⟨s, t', hstep, ⟨m, hm, hs⟩, halike⟩

theorem contains_of_alike {s : Store} (h : d.Contains s) (hst : s.Alike t) : d.Contains t := by
  obtain ⟨m, hm, hs⟩ := h
  exact ⟨m, hm, hs.of_alike hst⟩

theorem not_contains_bottom : ¬ Contains .bottom t := by
  rintro ⟨m, hm, -⟩
  cases hm

theorem exists_step_of_assume (hlive : ∀ m ∈ d.expand, ∀ x, m.get x ≠ .bottom) {c : Condition}
    (h : Contains (d.assume c) t) : ∃ s t', (Statement.assume c).Step s t' ∧ d.Contains s ∧ t'.Alike t := by
  cases c with
  | always => exact ⟨t, t, .assume trivial, h, .refl t⟩
  | never => exact absurd h not_contains_bottom
  | unequal x value =>
    rw [assume] at h
    split at h
    · exact absurd h not_contains_bottom
    · next hself =>
      obtain ⟨s, halike, hs⟩ := exists_unequal hself t
      exact ⟨s, s, .assume hs, contains_of_alike h halike.symm, halike⟩
  | equal x value =>
    cases hreads : value.reads with
    | none =>
      cases value with
      | unknown => exact ⟨t, t, .assume ⟨t x, trivial, rfl⟩, h, .refl t⟩
      | const c => exact exists_step_of_mapDisjuncts (ParityMap.traceable_restrict x c) hlive h
      | var u => cases hreads
      | plus u c => cases hreads
      | minus u c => cases hreads
    | some u =>
      rw [assume_equal hreads, assumeCopy] at h
      by_cases hux : u = x
      · rw [if_pos hux] at h
        split at h
        · next hzero =>
          refine ⟨t, t, .assume ⟨_, (Value.yields_of_reads hreads).2 rfl, ?_⟩, h, .refl t⟩
          rw [hux, hzero, add_zero]
        · exact absurd h not_contains_bottom
      · rw [if_neg hux] at h
        exact exists_step_of_mapDisjuncts (ParityMap.traceable_relate hux hreads) hlive h

/-- Every store of the state after a statement comes from a store of the state before it by the
statement, up to parities. -/
theorem exists_step_of_transfer (hlive : ∀ m ∈ d.expand, ∀ x, m.get x ≠ .bottom) {statement : Statement}
    (h : Contains (d.transfer statement) t) : ∃ s t', statement.Step s t' ∧ d.Contains s ∧ t'.Alike t := by
  cases statement with
  | skip => exact ⟨t, t, .skip t, h, .refl t⟩
  | assert a => exact ⟨t, t, .assert a t, h, .refl t⟩
  | assign x value => exact exists_step_of_mapDisjuncts (ParityMap.traceable_assign x value) hlive h
  | assume c => exact exists_step_of_assume hlive h

end ParityState

/-! ## Vectors of parities -/

/-- The parities of all variables in a store. -/
def Store.parity (s : Store) : String → ZMod 2 := fun x => s x

theorem Store.Alike.parity_eq {s t : Store} (h : s.Alike t) : s.parity = t.parity :=
  funext fun x => (ZMod.intCast_eq_intCast_iff' (s x) (t x) 2).2 (h x)

/-- A store with given parities. -/
theorem Store.exists_parity (v : String → ZMod 2) : ∃ s : Store, s.parity = v :=
  ⟨fun x => (v x).val, funext fun x => by simp [Store.parity]⟩

/-- A parity for each of some variables. -/
abbrev ParityVector (names : List String) := {x // x ∈ names} → ZMod 2

/-- The parities of the variables in a store. -/
def Store.parities (names : List String) (s : Store) : ParityVector names := fun x => s x

theorem Store.Alike.parities_eq {s t : Store} (h : s.Alike t) (names : List String) :
    s.parities names = t.parities names :=
  funext fun x => congrFun h.parity_eq x

theorem exists_parities {names : List String} (v : ParityVector names) : ∃ s : Store, s.parities names = v := by
  obtain ⟨s, hs⟩ := Store.exists_parity fun x => if h : x ∈ names then v ⟨x, h⟩ else 0
  exact ⟨s, funext fun x => (congrFun hs x).trans (dif_pos x.2)⟩

/-- What a parity says of a number modulo two. -/
def Parity.Allows : Parity → ZMod 2 → Prop
  | bottom, _ => False
  | even, b => b = 0
  | odd, b => b = 1
  | top, _ => True

theorem Parity.allows_intCast {p : Parity} {n : Int} : p.Allows n ↔ p.Contains n := by
  cases p with
  | bottom => exact Iff.rfl
  | even => exact ZMod.intCast_eq_intCast_iff' n 0 2
  | odd => exact ZMod.intCast_eq_intCast_iff' n 1 2
  | top => exact Iff.rfl

/-- Some alternative allows the parity of each variable. -/
def ParityState.Admits {names : List String} (d : ParityState) (v : ParityVector names) : Prop :=
  ∃ m ∈ d.expand, ∀ x : {x // x ∈ names}, (m.get x).Allows (v x)

/-- A state over some variables contains the stores whose parities it admits. -/
theorem ParityState.admits_parities {names : List String} {d : ParityState} (hd : d.Proper names) {s : Store} :
    d.Admits (s.parities names) ↔ d.Contains s := by
  refine exists_congr fun m => and_congr_right fun hm => ⟨fun h x => ?_, fun h x => Parity.allows_intCast.2 (h x)⟩
  by_cases hx : x ∈ names
  · exact Parity.allows_intCast.1 (h ⟨x, hx⟩)
  · rw [(hd m hm).other x hx]
    trivial

/-- The parities before and after a statement, in some execution of it. -/
def Statement.ParityStep {names : List String} (statement : Statement) (v w : ParityVector names) : Prop :=
  ∃ s t : Store, statement.Step s t ∧ s.parities names = v ∧ t.parities names = w

/-- One arc further, with vectors of parities that some execution of its statement has before and after. -/
def Graph.ParityArc (g : Graph) (p q : Nat × ParityVector g.names) : Prop :=
  ∃ arc ∈ g.arcs, arc.source = p.1 ∧ arc.target = q.1 ∧ arc.statement.ParityStep p.2 q.2

/-! ## Vectors under a statement -/

/-- A map allows the parity of every variable. -/
def ParityMap.Allows (m : ParityMap) (v : String → ZMod 2) : Prop := ∀ x, (m.get x).Allows (v x)

namespace ParityState

variable {d : ParityState}

/-- Some alternative allows the parity of every variable. -/
def Allows (d : ParityState) (v : String → ZMod 2) : Prop := ∃ m ∈ d.expand, m.Allows v

theorem allows_parity {s : Store} : d.Allows s.parity ↔ d.Contains s :=
  exists_congr fun _ => and_congr_right fun _ => forall_congr' fun _ => Parity.allows_intCast

/-- The vectors of parities after a statement are those of the stores that it leads to from stores with parities that
the state allows. They are again those of maps without a parity that no number has. -/
theorem transfer_exact (hd : d.Live) (statement : Statement) :
    (∀ v, Allows (d.transfer statement) v ↔ ∃ s t : Store, d.Allows s.parity ∧ statement.Step s t ∧ t.parity = v) ∧
      Live (d.transfer statement) := by
  refine ⟨fun v => ?_, transfer_live (fun _ hx => hx) hd⟩
  constructor
  · intro hv
    obtain ⟨t, rfl⟩ := Store.exists_parity v
    have hget : ∀ m ∈ d.expand, ∀ x, m.get x ≠ .bottom := fun m hm => (ParityMap.hasBottom_eq_false.1 (hd m hm)).2
    obtain ⟨s, t', hstep, hs, halike⟩ := exists_step_of_transfer hget (allows_parity.1 hv)
    exact ⟨s, t', allows_parity.2 hs, hstep, halike.parity_eq⟩
  · rintro ⟨s, t, hs, hstep, rfl⟩
    exact allows_parity.2 (transfer_contains (fun _ hx => hx) hd hstep (allows_parity.1 hs))

/-- Of `x` and `u` nothing is known, and all other variables are odd. -/
def othersOdd : ParityState := .any (.ofList [.ofEntries .odd [⟨"x", .top⟩, ⟨"u", .top⟩]])

/-- Where `x = u + 1` is assumed, one of the two is even and the other odd: `u` alone can be even, and not all
variables can be odd. -/
theorem transfer_exact_othersOdd : othersOdd.Live ∧
    (∃ s t : Store, othersOdd.Allows s.parity ∧ (Statement.assume (.equal "x" (.plus "u" 1))).Step s t ∧
      t.parity = fun x => if x = "u" then 0 else 1) ∧
    ¬ ∃ s t : Store, othersOdd.Allows s.parity ∧ (Statement.assume (.equal "x" (.plus "u" 1))).Step s t ∧
      t.parity = fun _ => 1 := by
  have hlive : othersOdd.Live := by
    unfold Live
    decide +kernel
  have hexpand : (othersOdd.transfer (.assume (.equal "x" (.plus "u" 1)))).expand =
      [(VarMap.uniform Parity.odd).set "u" .even, (VarMap.uniform Parity.odd).set "x" .even] := by
    decide +kernel
  obtain ⟨hexact, -⟩ := transfer_exact hlive (.assume (.equal "x" (.plus "u" 1)))
  refine ⟨hlive, (hexact _).1 ?_, fun hsteps => ?_⟩
  · refine ⟨(VarMap.uniform Parity.odd).set "u" .even, by simp [hexpand], fun x => ?_⟩
    by_cases hx : x = "u"
    · rw [hx, VarMap.get_set_self]
      exact if_pos rfl
    · rw [VarMap.get_set_of_ne _ _ hx]
      exact if_neg hx
  · obtain ⟨m, hm, hallows⟩ := (hexact _).2 hsteps
    rw [hexpand] at hm
    rcases List.mem_pair.1 hm with rfl | rfl
    · have hu := hallows "u"
      rw [VarMap.get_set_self] at hu
      exact one_ne_zero hu
    · have hx := hallows "x"
      rw [VarMap.get_set_self] at hx
      exact one_ne_zero hx

end ParityState

/-! ## Runs -/

section Runs

variable {g : Graph} {q : FixedPoint ParityState}

/-- What a run admits at a node can come there, however many rounds it has taken. -/
theorem reachable_of_admits (hg : g.Proper) {cap : Nat} (hq : Solver.solve g parityAnalysis cap = .ok q) (n : Nat)
    (v : ParityVector g.names) (hv : (Solver.known q.states n).Admits v) :
    ∃ start, Relation.ReflTransGen g.ParityArc (g.entry, start) (n, v) := by
  have F := parityAnalysis_framework hg
  refine (Solver.states_induction (Q := fun n d => d.Proper g.names ∧ ∀ v : ParityVector g.names, d.Admits v →
    ∃ start, Relation.ReflTransGen g.ParityArc (g.entry, start) (n, v)) hg (fun n => ⟨F.valid_bottom, ?_⟩)
    ⟨F.valid_initial, fun v _ => ⟨v, .refl⟩⟩ ?_ ?_ hq n).2 v hv
  · rintro v ⟨m, hm, -⟩
    cases hm
  · -- A merge lists the alternatives of both sides and no others.
    rintro n x y z ⟨hx, hreachx⟩ ⟨hy, hreachy⟩ hz
    obtain ⟨z', hz', hproper, -⟩ := F.join x y hx hy
    obtain rfl := Except.ok.inj (hz.symm.trans hz')
    obtain rfl := Except.ok.inj hz
    refine ⟨hproper, ?_⟩
    rintro v ⟨m, hm, hallows⟩
    rcases ParityState.mem_of_mem_join hm with hm | hm
    · exact hreachx v ⟨m, hm, hallows⟩
    · exact hreachy v ⟨m, hm, hallows⟩
  · rintro arc harc d e ⟨hd, hreach⟩ he
    obtain rfl := Except.ok.inj he
    have hproper := ParityState.transfer_proper (hg.mentions arc harc) hd
    refine ⟨hproper, fun v hv => ?_⟩
    obtain ⟨t, rfl⟩ := exists_parities v
    obtain ⟨s, t', hstep, hs, halike⟩ := ParityState.exists_step_of_transfer (fun m hm => (hd m hm).live)
      ((ParityState.admits_parities hproper).1 hv)
    obtain ⟨start, hpath⟩ := hreach _ ((ParityState.admits_parities hd).2 hs)
    exact ⟨start, hpath.tail ⟨arc, harc, rfl, rfl, s, t', hstep, rfl, halike.parities_eq g.names⟩⟩

/-- What can come to a node is admitted there by any solution. -/
theorem admits_of_reachable (hg : g.Proper) {y : Nat → ParityState}
    (hy : Solver.Solution g parityAnalysis (ParityState.Proper g.names) ParityState.Covered y)
    {start : ParityVector g.names} {stage : Nat × ParityVector g.names}
    (h : Relation.ReflTransGen g.ParityArc (g.entry, start) stage) : (y stage.1).Admits stage.2 := by
  induction h with
  | refl =>
    obtain ⟨s, rfl⟩ := exists_parities start
    refine (ParityState.admits_parities (hy.valid _ hg.entry_lt)).2 (hy.entry.contains ?_)
    exact ⟨_, List.mem_singleton.2 rfl, fun _ => trivial⟩
  | @tail before after _ hstep ih =>
    obtain ⟨n, v⟩ := before
    obtain ⟨n', w⟩ := after
    obtain ⟨arc, harc, rfl, rfl, s, t, hstep, rfl, rfl⟩ := hstep
    have hsource := hy.valid _ (hg.source_lt arc harc)
    have htransfer := ParityState.transfer_contains (hg.mentions arc harc) hsource.live hstep
      ((ParityState.admits_parities hsource).1 ih)
    refine (ParityState.admits_parities (hy.valid _ (hg.target_lt arc harc))).2 ?_
    exact (hy.arc arc harc _ rfl).contains htransfer

/-- A run of the parity analysis answers, and if it has converged a vector of parities is admitted at a
node exactly if it ends a path from the entry to the node on which each vector follows from the one before
by some execution of the statement in between. -/
theorem parityAnalysis_exact {p : Program} (hp : p.graph = .ok g) (cap : Nat) :
    ∃ q, Solver.solve g parityAnalysis cap = .ok q ∧ (q.converged = true → ∀ n < g.size, ∃ d, q.states[n]? = some d ∧
      ∀ v : ParityVector g.names,
        d.Admits v ↔ ∃ start, Relation.ReflTransGen g.ParityArc (g.entry, start) (n, v)) := by
  have hg := Program.proper_graph hp
  obtain ⟨q, hq, hlength, -, -, hsolution, -⟩ :=
    Solver.exists_solve_least (parityAnalysis_framework hg) hg (fun _ _ _ _ _ _ => ⟨_, rfl⟩) cap
  refine ⟨q, hq, fun hconv n hn => ⟨_, Solver.getElem?_eq_known (hlength ▸ hn), fun v => ?_⟩⟩
  constructor
  · exact reachable_of_admits hg hq n v
  · rintro ⟨start, hpath⟩
    exact admits_of_reachable hg (hsolution hconv) hpath

/-- Two variables that are counted up together can both be odd where the loop is left: the state says so,
hence some path leads there. -/
theorem parityAnalysis_exact_lockstep : Program.lockstep.graph = .ok .lockstep ∧ ∃ q d,
    Solver.solve .lockstep parityAnalysis 20 = .ok q ∧ q.converged = true ∧ q.states[5]? = some d ∧
      d.Admits (fun _ => 1 : ParityVector ["x", "y"]) ∧
      ∃ start, Relation.ReflTransGen Graph.lockstep.ParityArc (0, start) (5, fun _ => 1) := by
  have hrun : (Solver.solve .lockstep parityAnalysis 20).toOption.map (fun q => (q.converged,
      (Solver.known q.states 5).expand.any fun m => m.get "x" = .odd && m.get "y" = .odd)) = some (true, true) := by
    decide +kernel
  obtain ⟨q, hq, hexact⟩ := parityAnalysis_exact lockstep_graph 20
  rw [hq] at hrun
  obtain ⟨hconv, hany⟩ := Prod.mk.inj (Option.some.inj hrun)
  obtain ⟨d, hd, hadmits⟩ := hexact hconv 5 (by decide)
  have hodd : d.Admits (fun _ => 1 : ParityVector ["x", "y"]) := by
    rw [Solver.known, List.getD_eq_getElem?_getD, hd] at hany
    obtain ⟨m, hm, hxy⟩ := List.any_eq_true.1 hany
    simp only [Bool.and_eq_true, decide_eq_true_eq] at hxy
    refine ⟨m, hm, ?_⟩
    rintro ⟨x, hx⟩
    rcases List.mem_pair.1 hx with rfl | rfl
    · rw [hxy.1]
      rfl
    · rw [hxy.2]
      rfl
  exact ⟨lockstep_graph, q, d, hq, hconv, hd, hodd, (hadmits _).1 hodd⟩

end Runs

end FlowFacts
