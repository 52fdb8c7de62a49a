import Mathlib
import FlowFacts.Proofs.ProductRefinement

/-!
# The form of states

Runs keep their states in a form that makes comparing and printing them meaningful. Relations are
`Relations.Canonical`. Parities are `ParityState.Regular`: what is listed are maps that say something, of
variables of the program only, and nothing that no store satisfies.

The halves of the states of the product come up in runs of the two analyses alone (`produced_halves`), so
the five kinds come down to these two: `Kind.produced_regular`.
-/

namespace FlowFacts

/-! ## Parities -/

/-- A map that says of some variables, of the given ones only, that they are even or odd. -/
structure ParityMap.Regular (names : List String) (m : ParityMap) : Prop where
  default : m.default = .top
  nonempty : m.entries ≠ []
  value : ∀ e ∈ m.entries, e.value ≠ .top ∧ e.value ≠ .bottom
  name : ∀ e ∈ m.entries, e.name ∈ names

theorem ParityMap.Proper.regular {names : List String} {m : ParityMap} (h : m.Proper names)
    (hne : Domain.isTop m = false) : m.Regular names where
  default := h.default
  nonempty hnil := by
    have htop : Domain.isTop m = true := by
      rw [ParityMap.isTop_iff]
      exact VarMap.ext_get h.default fun x => by rw [VarMap.get, hnil, h.default]; rfl
    rw [htop] at hne
    cases hne
  value e he := ⟨h.default ▸ m.proper e he, VarMap.get_of_mem he ▸ h.live e.name⟩
  name e he := by
    by_contra hout
    have hget := h.other e.name hout
    rw [VarMap.get_of_mem he, ← h.default] at hget
    exact m.proper e he hget

namespace ParityState

variable {names : List String} {d e : ParityState}

/-- No alternative, no restriction, or at least one alternative, each of which is a restriction. -/
def Regular (names : List String) : ParityState → Prop
  | .bottom => True
  | .top => True
  | .any members => members.toList ≠ [] ∧ ∀ m ∈ members.toList, m.Regular names

theorem regular_ofDisjuncts {maps : List ParityMap} (h : ∀ m ∈ maps, m.Proper names) :
    Regular names (.ofDisjuncts maps) := by
  unfold Disjunction.ofDisjuncts
  split
  · trivial
  · next htop =>
    dsimp only
    split
    · trivial
    · next hempty =>
      refine ⟨fun hnil => hempty (List.isEmpty_iff.2 hnil), fun m hm => ?_⟩
      have hmem := (List.mem_filter.1 (SortedSet.mem_ofList.1 hm)).1
      exact (h m hmem).regular (Bool.eq_false_iff.2 (List.any_eq_false.1 (Bool.eq_false_iff.2 htop) m hmem))

theorem regular_join (hd : d.Regular names) (he : e.Regular names) : Regular names (Disjunction.join d e) := by
  cases d with
  | bottom => cases e <;> exact he
  | top => trivial
  | any a =>
    cases e with
    | bottom => exact hd
    | top => trivial
    | any b =>
      obtain ⟨m, hm⟩ := List.exists_mem_of_ne_nil _ hd.1
      refine ⟨List.ne_nil_of_mem (SortedSet.mem_union.2 (.inl hm)), fun k hk => ?_⟩
      exact (SortedSet.mem_union.1 hk).elim (hd.2 k) (he.2 k)

theorem regular_transfer {statement : Statement} (hst : ∀ x ∈ statement.mentions, x ∈ names) (hproper : d.Proper names)
    (hd : d.Regular names) : Regular names (d.transfer statement) := by
  rcases transfer_cases hst with hp | hb | ⟨f, hf, htransfer⟩
  · rwa [hp.transfer]
  · rw [hb.transfer]
    trivial
  · rw [htransfer, mapDisjuncts_eq, reduce_eq]
    refine regular_ofDisjuncts fun m hm => ?_
    obtain ⟨hmem, hlive⟩ := (mem_kept.1 hm).prop
    obtain ⟨k, hk, hmk⟩ := List.mem_flatMap.1 hmem
    exact (hf.confined k (hproper k hk).toConfined m hmk).proper hlive

theorem regular_of_produced {g : Graph} (hg : g.Proper) (h : Solver.Produced g parityAnalysis d) :
    d.Regular g.names := by
  induction h with
  | bottom => trivial
  | initial => trivial
  | @transfer arc d e harc hd he ih =>
    obtain rfl := Except.ok.inj he
    exact regular_transfer (hg.mentions arc harc) (hd.valid (parityAnalysis_framework hg)) ih
  | join _ _ hz ihx ihy =>
    obtain rfl := Except.ok.inj hz
    exact regular_join ihx ihy

end ParityState

/-! ## Kinds -/

section Kinds

variable {g : Graph}

/-- The halves of the states of the product come up in runs of the two analyses. -/
theorem produced_halves {f : Frame} {x : ProductState}
    (h : Solver.Produced g (productAnalysis f) x) :
    Solver.Produced g parityAnalysis x.1 ∧ Solver.Produced g (sumAnalysis f) x.2 := by
  induction h with
  | bottom => exact ⟨.bottom, .bottom⟩
  | initial => exact ⟨.initial, .initial⟩
  | transfer harc _ he ih =>
    simp only [productAnalysis, ProductState.transfer, bind, Except.bind, pure, Except.pure] at he
    split at he
    · cases he
    · next r hr =>
      obtain rfl := Except.ok.inj he
      exact ⟨.transfer harc ih.1 rfl, .transfer harc ih.2 hr⟩
  | join _ _ hz ihx ihy =>
    simp only [Domain.join, Product.join, bind, Except.bind, pure, Except.pure] at hz
    split at hz
    · cases hz
    · next r hr =>
      obtain rfl := Except.ok.inj hz
      exact ⟨.join ihx.1 ihy.1 rfl, .join ihx.2 ihy.2 hr⟩

/-- The form in which an analysis of a kind keeps its states. -/
def Kind.Regular (k : Kind) (names : List String) (state : k.State) : Prop :=
  match k, state with
  | .parity, d => ParityState.Regular names d
  | .product, (d, r) => ParityState.Regular names d ∧ Relations.Canonical names.length r
  | .sum, r | .lift, r | .homogeneousLift, r => Relations.Canonical names.length r

theorem Kind.exists_framework (hg : g.Proper) (k : Kind) :
    ∃ Valid le, Solver.Framework g (k.analysis g.names) Valid le := by
  cases k with
  | parity => exact ⟨_, _, parityAnalysis_framework hg⟩
  | sum => exact ⟨_, _, sumAnalysis_framework hg .affine⟩
  | product => exact ⟨_, _, productAnalysis_framework hg .affine⟩
  | lift => exact ⟨_, _, liftAnalysis_framework hg .affine⟩
  | homogeneousLift => exact ⟨_, _, liftAnalysis_framework hg .homogeneous⟩

theorem Kind.regular_of_produced (hg : g.Proper) {k : Kind} {d : k.State}
    (h : Solver.Produced g (k.analysis g.names) d) : k.Regular g.names d := by
  cases k with
  | parity => exact ParityState.regular_of_produced hg h
  | sum => exact Solver.Produced.valid (sumAnalysis_framework hg .affine) h
  | product =>
    obtain ⟨hparity, hsum⟩ := produced_halves h
    exact ⟨ParityState.regular_of_produced hg hparity, hsum.valid (sumAnalysis_framework hg .affine)⟩
  | lift => exact Solver.Produced.valid (liftAnalysis_framework hg .affine) h
  | homogeneousLift => exact Solver.Produced.valid (liftAnalysis_framework hg .homogeneous) h

/-- The work of a run of any kind ends with a state for each node, whatever the checks say then. Every state
that comes up on the way there, and so every one that is left, has the form of its kind. -/
theorem Kind.produced_regular {p : Program} (hp : p.graph = .ok g) (k : Kind) (cap : Nat) :
    ∃ halt, Solver.work g (k.analysis g.names) cap (Solver.start g (k.analysis g.names)) (List.range g.size) =
        .ok halt ∧ halt.states.length = g.size ∧
      (∀ q, Solver.solve g (k.analysis g.names) cap = .ok q → q.states = halt.states) ∧
      (∀ d ∈ halt.states, Solver.Produced g (k.analysis g.names) d) ∧
      ∀ d, Solver.Produced g (k.analysis g.names) d → k.Regular g.names d := by
  have hg := Program.proper_graph hp
  obtain ⟨Valid, le, F⟩ := Kind.exists_framework hg k
  obtain ⟨halt, hhalt, hlength, -⟩ := Solver.exists_work_least F hg cap
  refine ⟨halt, hhalt, hlength, fun q hq => ?_, Solver.produced_of_work hg hhalt, fun d => regular_of_produced hg⟩
  obtain ⟨halt', fs, hhalt', -, rfl⟩ := Solver.solve_eq_ok.1 hq
  rw [Except.ok.inj (hhalt'.symm.trans hhalt)]

/-- Where two variables are counted up together, the product lists an alternative in which both are even and
one in which both are odd, beside an equation. -/
theorem Kind.produced_regular_lockstep : Program.lockstep.graph = .ok .lockstep ∧ ∃ halt, ∃ s : ProductState,
    Solver.work .lockstep (productAnalysis ⟨["x", "y"], .affine⟩) 40
        (Solver.start .lockstep (productAnalysis ⟨["x", "y"], .affine⟩)) (List.range 7) = .ok halt ∧
      halt.states[5]? = some s ∧ s.1.expand.length = 2 ∧ s.2.isTop = false ∧
      s.1.Regular ["x", "y"] ∧ s.2.Canonical 2 := by
  have hrun : (Solver.work .lockstep (productAnalysis ⟨["x", "y"], .affine⟩) 40
      (Solver.start .lockstep (productAnalysis ⟨["x", "y"], .affine⟩)) (List.range 7)).toOption.bind
      (fun halt => halt.states[5]?.map fun s => (s.1.expand.length, s.2.isTop)) = some (2, false) := by
    decide +kernel
  obtain ⟨halt, hhalt, -, -, hproduced, hregular⟩ := Kind.produced_regular lockstep_graph .product 40
  change Solver.work .lockstep (productAnalysis ⟨["x", "y"], .affine⟩) 40
    (Solver.start .lockstep (productAnalysis ⟨["x", "y"], .affine⟩)) (List.range 7) = .ok halt at hhalt
  rw [hhalt] at hrun
  obtain ⟨s, hs, hvalues⟩ := Option.map_eq_some_iff.1 hrun
  obtain ⟨hexpand, htop⟩ := Prod.mk.inj hvalues
  obtain ⟨hparity, hsum⟩ := hregular s (hproduced s (List.mem_of_getElem? hs))
  exact ⟨lockstep_graph, halt, s, hhalt, hs, hexpand, htop, hparity, hsum⟩

end Kinds

end FlowFacts
