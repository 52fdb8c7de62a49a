import Mathlib
import FlowFacts.Proofs.LawfulDomains
import FlowFacts.Proofs.ParityVectors

/-!
# Domination among parity maps

One list of maps dominates another if each map of the other, as far as it describes stores, is below one
of its own; below is meant in the order by which the domain compares maps (`ParityMap.domain_le_iff`).
Reducing a list is the canonical form for this relation: two lists are reduced to the same state exactly
if they dominate each other (`ParityState.reduce_canonical`). What a statement makes of a state is
dominated by what it makes of a state that dominates it (`ParityState.transfer_monotone`).
-/

namespace FlowFacts

/-! ## The order of the domain -/

namespace ParityMap

variable {a b m : ParityMap}

/-- Maps are compared without a fault, and the order that is found is that of their values. -/
theorem domain_le_iff : Domain.le a b = .ok true ↔ a ≤ b := by
  obtain ⟨c, hc, hreports⟩ := (VarMap.lawful Parity.lawful).compare
    (x := a) (y := b) ⟨trivial, fun _ => trivial⟩ ⟨trivial, fun _ => trivial⟩
  simp only [Domain.le, hc, bind, Except.bind, pure, Except.pure, Except.ok.injEq]
  rw [hreports.le, le_def]
  exact ⟨fun h => ⟨h.default, h.get⟩, fun h => ⟨h.1, h.2⟩⟩

/-- There is a name of which a map says no more than its default. -/
theorem exists_get_eq_default (m : ParityMap) : ∃ x, m.get x = m.default := by
  obtain ⟨x, hx⟩ := Infinite.exists_notMem_finset (m.entries.map (·.name)).toFinset
  refine ⟨x, VarMap.get_of_not_mem fun e he hname => hx ?_⟩
  rw [List.mem_toFinset, ← hname]
  exact List.mem_map_of_mem he

/-- A map with a parity that no number has, if only as its default, allows no vector. -/
theorem hasBottom_of_allows {v : String → ZMod 2} (h : m.Allows v) : m.hasBottom = false := by
  have hget : ∀ x, m.get x ≠ .bottom := by
    intro x hx
    have hallows := h x
    rw [hx] at hallows
    exact hallows
  obtain ⟨x, hx⟩ := m.exists_get_eq_default
  exact hasBottom_eq_false.2 ⟨hx ▸ hget x, hget⟩

theorem allows_mono {v : String → ZMod 2} (hab : a ≤ b) (h : a.Allows v) : b.Allows v := by
  obtain ⟨s, rfl⟩ := Store.exists_parity v
  intro x
  exact Parity.allows_intCast.2 (Parity.contains_of_le ((le_def.1 hab).2 x) (Parity.allows_intCast.1 (h x)))

/-- Each map that describes stores is below one of the others that does. -/
def Dominated (maps others : List ParityMap) : Prop :=
  ∀ m ∈ maps, m.hasBottom = false → ∃ k ∈ others, k.hasBottom = false ∧ Domain.le m k = .ok true

theorem dominated_of_subset {maps others : List ParityMap} (h : maps ⊆ others) : Dominated maps others :=
  fun m hm hlive => ⟨m, h hm, hlive, domain_le_iff.2 le_rfl⟩

end ParityMap

namespace ParityState

open ParityMap (Dominated domain_le_iff dominated_of_subset)

variable {maps others : List ParityMap} {m k : ParityMap}

/-! ## Reduced lists -/

theorem allows_reduce {v : String → ZMod 2} : (reduce maps).Allows v ↔ ∃ m ∈ maps, m.Allows v := by
  constructor
  · rintro ⟨m, hm, hv⟩
    exact ⟨m, (mem_of_mem_reduce hm).1, hv⟩
  · rintro ⟨m, hm, hv⟩
    obtain ⟨k, hk, hmk⟩ := covered_reduce hm (ParityMap.hasBottom_of_allows hv)
    exact ⟨k, hk, ParityMap.allows_mono hmk hv⟩

theorem eq_of_le_of_mem_reduce (hm : m ∈ (reduce maps).expand) (hk : k ∈ (reduce maps).expand) (h : m ≤ k) :
    m = k := by
  have hmax := mem_kept.1 (mem_of_mem_ofDisjuncts hm)
  exact hmax.eq_of_le (mem_of_mem_reduce hk) h

theorem dominated_reduce (maps : List ParityMap) : Dominated maps (reduce maps).expand := by
  intro m hm hlive
  obtain ⟨k, hk, hmk⟩ := covered_reduce hm hlive
  exact ⟨k, hk, (mem_of_mem_reduce hk).2, domain_le_iff.2 hmk⟩

/-- Lists are reduced to the same state exactly if they dominate each other. -/
theorem reduce_eq_iff : reduce maps = reduce others ↔ Dominated maps others ∧ Dominated others maps := by
  have hback : ∀ {as bs : List ParityMap}, reduce as = reduce bs → Dominated as bs := by
    intro as bs heq m hm hlive
    obtain ⟨k, hk, hklive, hmk⟩ := dominated_reduce as m hm hlive
    rw [heq] at hk
    exact ⟨k, (mem_of_mem_reduce hk).1, hklive, hmk⟩
  have hcover : ∀ {as bs : List ParityMap}, Dominated as bs → ∀ m ∈ as, m.hasBottom = false → ∃ k ∈ bs, m ≤ k := by
    intro as bs h m hm hlive
    obtain ⟨k, hk, -, hmk⟩ := h m hm hlive
    exact ⟨k, hk, domain_le_iff.1 hmk⟩
  exact ⟨fun heq => ⟨hback heq, hback heq.symm⟩, fun h => reduce_congr (hcover h.1) (hcover h.2)⟩

theorem reduce_expand_reduce (maps : List ParityMap) : reduce (reduce maps).expand = reduce maps :=
  reduce_eq_iff.2 ⟨dominated_of_subset fun _ hm => (mem_of_mem_reduce hm).1, dominated_reduce maps⟩

/-- Reducing a list is a canonical form. It allows the vectors that the list allows, its maps describe stores and
none is below another, and lists are reduced to the same state exactly if they dominate each other. So reducing again
changes nothing, and neither the order nor repetitions of the list count. -/
theorem reduce_canonical (maps others : List ParityMap) :
    (∀ v, (reduce maps).Allows v ↔ ∃ m ∈ maps, m.Allows v) ∧
      (∀ m ∈ (reduce maps).expand, m.hasBottom = false ∧
        ∀ k ∈ (reduce maps).expand, Domain.le m k = .ok true → m = k) ∧
      (reduce maps = reduce others ↔ Dominated maps others ∧ Dominated others maps) ∧
      reduce (reduce maps).expand = reduce maps ∧
      ((∀ m, m ∈ maps ↔ m ∈ others) → reduce maps = reduce others) := by
  refine ⟨fun v => allows_reduce, fun m hm => ⟨(mem_of_mem_reduce hm).2, fun k hk hmk => ?_⟩, reduce_eq_iff,
    reduce_expand_reduce maps, fun hmem => ?_⟩
  · exact eq_of_le_of_mem_reduce hm hk (domain_le_iff.1 hmk)
  · exact reduce_eq_iff.2 ⟨dominated_of_subset fun m => (hmem m).1, dominated_of_subset fun m => (hmem m).2⟩

/-- It is known that `x` is even, and of other variables nothing. -/
def evenX : ParityMap := (VarMap.uniform .top).set "x" .even

/-- It is known that `x` is even and `y` odd. -/
def evenXOddY : ParityMap := evenX.set "y" .odd

/-- A map that says more than another is left out, and so is one that only names `x` and fits no store. -/
theorem reduce_canonical_evenX :
    reduce [evenXOddY, (VarMap.uniform .bottom).set "x" .even, evenX] = reduce [evenX] ∧
      (∀ m, m ∈ [evenX, evenXOddY] ↔ m ∈ [evenXOddY, evenX, evenXOddY]) ∧
      reduce [evenX, evenXOddY] = reduce [evenXOddY, evenX, evenXOddY] := by
  have hmem : ∀ m, m ∈ [evenX, evenXOddY] ↔ m ∈ [evenXOddY, evenX, evenXOddY] := by simp [or_comm]
  obtain ⟨-, -, heq, -⟩ := reduce_canonical [evenXOddY, (VarMap.uniform .bottom).set "x" .even, evenX] [evenX]
  obtain ⟨-, -, -, -, horder⟩ := reduce_canonical [evenX, evenXOddY] [evenXOddY, evenX, evenXOddY]
  refine ⟨heq.2 ⟨?_, ?_⟩, hmem, horder hmem⟩
  · unfold Dominated
    decide +kernel
  · unfold Dominated
    decide +kernel

/-! ## Statements -/

/-- If each alternative of a state is below one of another state, it is so after any statement. Nothing is asked of the
states: an alternative that fits no store can be one that fits some again, once its variable is assigned. -/
theorem transfer_monotone (statement : Statement) {d e : ParityState}
    (h : ∀ m ∈ d.expand, ∃ k ∈ e.expand, Domain.le m k = .ok true) :
    ∀ m ∈ (d.transfer statement).expand, ∃ k ∈ (e.transfer statement).expand, Domain.le m k = .ok true := by
  simp only [domain_le_iff] at h ⊢
  exact transfer_covered (fun _ hx => hx) h

/-- An alternative in which `u` is even and there is no `x`, under `x := u + 1`: where nothing was known of `u`, the
case that `u` is even covers what it becomes. -/
theorem transfer_monotone_evenU :
    (∀ m ∈ (Disjunction.any (.ofList [.ofEntries .top [⟨"u", .even⟩, ⟨"x", .bottom⟩]]) : ParityState).expand,
      ∃ k ∈ (Disjunction.top : ParityState).expand, Domain.le m k = .ok true) ∧
    ∃ k ∈ (transfer (.assign "x" (.plus "u" 1)) .top).expand,
      Domain.le (.ofEntries .top [⟨"u", .even⟩, ⟨"x", .odd⟩] : ParityMap) k = .ok true := by
  have hbelow : ∀ m ∈ (Disjunction.any (.ofList [.ofEntries .top [⟨"u", .even⟩, ⟨"x", .bottom⟩]]) : ParityState).expand,
      ∃ k ∈ (Disjunction.top : ParityState).expand, Domain.le m k = .ok true := by decide +kernel
  refine ⟨hbelow, transfer_monotone (.assign "x" (.plus "u" 1)) hbelow _ ?_⟩
  decide +kernel

end ParityState

end FlowFacts
