import Mathlib
import FlowFacts.Meaning
import FlowFacts.Proofs.LawfulDomains

/-!
# Maps of parities and their order

`ParityMap.le` compares two maps at finitely many names only, but decides the order name by name
(`ParityMap.le_iff`), which makes maps a partial order. A higher map contains more stores.
-/

namespace FlowFacts

/-! ## The order of what maps say -/

namespace Parity

theorem contains_of_le {p q : Parity} {n : Int} (h : p.le q = true) (hp : p.Contains n) : q.Contains n := by
  cases p <;> cases q <;> first | exact hp | trivial

theorem shift_mono {p q : Parity} (h : p.le q = true) (k : Int) : (p.shift k).le (q.shift k) = true := by
  unfold shift
  split
  · exact h
  · cases p <;> cases q <;> revert h <;> decide

theorem meet_mono {p q r s : Parity} (hpr : p.le r = true) (hqs : q.le s = true) : (p.meet q).le (r.meet s) = true := by
  cases p <;> cases r <;> (try cases hpr) <;> cases q <;> cases s <;> (try cases hqs) <;> decide

theorem shift_shift (p : Parity) (k : Int) : (p.shift k).shift k = p := by
  unfold shift
  split
  · rfl
  · cases p <;> rfl

theorem ne_bottom_of_contains {p : Parity} {n : Int} (h : p.Contains n) : p ≠ .bottom := by
  rintro rfl
  exact h

end Parity

namespace ParityMap

variable {a b : ParityMap} {s : Store}

theorem lawful : Domain.Lawful (VarMap.Over fun _ : Parity => True) (VarMap.Below fun p q => p.le q = true) :=
  VarMap.lawful Parity.lawful

theorem over_true (a : ParityMap) : VarMap.Over (fun _ => True) a := ⟨trivial, fun _ => trivial⟩

/-- The order looks at finitely many names, and what it finds there holds of all names. -/
theorem le_iff : ParityMap.le a b = true ↔ a.default.le b.default = true ∧ ∀ x, (a.get x).le (b.get x) = true := by
  obtain ⟨c, hc, hreports⟩ := lawful.compare (over_true a) (over_true b)
  rw [ParityMap.le, hc]
  exact hreports.le.trans ⟨fun h => ⟨h.default, h.get⟩, fun h => ⟨h.1, h.2⟩⟩

instance : PartialOrder ParityMap where
  le a b := ParityMap.le a b = true
  le_refl a := le_iff.2 ⟨Parity.le_refl _, fun _ => Parity.le_refl _⟩
  le_trans a b c hab hbc := by
    obtain ⟨hd, hx⟩ := le_iff.1 hab
    obtain ⟨hd', hx'⟩ := le_iff.1 hbc
    exact le_iff.2 ⟨Parity.le_trans hd hd', fun x => Parity.le_trans (hx x) (hx' x)⟩
  le_antisymm a b hab hba := by
    obtain ⟨hd, hx⟩ := le_iff.1 hab
    obtain ⟨hd', hx'⟩ := le_iff.1 hba
    exact VarMap.ext_get (Parity.le_antisymm hd hd') fun x => Parity.le_antisymm (hx x) (hx' x)

theorem le_def : a ≤ b ↔ a.default.le b.default = true ∧ ∀ x, (a.get x).le (b.get x) = true := le_iff

theorem le_top (a : ParityMap) : a ≤ VarMap.uniform .top := le_def.2 ⟨Parity.le_top _, fun _ => Parity.le_top _⟩

theorem contains_mono (h : a ≤ b) (ha : a.Contains s) : b.Contains s := fun x =>
  Parity.contains_of_le ((le_def.1 h).2 x) (ha x)

/-- Setting a name to a higher parity in a higher map gives a higher map. -/
theorem set_mono (h : a ≤ b) {p q : Parity} (hpq : p.le q = true) (x : String) : a.set x p ≤ b.set x q := by
  obtain ⟨hd, hx⟩ := le_def.1 h
  refine le_def.2 ⟨by simpa using hd, fun y => ?_⟩
  rw [VarMap.get_set, VarMap.get_set]
  split
  · exact hpq
  · exact hx y

/-- Setting a name to a parity that it has at least is still below. -/
theorem le_set (h : a ≤ b) {q : Parity} {x : String} (hx : (a.get x).le q = true) : a ≤ b.set x q := by
  obtain ⟨hd, hget⟩ := le_def.1 h
  refine le_def.2 ⟨by simpa using hd, fun y => ?_⟩
  rw [VarMap.get_set]
  split
  · next hy => rwa [hy]
  · exact hget y

theorem contains_set {p : Parity} {n : Int} (h : a.Contains s) (hp : p.Contains n) (x : String) :
    ParityMap.Contains (a.set x p) (s.set x n) := by
  intro y
  by_cases hy : y = x
  · subst hy
    rwa [VarMap.get_set_self, Store.set_self]
  · rw [VarMap.get_set_of_ne _ _ hy, Store.set_of_ne _ _ hy]
    exact h y

theorem contains_set_iff {p : Parity} {x : String} :
    ParityMap.Contains (a.set x p) s ↔ p.Contains (s x) ∧ ∀ y, y ≠ x → (a.get y).Contains (s y) := by
  constructor
  · intro h
    refine ⟨by simpa using h x, fun y hy => ?_⟩
    simpa only [VarMap.get_set_of_ne _ _ hy] using h y
  · rintro ⟨hx, hrest⟩ y
    by_cases hy : y = x
    · rwa [hy, VarMap.get_set_self]
    · rw [VarMap.get_set_of_ne _ _ hy]
      exact hrest y hy

/-- Setting a name to a parity that its value has keeps the store. -/
theorem contains_set_same {p : Parity} (h : a.Contains s) {x : String} (hp : p.Contains (s x)) :
    ParityMap.Contains (a.set x p) s := contains_set_iff.2 ⟨hp, fun y _ => h y⟩

/-- A map without a parity that no number has. -/
theorem hasBottom_eq_false : a.hasBottom = false ↔ a.default ≠ .bottom ∧ ∀ x, a.get x ≠ .bottom := by
  unfold hasBottom
  rw [List.any_eq_false, ← VarMap.forall_values (Q := fun v => v ≠ Parity.bottom)]
  simp

theorem isTop_iff : Domain.isTop a = true ↔ a = VarMap.uniform .top := lawful.isTop (over_true a)

end ParityMap

end FlowFacts
