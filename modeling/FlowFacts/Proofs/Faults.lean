import Mathlib
import FlowFacts.Fault

/-!
# Computations that can fail

A computation that is known to succeed has a result (`resultOr`), and a loop succeeds if each of its
steps does: `exists_mapM`, `mapM_eq_map` and `filterM_eq_filter` for lists that are gone through element
by element, `exists_foldlM` and `exists_foldlM₂` for loops that carry something along, next to a loop that
cannot fail or to another one that can.
-/

namespace FlowFacts

variable {α β : Type}

/-- The result of a computation, or a given value if it has none. -/
def resultOr (other : α) : Except Fault α → α
  | .ok x => x
  | .error _ => other

theorem eq_ok_resultOr {c : Except Fault α} (h : ∃ x, c = .ok x) (other : α) : c = .ok (resultOr other c) := by
  obtain ⟨x, rfl⟩ := h
  rfl

/-- A list is gone through without fault if each of its elements is. -/
theorem exists_mapM {f : α → Except Fault β} {R : α → β → Prop} {xs : List α}
    (h : ∀ x ∈ xs, ∃ y, f x = .ok y ∧ R x y) : ∃ ys, xs.mapM f = .ok ys ∧ List.Forall₂ R xs ys := by
  induction xs with
  | nil => exact ⟨[], rfl, .nil⟩
  | cons x rest ih =>
    obtain ⟨y, hy, hR⟩ := h x List.mem_cons_self
    obtain ⟨ys, hys, hall⟩ := ih fun z hz => h z (List.mem_cons_of_mem _ hz)
    refine ⟨y :: ys, ?_, .cons hR hall⟩
    simp only [List.mapM_cons, hy, hys, bind, Except.bind, pure, Except.pure]

theorem mapM_of_forall₂ {f : α → Except Fault β} {xs : List α} {ys : List β}
    (h : List.Forall₂ (fun x y => f x = .ok y) xs ys) : xs.mapM f = .ok ys := by
  induction h with
  | nil => rfl
  | cons he _ ih => simp only [List.mapM_cons, he, ih, bind, Except.bind, pure, Except.pure]

theorem mapM_eq_map {f : α → Except Fault β} {g : α → β} {xs : List α} (h : ∀ x ∈ xs, f x = .ok (g x)) :
    xs.mapM f = .ok (xs.map g) :=
  mapM_of_forall₂ (List.forall₂_map_right_iff.2 (List.forall₂_same.2 h))

theorem filterM_eq_filter {f : α → Except Fault Bool} {p : α → Bool} {xs : List α} (h : ∀ x ∈ xs, f x = .ok (p x)) :
    xs.filterM f = .ok (xs.filter p) := by
  have haux : ∀ acc, xs.filterAuxM f acc = .ok ((xs.filter p).reverse ++ acc) := by
    induction xs with
    | nil => exact fun acc => rfl
    | cons x rest ih =>
      intro acc
      simp only [List.filterAuxM, h x List.mem_cons_self, bind, Except.bind]
      rw [ih fun y hy => h y (List.mem_cons_of_mem _ hy)]
      cases hx : p x <;> simp [hx]
  simp only [List.filterM, haux, List.append_nil, List.reverse_reverse, bind, Except.bind, pure, Except.pure]

theorem foldlM_congr {f f' : β → α → Except Fault β} {xs : List α} (h : ∀ x ∈ xs, ∀ b, f b x = f' b x) (b : β) :
    xs.foldlM f b = xs.foldlM f' b := by
  induction xs generalizing b with
  | nil => rfl
  | cons x rest ih =>
    rw [List.foldlM_cons, List.foldlM_cons, h x List.mem_cons_self]
    exact bind_congr fun c => ih (fun y hy => h y (List.mem_cons_of_mem _ hy)) c

/-- A loop has the result of another one that can fail where it does not. -/
theorem foldlM_eq_ok_imp {f f' : β → α → Except Fault β} (h : ∀ b x c, f b x = .ok c → f' b x = .ok c) {xs : List α}
    {b c : β} (hfold : xs.foldlM f b = .ok c) : xs.foldlM f' b = .ok c := by
  induction xs generalizing b with
  | nil => exact hfold
  | cons x rest ih =>
    rw [List.foldlM_cons] at hfold ⊢
    obtain ⟨d, hd, hrest⟩ := ok_of_bind hfold
    rw [h b x d hd]
    exact ih hrest

/-- A loop that can fail goes along with one that cannot, if each of its steps does. -/
theorem exists_foldlM {γ : Type} {f : β → α → Except Fault β} {g : γ → α → γ} {R : β → γ → Prop} {xs : List α} {b : β}
    {c : γ} (hbc : R b c) (hstep : ∀ x ∈ xs, ∀ {b c}, R b c → ∃ b', f b x = .ok b' ∧ R b' (g c x)) :
    ∃ b', xs.foldlM f b = .ok b' ∧ R b' (xs.foldl g c) := by
  induction xs generalizing b c with
  | nil => exact ⟨b, rfl, hbc⟩
  | cons x rest ih =>
    obtain ⟨d, hd, hR⟩ := hstep x List.mem_cons_self hbc
    obtain ⟨b', hb', hR'⟩ := ih hR fun y hy => hstep y (List.mem_cons_of_mem _ hy)
    refine ⟨b', ?_, hR'⟩
    simp only [List.foldlM_cons, hd, bind, Except.bind, hb']

/-- Folds over corresponding lists end in related states if every step keeps states related. -/
theorem exists_foldlM₂ {α β D E : Type} {f : D → α → Except Fault D} {h : E → β → Except Fault E} {R : D → E → Prop}
    (m : α → β) {xs : List α} {d : D} {e : E} (hde : R d e)
    (hstep : ∀ x ∈ xs, ∀ {d e}, R d e → ∃ d' e', f d x = .ok d' ∧ h e (m x) = .ok e' ∧ R d' e') :
    ∃ d' e', xs.foldlM f d = .ok d' ∧ (xs.map m).foldlM h e = .ok e' ∧ R d' e' := by
  induction xs generalizing d e with
  | nil => exact ⟨d, e, rfl, rfl, hde⟩
  | cons x rest ih =>
    obtain ⟨d₁, e₁, hd₁, he₁, hR⟩ := hstep x List.mem_cons_self hde
    obtain ⟨d', e', hd', he', hR'⟩ := ih hR fun y hy => hstep y (List.mem_cons_of_mem _ hy)
    refine ⟨d', e', ?_, ?_, hR'⟩
    · simp only [List.foldlM_cons, hd₁, bind, Except.bind, hd']
    · simp only [List.map_cons, List.foldlM_cons, he₁, bind, Except.bind, he']

end FlowFacts
