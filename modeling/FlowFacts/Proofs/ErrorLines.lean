import Mathlib
import FlowFacts.Proofs.Scanning
import FlowFacts.Proofs.ViablePrefixes

/-!
# The lines of parse errors

A token `Offends` if no program goes on with it, while some program begins with the tokens before it. Tokens have
at most one such place (`Offends.unique`), and a failure stands there or at the end (`program_error_cases`).
Hence `Program.parse_error_line`: the lines that a text is reported for. A name that is declared again is the
one token that is not reported for its own line, but for the line of the token after it.
-/

namespace FlowFacts

open FlowFacts.Parser FlowFacts.Token

/-! ## The first token that does not fit -/

/-- Some program begins with these tokens, but none goes on with this one. -/
structure Offends (front : List Placed) (q : Placed) : Prop where
  begins : Begins Program.Spelled (bare front)
  stuck : ¬ Begins Program.Spelled (bare front ++ [q.token])

/-- No program goes on with a token that is refused whatever follows it. -/
theorem not_begins_of_error {front : List Placed} {q : Placed}
    (h : ∀ rest, ∃ f, program (front ++ q :: rest) = .error f) :
    ¬ Begins Program.Spelled (bare front ++ [q.token]) := by
  rintro ⟨p, us, -, hspelled⟩
  -- The lines of the tokens that follow make no difference.
  let rest : List Placed := us.map (⟨·, 1⟩)
  have hrest : bare (front ++ q :: rest) = bare front ++ [q.token] ++ us := by
    simp [bare, rest, Function.comp_def]
  obtain ⟨f, hf⟩ := h rest
  cases hf.symm.trans (program_complete (hrest ▸ hspelled))

theorem offends_of_redeclares {front : List Placed} {q : Placed} (h : Redeclares (bare front) q.token) :
    Offends front q := by
  refine ⟨?_, not_begins_of_error fun rest => ?_⟩
  · obtain ⟨names, x, hnodup, -, hfront, -⟩ := h
    exact ⟨⟨.ofList names, []⟩, [], by simp, names, [], hnodup, rfl, .nil, by rw [hfront]⟩
  · obtain ⟨x, hx⟩ := program_of_redeclares h
    exact ⟨_, hx rest⟩

theorem Offends.not_begins {front rest : List Placed} {q : Placed} (h : Offends front q)
    (hproper : ∀ t ∈ bare (front ++ q :: rest), t.Proper) : ¬ Begins Program.Spelled (bare (front ++ q :: rest)) := by
  intro hbegins
  have hsplit : bare (front ++ q :: rest) = bare front ++ [q.token] ++ bare rest := by simp
  rw [hsplit] at hproper hbegins
  exact h.stuck (hbegins.of_append _ fun t ht => hproper t (List.mem_append_right _ ht))

theorem Offends.unique {front front' rest rest' : List Placed} {q q' : Placed} (h : Offends front q)
    (h' : Offends front' q') (hproper : ∀ t ∈ bare (front ++ q :: rest), t.Proper)
    (heq : front ++ q :: rest = front' ++ q' :: rest') : front = front' ∧ q = q' ∧ rest = rest' := by
  -- Of two different places, the tokens before the later one go on past the earlier one.
  rcases List.append_eq_append_iff.1 heq with ⟨middle, hfront, hmiddle⟩ | ⟨middle, hfront, hmiddle⟩
  · cases middle with
    | nil => simp_all
    | cons r middle =>
      obtain ⟨rfl, -⟩ := List.cons.inj hmiddle
      subst hfront
      refine absurd h'.begins (h.not_begins fun t ht => hproper t ?_)
      rw [heq, bare_append]
      exact List.mem_append_left _ ht
  · cases middle with
    | nil => simp_all
    | cons r middle =>
      obtain ⟨rfl, -⟩ := List.cons.inj hmiddle
      subst hfront
      refine absurd h.begins (h'.not_begins fun t ht => hproper t ?_)
      rw [bare_append]
      exact List.mem_append_left _ ht

/-- A reader of programs fails at a token that does not fit, after a name that is declared again, or at the end of
tokens that some program begins with. -/
theorem program_error_cases {ts : List Placed} {f : Failure} (h : program ts = .error f) :
    (∃ front q rest, ts = front ++ q :: rest ∧ Offends front q ∧ ¬ Redeclares (bare front) q.token ∧
      f.rest = q :: rest) ∨
    (∃ front q, ts = front ++ q :: f.rest ∧ Redeclares (bare front) q.token) ∨
    (Begins Program.Spelled (bare ts) ∧ f.rest = []) := by
  rcases program_cases ts with hsettles | ⟨front, q, rest, rfl, hagain⟩
  · cases hsettles with
    | reads front rest p hts hspelled hread =>
      have hok := hread rest rfl
      rw [← hts, whole, h] at hok
      cases hok
    | fails front rest issue hts hbegins hread =>
      have herror : ∀ rest', rest'.head? = rest.head? → program (front ++ rest') = .error ⟨issue, rest'⟩ :=
        fun rest' hrest => whole_eq_error.1 (hread rest' hrest)
      obtain rfl : f = ⟨issue, rest⟩ := Except.error.inj (h.symm.trans (hts ▸ herror rest rfl))
      subst hts
      cases rest with
      | nil => exact .inr (.inr ⟨by rwa [List.append_nil], rfl⟩)
      | cons q rest =>
        have hstuck := not_begins_of_error fun rest' => ⟨_, herror (q :: rest') rfl⟩
        refine .inl ⟨front, q, rest, rfl, ⟨hbegins, hstuck⟩, fun hagain => ?_, rfl⟩
        obtain ⟨x, hx⟩ := program_of_redeclares hagain
        cases (hx rest).symm.trans h
  · obtain ⟨x, hx⟩ := program_of_redeclares hagain
    obtain rfl := Except.error.inj (h.symm.trans (hx rest))
    exact .inr (.inl ⟨front, q, rfl, hagain⟩)

/-! ## Lines -/

theorem Failure.line_of_cons {f : Failure} {q : Placed} {rest : List Placed} (h : f.rest = q :: rest)
    (tokens : List Placed) : f.line tokens = q.line := by
  simp [Failure.line, h]

theorem Failure.line_append (f : Failure) (front : List Placed) (q : Placed) :
    f.line (front ++ q :: f.rest) = (f.rest.headD q).line := by
  cases h : f.rest <;> simp [Failure.line, h]

namespace Program

/-- The line for which tokens that are no program are reported. -/
inductive FaultLine (tokens : List Placed) : Nat → Prop where
  /-- A token does not fit. -/
  | misplaced {front rest : List Placed} {q : Placed} (htokens : tokens = front ++ q :: rest) (hq : Offends front q)
    (hnew : ¬ Redeclares (bare front) q.token) : FaultLine tokens q.line
  /-- A name is declared again: the line is that of the next token, if there is one. -/
  | redeclared {front rest : List Placed} {q : Placed} (htokens : tokens = front ++ q :: rest)
    (hq : Redeclares (bare front) q.token) : FaultLine tokens (rest.headD q).line
  /-- The tokens end too early. -/
  | unfinished {front : List Placed} {q : Placed} (htokens : tokens = front ++ [q])
    (hbegins : Begins Program.Spelled (bare tokens)) (hnone : ∀ p : Program, ¬ p.Spelled (bare tokens)) :
    FaultLine tokens q.line

theorem faultLine_of_error {tokens : List Placed} {f : Failure} (h : program tokens = .error f) :
    FaultLine tokens (f.line tokens) := by
  rcases program_error_cases h with ⟨front, q, rest, htokens, hq, hnew, hrest⟩ | ⟨front, q, htokens, hq⟩ |
    ⟨hbegins, hrest⟩
  · rw [f.line_of_cons hrest]
    exact .misplaced htokens hq hnew
  · have hline := f.line_append front q
    rw [← htokens] at hline
    rw [hline]
    exact .redeclared htokens hq
  · have hnone : ∀ p : Program, ¬ p.Spelled (bare tokens) := by
      intro p hp
      cases h.symm.trans (program_complete hp)
    rcases List.eq_nil_or_concat' tokens with rfl | ⟨front, q, htokens⟩
    · -- No tokens at all are a program without variables and edges.
      exact absurd ⟨[], [], List.nodup_nil, rfl, .nil, rfl⟩ (hnone ⟨.ofList [], []⟩)
    · have hline := f.line_append front q
      rw [hrest, ← htokens, List.headD_nil] at hline
      rw [hline]
      exact .unfinished htokens hbegins hnone

/-- There is one line to report at most, and it is that of the failure. -/
theorem FaultLine.exists_error {tokens : List Placed} {line : Nat} (h : FaultLine tokens line)
    (hproper : ∀ t ∈ bare tokens, t.Proper) : ∃ f, program tokens = .error f ∧ f.line tokens = line := by
  cases h with
  | @redeclared front rest q htokens hq =>
    obtain ⟨x, hx⟩ := program_of_redeclares hq
    refine ⟨_, htokens ▸ hx rest, ?_⟩
    rw [htokens]
    exact Failure.line_append ⟨.declaredTwice x, rest⟩ front q
  | @misplaced front rest q htokens hq hnew =>
    subst htokens
    have hnone := hq.not_begins hproper
    cases hprogram : program (front ++ q :: rest) with
    | ok p => exact absurd ⟨p, [], by simp, by simpa using program_sound hprogram⟩ hnone
    | error f =>
      refine ⟨f, rfl, ?_⟩
      rcases program_error_cases hprogram with ⟨front', q', rest', heq, hq', -, hrest⟩ | ⟨front', q', heq, hagain⟩ |
        ⟨hbegins, -⟩
      · obtain ⟨-, rfl, -⟩ := hq.unique hq' hproper heq
        exact f.line_of_cons hrest _
      · obtain ⟨rfl, rfl, -⟩ := hq.unique (offends_of_redeclares hagain) hproper heq
        exact absurd hagain hnew
      · exact absurd hbegins hnone
  | @unfinished front q htokens hbegins hnone =>
    cases hprogram : program tokens with
    | ok p => exact absurd (program_sound hprogram) (hnone p)
    | error f =>
      refine ⟨f, rfl, ?_⟩
      rcases program_error_cases hprogram with ⟨front', q', rest', rfl, hq', -, -⟩ | ⟨front', q', heq, hagain⟩ |
        ⟨-, hrest⟩
      · exact absurd hbegins (hq'.not_begins hproper)
      · rw [heq] at hbegins hproper
        exact absurd hbegins ((offends_of_redeclares hagain).not_begins hproper)
      · have hline := f.line_append front q
        rwa [hrest, ← htokens] at hline

theorem ofTokens_error_iff {tokens : List Placed} (hproper : ∀ t ∈ bare tokens, t.Proper) {line : Nat} :
    (∃ e, ofTokens tokens = .error e ∧ e.line = line) ↔ FaultLine tokens line := by
  constructor
  · rintro ⟨e, he, rfl⟩
    unfold ofTokens at he
    cases hprogram : program tokens with
    | ok p => rw [hprogram] at he; cases he
    | error f =>
      rw [hprogram] at he
      cases he
      exact faultLine_of_error hprogram
  · intro h
    obtain ⟨f, hprogram, rfl⟩ := h.exists_error hproper
    exact ⟨⟨f.line tokens, f.issue⟩, by rw [ofTokens, hprogram]; rfl, rfl⟩

/-- A text is refused for the line of the first thing in it that cannot be read, or else for the line where its
tokens fail to be a program. -/
theorem parse_error_line (source : String) (line : Nat) :
    (∃ e, parse source = .error e ∧ e.line = line) ↔
      (∃ front rest tokens, Scanned source.toList front rest tokens ∧ Unreadable rest ∧ lineAfter front = line) ∨
      ∃ tokens, Scanned source.toList source.toList [] tokens ∧ FaultLine tokens line := by
  rw [← readAll_error_iff]
  simp only [← readAll_ok_iff]
  cases hread : readAll 1 source.toList with
  | error e =>
    have hparse : parse source = .error e := by rw [parse, hread]; rfl
    simp [hparse]
  | ok tokens =>
    have hparse : parse source = ofTokens tokens := by rw [parse, hread]; rfl
    simp [hparse, ofTokens_error_iff (proper_of_readAll hread)]

/-- The second name is the first token that no program goes on with, and it is reported for the line after its
own. -/
theorem parse_error_line_again :
    Scanned "x x\nL0 skip L1".toList "x x\nL0 skip L1".toList []
      [⟨.ident "x", 1⟩, ⟨.ident "x", 1⟩, ⟨.label 0, 2⟩, ⟨.skip, 2⟩, ⟨.label 1, 2⟩] ∧
    Offends [⟨.ident "x", 1⟩] ⟨.ident "x", 1⟩ ∧
    parse "x x\nL0 skip L1" = .error ⟨2, .declaredTwice "x"⟩ := by
  have hread : readAll 1 "x x\nL0 skip L1".toList =
      .ok [⟨.ident "x", 1⟩, ⟨.ident "x", 1⟩, ⟨.label 0, 2⟩, ⟨.skip, 2⟩, ⟨.label 1, 2⟩] := by decide +kernel
  refine ⟨readAll_ok_iff.1 hread, offends_of_redeclares ⟨["x"], "x", by simp, by simp, rfl, rfl⟩, ?_⟩
  rw [parse, hread]
  rfl

end Program

end FlowFacts
