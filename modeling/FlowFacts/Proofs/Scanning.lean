import Mathlib
import FlowFacts.Proofs.Lexing

/-!
# Places in a text

`Lexeme` says how a token is written and where it ends, and `Scanned` how far the tokens, blanks and comments
of a text reach. Reading gets exactly that far: `Token.readAll_ok_iff` for a text that can be read to its end,
and `Token.readAll_error_iff` for one that has something `Unreadable` in it, which is reported for the line
that it stands on.
-/

namespace FlowFacts

namespace Token

/-- The tokens that are no words and no numbers. -/
def isSign : Token → Bool
  | leftParen | rightParen | plus | minus | equals | differs | assign | question => true
  | _ => false

/-- How a token is written before the rest of a text. Words and numbers are as long as they can be. -/
inductive Lexeme : Token → (word rest : List Char) → Prop where
  | sign {t : Token} (h : t.isSign = true) (rest : List Char) : Lexeme t t.text.toList rest
  | keyword {word : String} {t : Token} {rest : List Char} (h : (word, t) ∈ keywords) (hrest : Stops rest) :
    Lexeme t word.toList rest
  | name {x : String} {rest : List Char} (h : IsName x) (hrest : Stops rest) : Lexeme (ident x) x.toList rest
  | label {digits rest : List Char} (hne : digits ≠ []) (h : ∀ d ∈ digits, d.isDigit = true)
    (hsize : digitsValue digits < UInt64.size) (hrest : Stops rest) :
    Lexeme (label (digitsValue digits)) ('L' :: digits) rest
  | number {digits rest : List Char} (hne : digits ≠ []) (h : ∀ d ∈ digits, d.isDigit = true)
    (hrest : ∀ c ∈ rest.head?, c.isDigit = false) : Lexeme (number (digitsValue digits)) digits rest

/-! ## One token -/

/-- What a word is read as is a keyword, a label or a name. -/
theorem lexeme_of_ofWord? {word rest : List Char} {t : Token} (hparts : ∀ c ∈ word, isWordPart c = true)
    (hrest : Stops rest) (h : ofWord? word = some t) : Lexeme t word rest := by
  have hname : keywords.lookup (String.ofList word) = none → nameOf? word = some t → Lexeme t word rest := by
    intro hlookup hnameOf
    have hproper := proper_of_nameOf? hparts hlookup hnameOf
    unfold nameOf? at hnameOf
    split at hnameOf
    · split at hnameOf
      · cases hnameOf
        simpa only [String.toList_ofList] using Lexeme.name hproper hrest
      · cases hnameOf
    · cases hnameOf
  unfold ofWord? at h
  split at h
  · next hlookup =>
    cases h
    obtain ⟨before, after, heq, -⟩ := List.lookup_eq_some_iff.1 hlookup
    have hmem : (String.ofList word, t) ∈ keywords := heq ▸ List.mem_append_right _ List.mem_cons_self
    simpa only [String.toList_ofList] using Lexeme.keyword hmem hrest
  · next hlookup =>
    split at h
    · split at h
      · next hdigits =>
        unfold labelOf? at h
        split at h
        · next hsize =>
          cases h
          exact .label (List.cons_ne_nil _ _) (List.all_eq_true.1 hdigits) hsize hrest
        · cases h
      · exact hname hlookup h
    · exact hname hlookup h

theorem stops_dropWhile (cs : List Char) (p : Char → Bool) : ∀ c ∈ (cs.dropWhile p).head?, p c = false := by
  intro c hc
  have := List.head?_dropWhile_not p cs
  rw [Option.mem_def.1 hc] at this
  simpa using this

theorem lexeme_of_read {c : Char} {rest rest' : List Char} {t : Token} (h : read c rest = .ok (t, rest')) :
    ∃ word, c :: rest = word ++ rest' ∧ Lexeme t word rest' := by
  unfold read at h
  split at h
  · next hsign =>
    cases h
    refine ⟨[c], rfl, ?_⟩
    unfold ofSign? at hsign
    split at hsign <;> cases hsign <;> exact .sign rfl _
  · split at h
    · next hc =>
      split at h
      · cases h
        refine ⟨[c, '='], rfl, ?_⟩
        rcases hc with rfl | rfl <;> exact .sign rfl _
      · cases h
    · split at h
      · next hdigit =>
        cases h
        refine ⟨c :: rest.takeWhile Char.isDigit, by simp, .number (List.cons_ne_nil _ _) ?_ (stops_dropWhile _ _)⟩
        exact List.forall_mem_cons.2 ⟨hdigit, fun d hd => List.mem_takeWhile_imp hd⟩
      · split at h
        · next hstart =>
          split at h
          · next hword =>
            cases h
            refine ⟨c :: rest.takeWhile isWordPart, by simp, lexeme_of_ofWord? ?_ (stops_dropWhile _ _) hword⟩
            exact List.forall_mem_cons.2 ⟨isWordPart_of_start hstart, fun d hd => List.mem_takeWhile_imp hd⟩
          · cases h
        · cases h

theorem ofWord?_keyword : ∀ p ∈ keywords, ofWord? p.1.toList = some p.2 := by decide

theorem isWordPart_keyword :
    ∀ p ∈ keywords, (p.1.toList.head?.any isWordStart && p.1.toList.all isWordPart) = true := by
  decide

theorem read_of_lexeme {t : Token} {word rest : List Char} (h : Lexeme t word rest) :
    ∃ c tail, word = c :: tail ∧ read c (tail ++ rest) = .ok (t, rest) := by
  cases h with
  | @sign t h =>
    cases t with
    | leftParen | rightParen | plus | minus | equals | differs | assign | question => exact ⟨_, _, rfl, rfl⟩
    | _ => cases h
  | @keyword word t _ h hrest =>
    have hword : ofWord? word.toList = some t := ofWord?_keyword (word, t) h
    have hchars := Bool.and_eq_true_iff.1 (isWordPart_keyword (word, t) h)
    exact read_of_word hchars.1 hchars.2 hword hrest
  | name h hrest => exact read_of_word h.head_isWordStart h.parts (ofWord?_name h) hrest
  | label hne h hsize hrest =>
    refine read_of_word rfl ?_ (ofWord?_digits hne h hsize) hrest
    exact List.all_eq_true.2 (List.forall_mem_cons.2 ⟨rfl, fun d hd => isWordPart_of_digit (h d hd)⟩)
  | number hne h hrest => exact read_of_digits hne h hrest

/-- No token has a blank or a number sign in it. -/
theorem Lexeme.chars {t : Token} {word rest : List Char} (h : Lexeme t word rest) :
    ∀ c ∈ word, isBlank c = false ∧ c ≠ '#' := by
  have hpart : ∀ {c}, isWordPart c = true → isBlank c = false ∧ c ≠ '#' :=
    fun hc => ⟨isBlank_eq_false hc, ne_of_part hc rfl⟩
  cases h with
  | @sign t h =>
    have hsign : t.text.toList.all (fun c => !isBlank c && c != '#') = true := by
      cases t with
      | leftParen | rightParen | plus | minus | equals | differs | assign | question => decide
      | _ => cases h
    intro c hc
    simpa using List.all_eq_true.1 hsign c hc
  | keyword h _ =>
    have hchars := Bool.and_eq_true_iff.1 (isWordPart_keyword _ h)
    exact fun c hc => hpart (List.all_eq_true.1 hchars.2 c hc)
  | name h _ => exact fun c hc => hpart (List.all_eq_true.1 h.parts c hc)
  | label _ h _ _ =>
    exact List.forall_mem_cons.2 ⟨hpart rfl, fun c hc => hpart (isWordPart_of_digit (h c hc))⟩
  | number _ h _ => exact fun c hc => hpart (isWordPart_of_digit (h c hc))

/-! ## Places -/

/-- The line that a text has come to. -/
def lineAfter (front : List Char) : Nat := front.count '\n' + 1

/-- How far a text has been read, with the tokens so far: blanks and comments stand between tokens, and a token
stands on the line that the text has come to. -/
inductive Scanned (source : List Char) : (front rest : List Char) → List Placed → Prop where
  | start : Scanned source [] source []
  | blank {front rest : List Char} {ts : List Placed} {c : Char} (h : Scanned source front (c :: rest) ts)
    (hc : isBlank c = true) : Scanned source (front ++ [c]) rest ts
  | comment {front body rest : List Char} {ts : List Placed}
    (h : Scanned source front ('#' :: (body ++ rest)) ts) (hbody : '\n' ∉ body) (hrest : ∀ c ∈ rest.head?, c = '\n') :
    Scanned source (front ++ '#' :: body) rest ts
  | token {front word rest : List Char} {ts : List Placed} {t : Token} (h : Scanned source front (word ++ rest) ts)
    (ht : Lexeme t word rest) : Scanned source (front ++ word) rest (ts ++ [⟨t, lineAfter front⟩])

/-- Something is left of the text here, and it begins with no blank, comment or token. -/
structure Unreadable (cs : List Char) : Prop where
  head : cs.head?.any (fun c => !isBlank c && c != '#') = true
  noToken : ∀ t word rest, cs = word ++ rest → ¬ Lexeme t word rest

/-! ## Reading on from a place -/

theorem readAll_blank {c : Char} (hc : isBlank c = true) (front rest : List Char) :
    readAll (lineAfter front) (c :: rest) = readAll (lineAfter (front ++ [c])) rest := by
  rw [readAll]
  by_cases hline : c = '\n'
  · subst hline
    rw [if_pos rfl]
    simp [lineAfter]
  · rw [if_neg hline, if_pos hc]
    simp [lineAfter, hline]

theorem readAll_comment {body rest : List Char} (hbody : '\n' ∉ body) (hrest : ∀ c ∈ rest.head?, c = '\n')
    (line : Nat) : readAll line ('#' :: (body ++ rest)) = readAll line rest := by
  have hdrop : (body ++ rest).dropWhile (· ≠ '\n') = rest :=
    (takeWhile_append_stop (fun c hc => by simpa using ne_of_mem_of_not_mem hc hbody)
      (fun c hc => by simpa using hrest c hc)).2
  rw [readAll, if_neg (by decide), if_neg (by decide), if_pos rfl, hdrop]

theorem readAll_of_error {c : Char} {rest : List Char} {issue : Issue} (hblank : isBlank c = false) (hc : c ≠ '#')
    (hread : read c rest = .error issue) (line : Nat) : readAll line (c :: rest) = .error ⟨line, issue⟩ := by
  have hline : c ≠ '\n' := by
    rintro rfl
    cases hblank
  rw [readAll, if_neg hline, if_neg (by simp [hblank]), if_neg hc]
  split <;> cases hread.symm.trans ‹_›
  rfl

theorem readAll_lexeme {t : Token} {word rest : List Char} (h : Lexeme t word rest) (line : Nat) :
    readAll line (word ++ rest) = (readAll line rest).map (⟨t, line⟩ :: ·) := by
  obtain ⟨c, tail, rfl, hread⟩ := read_of_lexeme h
  obtain ⟨hblank, hc⟩ := h.chars c List.mem_cons_self
  exact readAll_of_ok hblank hc hread line

theorem Unreadable.readAll_eq {cs : List Char} (h : Unreadable cs) (line : Nat) :
    ∃ issue, readAll line cs = .error ⟨line, issue⟩ := by
  obtain ⟨c, hhead, hc⟩ := (Option.any_eq_true _ _).1 h.head
  obtain ⟨rest, rfl⟩ := List.head?_eq_some_iff.1 hhead
  simp only [Bool.and_eq_true, Bool.not_eq_true', bne_iff_ne] at hc
  cases hread : read c rest with
  | error issue => exact ⟨issue, readAll_of_error hc.1 hc.2 hread line⟩
  | ok r =>
    obtain ⟨word, heq, hlexeme⟩ := lexeme_of_read hread
    exact absurd hlexeme (h.noToken _ _ _ heq)

namespace Scanned

variable {source front rest : List Char} {ts : List Placed}

theorem append_eq (h : Scanned source front rest ts) : front ++ rest = source := by
  induction h with
  | start => rfl
  | blank _ _ ih | comment _ _ _ ih | token _ _ ih => rw [← ih]; simp

/-- Reading a text is reading on from any place that it gets to. -/
theorem readAll_eq (h : Scanned source front rest ts) :
    readAll 1 source = (readAll (lineAfter front) rest).map (ts ++ ·) := by
  induction h with
  | start =>
    show _ = (readAll 1 source).map id
    cases readAll 1 source <;> rfl
  | blank _ hc ih => rw [ih, readAll_blank hc]
  | @comment front body rest ts _ hbody hrest ih =>
    have hline : lineAfter (front ++ '#' :: body) = lineAfter front := by
      simp [lineAfter, List.count_eq_zero_of_not_mem hbody]
    rw [ih, readAll_comment hbody hrest, hline]
  | @token front word rest ts t _ ht ih =>
    have hword : '\n' ∉ word := fun hmem => by cases (ht.chars _ hmem).1
    have hline : lineAfter (front ++ word) = lineAfter front := by
      simp [lineAfter, List.count_eq_zero_of_not_mem hword]
    rw [ih, readAll_lexeme ht, hline]
    cases readAll (lineAfter front) rest with
    | error e => rfl
    | ok us => simp [Except.map]

/-- Reading takes a blank, a comment or a token, unless there is none of these. -/
theorem exists_next {c : Char} (h : Scanned source front (c :: rest) ts) :
    Unreadable (c :: rest) ∨ ∃ front' rest' ts', Scanned source front' rest' ts' ∧ rest'.length ≤ rest.length := by
  by_cases hblank : isBlank c = true
  · exact .inr ⟨_, rest, ts, h.blank hblank, le_rfl⟩
  by_cases hc : c = '#'
  · subst hc
    have hsplit : rest = rest.takeWhile (· ≠ '\n') ++ rest.dropWhile (· ≠ '\n') := by simp
    have hnext := comment (hsplit ▸ h) (fun hmem => by simpa using List.mem_takeWhile_imp hmem)
      (fun d hd => by simpa using stops_dropWhile rest (· ≠ '\n') d hd)
    exact .inr ⟨_, _, ts, hnext, length_dropWhile_le _ rest⟩
  cases hread : read c rest with
  | ok r =>
    obtain ⟨word, heq, hlexeme⟩ := lexeme_of_read hread
    exact .inr ⟨_, r.2, _, token (heq ▸ h) hlexeme, length_of_read hread⟩
  | error issue =>
    refine .inl ⟨by simp [hblank, hc], fun t word rest' heq hlexeme => ?_⟩
    obtain ⟨d, tail, rfl, hok⟩ := read_of_lexeme hlexeme
    obtain ⟨rfl, rfl⟩ := List.cons.inj heq
    cases hread.symm.trans hok

/-- Reading goes on to the end of the text or to something unreadable. -/
theorem exists_last (h : Scanned source front rest ts) :
    ∃ front' rest' ts', Scanned source front' rest' ts' ∧ (rest' = [] ∨ Unreadable rest') := by
  induction hn : rest.length using Nat.strongRecOn generalizing front rest ts with
  | ind n ih =>
    cases rest with
    | nil => exact ⟨front, [], ts, h, .inl rfl⟩
    | cons c rest =>
      rcases h.exists_next with hstuck | ⟨front', rest', ts', hnext, hlength⟩
      · exact ⟨front, c :: rest, ts, h, .inr hstuck⟩
      · exact ih rest'.length (by rw [← hn, List.length_cons]; omega) hnext rfl

end Scanned

/-- A text has the tokens that it can be read to its end with. -/
theorem readAll_ok_iff {source : List Char} {ts : List Placed} :
    readAll 1 source = .ok ts ↔ Scanned source source [] ts := by
  constructor
  · intro h
    obtain ⟨front, rest, us, hscanned, hlast⟩ := (Scanned.start : Scanned source [] source []).exists_last
    have heq := hscanned.readAll_eq
    rcases hlast with rfl | hstuck
    · obtain rfl : front = source := by simpa using hscanned.append_eq
      rw [h, readAll] at heq
      cases heq
      simpa using hscanned
    · obtain ⟨issue, hissue⟩ := hstuck.readAll_eq (lineAfter front)
      rw [h, hissue] at heq
      cases heq
  · intro h
    rw [h.readAll_eq, readAll]
    simp [Except.map]

/-- A text that cannot be read to its end is reported for the line of the first thing in it that is
unreadable. -/
theorem readAll_error_iff {source : List Char} {line : Nat} :
    (∃ e, readAll 1 source = .error e ∧ e.line = line) ↔
      ∃ front rest ts, Scanned source front rest ts ∧ Unreadable rest ∧ lineAfter front = line := by
  constructor
  · rintro ⟨e, he, rfl⟩
    obtain ⟨front, rest, us, hscanned, hlast⟩ := (Scanned.start : Scanned source [] source []).exists_last
    have heq := hscanned.readAll_eq
    rcases hlast with rfl | hstuck
    · rw [he, readAll] at heq
      cases heq
    · obtain ⟨issue, hissue⟩ := hstuck.readAll_eq (lineAfter front)
      rw [he, hissue] at heq
      cases heq
      exact ⟨front, rest, us, hscanned, hstuck, rfl⟩
  · rintro ⟨front, rest, ts, hscanned, hstuck, rfl⟩
    obtain ⟨issue, hissue⟩ := hstuck.readAll_eq (lineAfter front)
    exact ⟨⟨lineAfter front, issue⟩, by rw [hscanned.readAll_eq, hissue]; rfl, rfl⟩

end Token

end FlowFacts
