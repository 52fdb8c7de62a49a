import Mathlib
import FlowFacts.Program.Lexer
import FlowFacts.Proofs.Grammar

/-!
# Texts and their tokens

A token is `Proper` if its name is one (`IsName`) and its label has 64 bits. Every token of a text is proper
(`Token.proper_of_readAll`), and every proper token is read from its own text wherever nothing follows that
would make the word longer (`Lexes.text`). Texts that are put together with blanks have the tokens of their
parts (`Lexes.append`, `Lexes.spaced`, `exists_lexes_intercalate`).
-/

namespace FlowFacts

/-- A word of letters, digits and underscores that starts with a small letter or an underscore and is no
keyword. -/
structure IsName (x : String) : Prop where
  start : x.toList.head?.any fun c => c.isLower || c == '_'
  parts : x.toList.all fun c => c.isAlphanum || c == '_'
  notKeyword : x ∉ ["skip", "assume", "assert", "true", "false"]

theorem isName_iff {x : String} : IsName x ↔ (x.toList.head?.any fun c => c.isLower || c == '_') ∧
    (x.toList.all fun c => c.isAlphanum || c == '_') ∧ x ∉ ["skip", "assume", "assert", "true", "false"] :=
  ⟨fun h => ⟨h.start, h.parts, h.notKeyword⟩, fun h => ⟨h.1, h.2.1, h.2.2⟩⟩

instance : DecidablePred IsName := fun _ => decidable_of_iff _ isName_iff.symm

theorem IsName.head_isWordStart {x : String} (h : IsName x) : x.toList.head?.any Token.isWordStart := by
  obtain ⟨c, hc, hstart⟩ := (Option.any_eq_true _ _).1 h.start
  refine (Option.any_eq_true _ _).2 ⟨c, hc, ?_⟩
  simp only [Token.isWordStart, Char.isAlpha, Bool.or_eq_true] at hstart ⊢
  tauto

/-- Nothing here makes a word longer that stands before it. -/
def Stops (cs : List Char) : Prop := ∀ c ∈ cs.head?, Token.isWordPart c = false

theorem Stops.cons {c : Char} (h : Token.isWordPart c = false) (cs : List Char) : Stops (c :: cs) := by
  rintro d ⟨⟩
  exact h

theorem Stops.append {cs ds : List Char} (hc : Stops cs) (hd : Stops ds) : Stops (cs ++ ds) := by
  cases cs with
  | nil => exact hd
  | cons c cs => exact hc

theorem takeWhile_append_stop {p : Char → Bool} {front cs : List Char} (hfront : ∀ c ∈ front, p c = true)
    (hcs : ∀ c ∈ cs.head?, p c = false) : (front ++ cs).takeWhile p = front ∧ (front ++ cs).dropWhile p = cs := by
  rw [List.takeWhile_append_of_pos hfront, List.dropWhile_append_of_pos hfront]
  cases cs with
  | nil => exact ⟨List.append_nil front, rfl⟩
  | cons c cs =>
    have hc : p c = false := hcs c rfl
    simp [hc]

namespace Token

/-- The tokens that a text can have. -/
def Proper : Token → Prop
  | ident x => IsName x
  | label n => n < UInt64.size
  | _ => True

/-! ## Words -/

theorem isWordPart_of_start {c : Char} (h : isWordStart c = true) : isWordPart c = true := by
  simp only [isWordStart, isWordPart, Char.isAlphanum, Bool.or_eq_true] at h ⊢
  tauto

theorem isWordPart_of_digit {c : Char} (h : c.isDigit = true) : isWordPart c = true := by
  simp [isWordPart, Char.isAlphanum, h]

theorem ne_of_part {c d : Char} (hc : isWordPart c = true) (hd : isWordPart d = false) : c ≠ d := by
  rintro rfl
  exact absurd hc (by simp [hd])

theorem isAlpha_codes {c : Char} (h : c.isAlpha = true) : 65 ≤ c.toNat ∧ c.toNat ≤ 122 := by
  simp only [Char.isAlpha, Char.isUpper, Char.isLower, Bool.or_eq_true, Bool.and_eq_true, decide_eq_true_eq,
    UInt32.le_iff_toNat_le, ge_iff_le] at h
  change 65 ≤ c.toNat ∧ c.toNat ≤ 90 ∨ 97 ≤ c.toNat ∧ c.toNat ≤ 122 at h
  omega

theorem isDigit_codes {c : Char} (h : c.isDigit = true) : 48 ≤ c.toNat ∧ c.toNat ≤ 57 := by
  simp only [Char.isDigit, Bool.and_eq_true, decide_eq_true_eq, UInt32.le_iff_toNat_le, ge_iff_le] at h
  exact h

theorem isDigit_eq_false {c : Char} (h : isWordStart c = true) : c.isDigit = false := by
  by_contra hdigit
  have hcodes := isDigit_codes (Bool.eq_true_of_not_eq_false hdigit)
  simp only [isWordStart, Bool.or_eq_true, beq_iff_eq] at h
  rcases h with h | rfl
  · have := isAlpha_codes h
    omega
  · exact absurd hcodes (by decide)

theorem isWordPart_codes {c : Char} (h : isWordPart c = true) : 48 ≤ c.toNat ∧ c.toNat ≤ 122 := by
  simp only [isWordPart, Char.isAlphanum, Bool.or_eq_true, beq_iff_eq] at h
  rcases h with (h | h) | rfl
  · have := isAlpha_codes h
    omega
  · have := isDigit_codes h
    omega
  · decide

theorem isBlank_eq_false {c : Char} (h : isWordPart c = true) : isBlank c = false := by
  have hranges : ∀ r ∈ blankRanges, r.2 < 48 ∨ 122 < r.1 := by decide
  refine List.any_eq_false.2 fun r hr => ?_
  have hcodes := isWordPart_codes h
  have hrange := hranges r hr
  simp only [Bool.and_eq_true, decide_eq_true_eq]
  omega

theorem ofSign?_eq_none {c : Char} (h : isWordPart c = true) : ofSign? c = none := by
  unfold ofSign?
  split <;> first | rfl | cases h

theorem not_isName_keyword : ∀ p ∈ keywords, ¬ IsName p.1 := by decide

theorem lookup_name {x : String} (h : IsName x) : keywords.lookup x = none := by
  refine List.lookup_eq_none_iff.2 fun p hp => bne_iff_ne.2 fun heq => ?_
  exact not_isName_keyword p hp (heq ▸ h)

theorem ofWord?_name {x : String} (h : IsName x) : ofWord? x.toList = some (ident x) := by
  obtain ⟨c, hc, hstart⟩ := (Option.any_eq_true _ _).1 h.start
  obtain ⟨word, hx⟩ := List.head?_eq_some_iff.1 hc
  have hname : nameOf? x.toList = some (ident x) := by
    rw [hx, nameOf?, if_pos hstart, ← hx, String.ofList_toList]
  unfold ofWord?
  rw [String.ofList_toList, lookup_name h]
  dsimp only
  split
  · next hL =>
    -- A capital letter starts no name.
    obtain rfl : c = 'L' := (List.cons.inj (hx.symm.trans hL)).1
    exact absurd hstart (by decide)
  · exact hname

theorem digitsValue_toDigits (n : Nat) : digitsValue (Nat.toDigits 10 n) = n :=
  Nat.ofDigitChars_toDigits (by decide) (by decide)

theorem isDigit_toDigits (n : Nat) : ∀ c ∈ Nat.toDigits 10 n, c.isDigit = true :=
  fun _ hc => Nat.isDigit_of_mem_toDigits (by decide) (by decide) hc

theorem lookup_label (digits : List Char) : keywords.lookup (String.ofList ('L' :: digits)) = none := by
  have hL : ∀ p ∈ keywords, p.1.toList.head? ≠ some 'L' := by decide
  refine List.lookup_eq_none_iff.2 fun p hp => bne_iff_ne.2 fun heq => hL p hp ?_
  rw [← heq, String.toList_ofList]
  rfl

theorem ofWord?_digits {digits : List Char} (hne : digits ≠ []) (h : ∀ d ∈ digits, d.isDigit = true)
    (hsize : digitsValue digits < UInt64.size) : ofWord? ('L' :: digits) = some (label (digitsValue digits)) := by
  obtain ⟨digit, digits, rfl⟩ := List.exists_cons_of_ne_nil hne
  unfold ofWord?
  rw [lookup_label]
  exact (if_pos (List.all_eq_true.2 h)).trans (if_pos hsize)

theorem ofWord?_label {n : Nat} (h : n < UInt64.size) : ofWord? ('L' :: Nat.toDigits 10 n) = some (label n) := by
  have hvalue := digitsValue_toDigits n
  have hword := ofWord?_digits Nat.toDigits_ne_nil (isDigit_toDigits n) (hvalue.symm ▸ h)
  rwa [hvalue] at hword

theorem read_word {c : Char} {t : Token} (rest : List Char) (hstart : isWordStart c = true)
    (hword : ofWord? (c :: rest.takeWhile isWordPart) = some t) :
    read c rest = .ok (t, rest.dropWhile isWordPart) := by
  have hpart := isWordPart_of_start hstart
  unfold read
  rw [ofSign?_eq_none hpart]
  dsimp only
  rw [if_neg (not_or.2 ⟨ne_of_part hpart rfl, ne_of_part hpart rfl⟩), if_neg (by simp [isDigit_eq_false hstart]),
    if_pos hstart, hword]

/-- A word is read whole, up to something that does not make it longer. -/
theorem read_of_word {word rest : List Char} {t : Token} (hstart : word.head?.any isWordStart = true)
    (hparts : word.all isWordPart = true) (hword : ofWord? word = some t) (hrest : Stops rest) :
    ∃ c tail, word = c :: tail ∧ read c (tail ++ rest) = .ok (t, rest) := by
  obtain ⟨c, hc, hstart⟩ := (Option.any_eq_true _ _).1 hstart
  obtain ⟨tail, rfl⟩ := List.head?_eq_some_iff.1 hc
  obtain ⟨-, htail⟩ := List.forall_mem_cons.1 (List.all_eq_true.1 hparts)
  obtain ⟨htake, hdrop⟩ := takeWhile_append_stop htail hrest
  refine ⟨c, tail, rfl, ?_⟩
  have hread := read_word (tail ++ rest) hstart (htake.symm ▸ hword)
  rwa [hdrop] at hread

theorem read_number {c : Char} (rest : List Char) (hdigit : c.isDigit = true) :
    read c rest =
      .ok (number (digitsValue (c :: rest.takeWhile Char.isDigit)), rest.dropWhile Char.isDigit) := by
  have hpart := isWordPart_of_digit hdigit
  unfold read
  rw [ofSign?_eq_none hpart]
  dsimp only
  rw [if_neg (not_or.2 ⟨ne_of_part hpart rfl, ne_of_part hpart rfl⟩), if_pos hdigit]

theorem read_of_digits {digits rest : List Char} (hne : digits ≠ []) (h : ∀ d ∈ digits, d.isDigit = true)
    (hrest : ∀ c ∈ rest.head?, c.isDigit = false) :
    ∃ c tail, digits = c :: tail ∧ read c (tail ++ rest) = .ok (number (digitsValue digits), rest) := by
  obtain ⟨c, tail, rfl⟩ := List.exists_cons_of_ne_nil hne
  obtain ⟨hc, htail⟩ := List.forall_mem_cons.1 h
  obtain ⟨htake, hdrop⟩ := takeWhile_append_stop htail hrest
  refine ⟨c, tail, rfl, ?_⟩
  rw [read_number _ hc, htake, hdrop]

theorem readAll_of_ok {c : Char} {rest rest' : List Char} {t : Token} (hblank : isBlank c = false) (hc : c ≠ '#')
    (hread : read c rest = .ok (t, rest')) (line : Nat) :
    readAll line (c :: rest) = (readAll line rest').map (⟨t, line⟩ :: ·) := by
  have hline : c ≠ '\n' := by
    rintro rfl
    cases hblank
  rw [readAll, if_neg hline, if_neg (by simp [hblank]), if_neg hc]
  split <;> cases hread.symm.trans ‹_›
  cases readAll line rest' <;> rfl

/-! ## Proper tokens -/

theorem proper_of_keyword {word : String} {t : Token} (h : keywords.lookup word = some t) : t.Proper := by
  obtain ⟨before, after, heq, -⟩ := List.lookup_eq_some_iff.1 h
  have hmem : (word, t) ∈ keywords := heq ▸ List.mem_append_right _ List.mem_cons_self
  simp only [keywords, List.mem_cons, Prod.mk.injEq, List.not_mem_nil, or_false] at hmem
  rcases hmem with ⟨-, rfl⟩ | ⟨-, rfl⟩ | ⟨-, rfl⟩ | ⟨-, rfl⟩ | ⟨-, rfl⟩ | ⟨-, rfl⟩ | ⟨-, rfl⟩ | ⟨-, rfl⟩
  all_goals trivial

theorem proper_of_nameOf? {word : List Char} {t : Token} (hparts : ∀ c ∈ word, isWordPart c = true)
    (hlookup : keywords.lookup (String.ofList word) = none) (h : nameOf? word = some t) : t.Proper := by
  have hkeywords : ∀ x ∈ ["skip", "assume", "assert", "true", "false"], keywords.lookup x ≠ none := by decide
  unfold nameOf? at h
  split at h
  · next c rest =>
    split at h
    · next hstart =>
      cases h
      refine ⟨?_, ?_, fun hmem => hkeywords _ hmem hlookup⟩
      · rw [String.toList_ofList]
        exact hstart
      · rw [String.toList_ofList]
        exact List.all_eq_true.2 hparts
    · cases h
  · cases h

theorem proper_of_ofWord? {word : List Char} {t : Token} (hparts : ∀ c ∈ word, isWordPart c = true)
    (h : ofWord? word = some t) : t.Proper := by
  unfold ofWord? at h
  split at h
  · next hlookup =>
    cases h
    exact proper_of_keyword hlookup
  · next hlookup =>
    split at h
    · split at h
      · unfold labelOf? at h
        split at h
        · next hlt =>
          cases h
          exact hlt
        · cases h
      · exact proper_of_nameOf? hparts hlookup h
    · exact proper_of_nameOf? hparts hlookup h

theorem proper_of_ofSign? {c : Char} {t : Token} (h : ofSign? c = some t) : t.Proper := by
  unfold ofSign? at h
  split at h <;> cases h <;> trivial

theorem proper_of_read {c : Char} {rest rest' : List Char} {t : Token} (h : read c rest = .ok (t, rest')) :
    t.Proper := by
  unfold read at h
  split at h
  · next hsign =>
    cases h
    exact proper_of_ofSign? hsign
  · split at h
    · split at h
      · cases h
        split <;> trivial
      · cases h
    · split at h
      · cases h
        trivial
      · split at h
        · next hstart =>
          split at h
          · next hword =>
            cases h
            refine proper_of_ofWord? (fun d hd => ?_) hword
            rcases List.mem_cons.1 hd with rfl | hd
            · exact isWordPart_of_start hstart
            · exact List.mem_takeWhile_imp hd
          · cases h
        · cases h

/-- The tokens of a text are proper. -/
theorem proper_of_readAll {line : Nat} {cs : List Char} {ps : List Placed} (h : readAll line cs = .ok ps) :
    ∀ t ∈ Parser.bare ps, t.Proper := by
  fun_induction readAll line cs generalizing ps with
  | case1 =>
    cases h
    exact fun t ht => absurd ht List.not_mem_nil
  | case2 line rest ih | case3 line c rest _ _ ih | case4 line rest _ _ _ ih => exact ih h
  | case5 | case6 => cases h
  | case7 line c rest _ _ _ t rest' hread _ ts _ ih =>
    cases h
    rw [Parser.bare_cons, List.forall_mem_cons]
    exact ⟨proper_of_read hread, ih ‹_›⟩

end Token

/-! ## Texts -/

open Token

/-- Whatever line it begins on, a text has these tokens. -/
def Reads (cs : List Char) (ts : List Token) : Prop := ∀ line, ∃ ps, readAll line cs = .ok ps ∧ Parser.bare ps = ts

namespace Reads

variable {cs : List Char} {ts : List Token}

theorem nil : Reads [] [] := fun line => ⟨[], by rw [readAll], rfl⟩

theorem newline (h : Reads cs ts) : Reads ('\n' :: cs) ts := by
  intro line
  rw [readAll, if_pos rfl]
  exact h (line + 1)

theorem blank (h : Reads cs ts) : Reads (' ' :: cs) ts := by
  intro line
  rw [readAll, if_neg (by decide), if_pos (by decide)]
  exact h line

theorem token {c : Char} {rest : List Char} {t : Token} (hblank : isBlank c = false) (hcomment : c ≠ '#')
    (hread : Token.read c rest = .ok (t, cs)) (h : Reads cs ts) : Reads (c :: rest) (t :: ts) := by
  intro line
  obtain ⟨ps, hps, rfl⟩ := h line
  refine ⟨⟨t, line⟩ :: ps, ?_, rfl⟩
  rw [readAll_of_ok hblank hcomment hread, hps]
  rfl

theorem sign {c : Char} {t : Token} (hsign : ofSign? c = some t) (h : Reads cs ts) : Reads (c :: cs) (t :: ts) := by
  have hread : Token.read c cs = .ok (t, cs) := by
    unfold Token.read
    rw [hsign]
  unfold ofSign? at hsign
  split at hsign
  case h_7 => cases hsign
  all_goals exact token (by decide) (by decide) hread h

theorem assign (h : Reads cs ts) : Reads (':' :: '=' :: cs) (.assign :: ts) :=
  token (by decide) (by decide) rfl h

theorem differs (h : Reads cs ts) : Reads ('!' :: '=' :: cs) (.differs :: ts) :=
  token (by decide) (by decide) rfl h

/-- A word ends where nothing follows that makes it longer. -/
theorem word {word : List Char} {t : Token} (hstart : word.head?.any isWordStart) (hparts : word.all isWordPart)
    (hword : ofWord? word = some t) (hs : Stops cs) (h : Reads cs ts) : Reads (word ++ cs) (t :: ts) := by
  obtain ⟨c, rest, rfl, hread⟩ := read_of_word hstart hparts hword hs
  have hpart := List.all_eq_true.1 hparts c List.mem_cons_self
  exact token (isBlank_eq_false hpart) (ne_of_part hpart rfl) hread h

theorem number (n : Nat) (hs : Stops cs) (h : Reads cs ts) : Reads (Nat.toDigits 10 n ++ cs) (.number n :: ts) := by
  have hdigits := isDigit_toDigits n
  have hstop : ∀ d ∈ cs.head?, d.isDigit = false := fun d hd => by
    by_contra hdigit
    exact absurd (isWordPart_of_digit (Bool.eq_true_of_not_eq_false hdigit)) (by simp [hs d hd])
  obtain ⟨c, rest, heq, hread⟩ := read_of_digits Nat.toDigits_ne_nil hdigits hstop
  rw [digitsValue_toDigits] at hread
  rw [heq] at hdigits ⊢
  have hpart := isWordPart_of_digit (hdigits c List.mem_cons_self)
  exact token (isBlank_eq_false hpart) (ne_of_part hpart rfl) hread h

end Reads

/-- A text that has these tokens wherever nothing follows that makes its last word longer. -/
def Lexes (s : List Char) (ts : List Token) : Prop := ∀ cs us, Stops cs → Reads cs us → Reads (s ++ cs) (ts ++ us)

namespace Lexes

variable {s s' : List Char} {t : Token} {ts ts' : List Token}

theorem nil : Lexes [] [] := fun _ _ _ h => h

theorem blank (h : Lexes s ts) : Lexes (' ' :: s) ts := fun cs us hs hcs => (h cs us hs hcs).blank

theorem sign {c : Char} (hsign : ofSign? c = some t) (h : Lexes s ts) : Lexes (c :: s) (t :: ts) :=
  fun cs us hs hcs => (h cs us hs hcs).sign hsign

theorem append (h : Lexes s ts) (hs : Stops s') (h' : Lexes s' ts') : Lexes (s ++ s') (ts ++ ts') := by
  intro cs us hcs hreads
  rw [List.append_assoc, List.append_assoc]
  exact h _ _ (hs.append hcs) (h' _ _ hcs hreads)

/-- A proper token is read from its own text. -/
theorem text (h : t.Proper) : Lexes t.text.toList [t] := by
  intro cs us hs hreads
  cases t with
  | ident x => exact .word h.head_isWordStart h.parts (ofWord?_name h) hs hreads
  | label n =>
    have htext : (Token.label n).text.toList = 'L' :: Nat.toDigits 10 n := by
      rw [Token.text, String.toList_append]
      exact congrArg (List.cons 'L') Nat.toList_repr
    rw [htext]
    refine .word rfl ?_ (ofWord?_label h) hs hreads
    exact List.all_eq_true.2 (List.forall_mem_cons.2
      ⟨rfl, fun d hd => isWordPart_of_digit (isDigit_toDigits n d hd)⟩)
  | number n =>
    have htext : (Token.number n).text.toList = Nat.toDigits 10 n := Nat.toList_repr
    rw [htext]
    exact .number n hs hreads
  | skip | assume | assert | always | never | sum | even | odd =>
    exact .word (by decide) (by decide) (by decide) hs hreads
  | leftParen | rightParen | plus | minus | equals | question => exact .sign rfl hreads
  | differs => exact .differs hreads
  | assign => exact .assign hreads

theorem parens (h : Lexes s ts) : Lexes ('(' :: (s ++ [')'])) (.leftParen :: (ts ++ [.rightParen])) :=
  .sign rfl (h.append (.cons rfl _) (.sign rfl .nil))

theorem spaced {a b : String} (h : Lexes a.toList ts) (h' : Lexes b.toList ts') :
    Lexes (a ++ " " ++ b).toList (ts ++ ts') := by
  rw [String.toList_append, String.toList_append, List.append_assoc]
  exact h.append (.cons rfl _) h'.blank

/-- A token, a blank and a text. -/
theorem before {a word : String} (ht : t.Proper) (hword : word = t.text ++ " ") (h : Lexes a.toList ts) :
    Lexes (word ++ a).toList (t :: ts) := by
  rw [hword]
  exact (text ht).spaced h

/-- A token between two texts, with a blank on either side of it. -/
theorem between {a b word : String} (ht : t.Proper) (hword : word = " " ++ (t.text ++ " "))
    (h : Lexes a.toList ts) (h' : Lexes b.toList ts') : Lexes (a ++ word ++ b).toList (ts ++ t :: ts') := by
  have htext : a ++ word ++ b = a ++ " " ++ (t.text ++ " " ++ b) := by simp only [hword, String.append_assoc]
  rw [htext]
  exact h.spaced (before ht rfl h')

end Lexes

/-- Phrases with blanks between them are read one after the other. -/
theorem exists_lexes_intercalate {α : Type} {S : α → List Token → Prop} {render : α → String} {as : List α}
    (h : ∀ a ∈ as, ∃ ts, S a ts ∧ Lexes (render a).toList ts) :
    ∃ ts, Sequence S as ts ∧ Lexes (" ".intercalate (as.map render)).toList ts := by
  rw [String.toList_intercalate, List.map_map]
  induction as with
  | nil => exact ⟨[], .nil, .nil⟩
  | cons a as ih =>
    rw [List.forall_mem_cons] at h
    obtain ⟨ts, hts, hlex⟩ := h.1
    obtain ⟨us, hus, hlexes⟩ := ih h.2
    refine ⟨ts ++ us, .cons hts hus, ?_⟩
    cases as with
    | nil =>
      cases hus
      rw [List.append_nil, List.map_singleton, List.intercalate_singleton]
      exact hlex
    | cons b bs =>
      rw [List.map_cons, List.map_cons, List.intercalate_cons_cons, List.append_assoc]
      exact hlex.append (.cons rfl _) hlexes.blank

end FlowFacts
