import FlowFacts.Program.Token
import FlowFacts.Text.Characters

/-!
Reading a text as tokens. Blanks separate tokens, a number sign starts a comment that ends with its
line, and a word or a number is as long as it can be.
-/

namespace FlowFacts

namespace Token

def isWordStart (c : Char) : Bool := c.isAlpha || c == '_'

def isWordPart (c : Char) : Bool := c.isAlphanum || c == '_'

/-- The number that a list of decimal digits writes. -/
def digitsValue (digits : List Char) : Nat :=
  digits.foldl (fun n d => 10 * n + (d.toNat - '0'.toNat)) 0

/-- The label that a word writes after its `L`. Labels have 64 bits. -/
def labelOf? (digits : List Char) : Option Token :=
  if digitsValue digits < UInt64.size then some (label (digitsValue digits)) else none

/-- Names start with a small letter or an underscore. -/
def nameOf? (word : List Char) : Option Token :=
  match word with
  | c :: _ => if c.isLower || c == '_' then some (ident (String.ofList word)) else none
  | [] => none

/-- The token that a word is: a keyword, a label or a name. -/
def ofWord? (word : List Char) : Option Token :=
  match keywords.lookup (String.ofList word) with
  | some t => some t
  | none =>
    match word with
    | 'L' :: digit :: digits =>
      if (digit :: digits).all Char.isDigit then labelOf? (digit :: digits) else nameOf? word
    | _ => nameOf? word

/-- Signs of a single character. -/
def ofSign? : Char → Option Token
  | '(' => some leftParen
  | ')' => some rightParen
  | '+' => some plus
  | '-' => some minus
  | '=' => some equals
  | '?' => some question
  | _ => none

/-- The token that starts with a given character, and what follows it. -/
def read (c : Char) (rest : List Char) : Except Issue (Token × List Char) :=
  match ofSign? c with
  | some t => .ok (t, rest)
  | none =>
    if c = ':' ∨ c = '!' then
      match rest with
      | '=' :: rest => .ok (if c = ':' then assign else differs, rest)
      | _ => .error (.missingEquals c)
    else if c.isDigit then
      .ok (number (digitsValue (c :: rest.takeWhile Char.isDigit)), rest.dropWhile Char.isDigit)
    else if isWordStart c then
      match ofWord? (c :: rest.takeWhile isWordPart) with
      | some t => .ok (t, rest.dropWhile isWordPart)
      | none => .error (.unexpectedWord (String.ofList (c :: rest.takeWhile isWordPart)))
    else .error (.unexpectedCharacter c)

theorem length_dropWhile_le {α : Type} (p : α → Bool) (xs : List α) :
    (xs.dropWhile p).length ≤ xs.length :=
  (List.dropWhile_sublist p).length_le

theorem length_of_read {c : Char} {rest rest' : List Char} {t : Token}
    (h : read c rest = .ok (t, rest')) : rest'.length ≤ rest.length := by
  unfold read at h
  split at h
  · cases h; exact Nat.le_refl _
  · split at h
    · split at h
      · cases h; simp
      · cases h
    · split at h
      · cases h; exact length_dropWhile_le _ _
      · split at h
        · split at h
          · cases h; exact length_dropWhile_le _ _
          · cases h
        · cases h

/-- The tokens of a text that begins on a given line. -/
def readAll (line : Nat) : List Char → Except ParseError (List Placed)
  | [] => .ok []
  | c :: rest =>
    if c = '\n' then readAll (line + 1) rest
    else if isBlank c then readAll line rest
    else if c = '#' then
      have := length_dropWhile_le (· ≠ '\n') rest
      readAll line (rest.dropWhile (· ≠ '\n'))
    else
      match h : read c rest with
      | .error issue => .error ⟨line, issue⟩
      | .ok (t, rest') =>
        have := length_of_read h
        match readAll line rest' with
        | .error e => .error e
        | .ok ts => .ok (⟨t, line⟩ :: ts)
termination_by cs => cs.length
decreasing_by all_goals simp only [List.length_cons]; omega

end Token

end FlowFacts
