import FlowFacts.Text.Extender
import FlowFacts.Text.Graphic

/-!
Names between quotation marks, as messages show them. A quotation mark or a backslash inside a name
has a backslash before it, and a character that cannot stand on the page by itself is written by its
number.
-/

namespace FlowFacts

/-- A character by its number in base sixteen. -/
def numbered (c : Char) : String :=
  "\\u\x7b" ++ String.ofList (Nat.toDigits 16 c.toNat) ++ "\x7d"

/-- Whether a character can be seen, and told from its neighbours, between quotation marks. -/
def showsItself (c : Char) : Bool := isGraphic c && !isIgnorable c && !isExtender c

def quoteChar (c : Char) : String :=
  match c with
  | '"' => "\\\""
  | '\\' => "\\\\"
  | '\n' => "\\n"
  | '\r' => "\\r"
  | '\t' => "\\t"
  | '\x00' => "\\0"
  | c => if showsItself c then c.toString else numbered c

def quoted (name : String) : String := "\"" ++ String.join (name.toList.map quoteChar) ++ "\""

/-- Quoted names in brackets. -/
def quotedList (names : List String) : String := "[" ++ ", ".intercalate (names.map quoted) ++ "]"

end FlowFacts
