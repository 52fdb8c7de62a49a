/-!
Tokens of program texts, and what can be wrong with a text.
-/

namespace FlowFacts

inductive Token where
  | ident (name : String)
  | label (number : Nat)
  | number (value : Nat)
  | skip
  | assume
  | assert
  | always
  | never
  | sum
  | even
  | odd
  | leftParen
  | rightParen
  | plus
  | minus
  | equals
  | differs
  | assign
  | question
  deriving DecidableEq

namespace Token

/-- The words that are not names. -/
def keywords : List (String × Token) :=
  [("skip", skip), ("assume", assume), ("assert", assert), ("true", always), ("false", never),
    ("SUM", sum), ("EVEN", even), ("ODD", odd)]

def text : Token → String
  | ident name => name
  | label n => "L" ++ toString n
  | number n => toString n
  | skip => "skip"
  | assume => "assume"
  | assert => "assert"
  | always => "true"
  | never => "false"
  | sum => "SUM"
  | even => "EVEN"
  | odd => "ODD"
  | leftParen => "("
  | rightParen => ")"
  | plus => "+"
  | minus => "-"
  | equals => "="
  | differs => "!="
  | assign => ":="
  | question => "?"

/-- A token as messages show it. -/
def quoted (t : Token) : String := "`" ++ t.text ++ "`"

end Token

/-- A token and the line it stands on, counted from one. -/
structure Placed where
  token : Token
  line : Nat
  deriving DecidableEq

/-- What a reader was looking for. -/
inductive Wanted where
  | aVariable
  | aLabel
  | aNumber
  | aStatement
  | aValue
  | aComparison
  | anAtom
  | token (t : Token)
  deriving DecidableEq

def Wanted.message : Wanted → String
  | aVariable => "a variable"
  | aLabel => "a label"
  | aNumber => "a number"
  | aStatement => "a statement"
  | aValue => "a value"
  | aComparison => "`=` or `!=`"
  | anAtom => "`EVEN`, `ODD` or `SUM`"
  | token t => t.quoted

/-- What is wrong with a text. -/
inductive Issue where
  | unexpectedCharacter (c : Char)
  | unexpectedWord (word : String)
  /-- A colon or an exclamation mark stands alone. -/
  | missingEquals (c : Char)
  | expected (wanted : Wanted) (found : Option Token)
  | declaredTwice (name : String)
  deriving DecidableEq

def Issue.message : Issue → String
  | unexpectedCharacter c => "unexpected character `" ++ c.toString ++ "`"
  | unexpectedWord word => "unexpected word `" ++ word ++ "`"
  | missingEquals c => "expected `=` after `" ++ c.toString ++ "`"
  | expected wanted (some t) => "expected " ++ wanted.message ++ ", found " ++ t.quoted
  | expected wanted none => "expected " ++ wanted.message ++ ", found end of input"
  | declaredTwice name => "variable `" ++ name ++ "` declared twice"

/-- Why a text is not a program, and on which line. -/
structure ParseError where
  line : Nat
  issue : Issue
  deriving DecidableEq

def ParseError.message (e : ParseError) : String :=
  "parse error at line " ++ toString e.line ++ ": " ++ e.issue.message

end FlowFacts
