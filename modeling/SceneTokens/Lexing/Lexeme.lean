import SceneTokens.Input.Position
import SceneTokens.Utf8.Text

/-!
# Lexemes

A lexeme is a piece of a scene that means something: a word, a number, a string literal or a
symbol, with its bytes and the position of its first byte.
-/

namespace SceneTokens

/-- The kinds of lexemes. -/
inductive Category where
  | word
  | number
  | string
  | symbol
deriving DecidableEq, Repr

/-- How diagnostics name a category. -/
def Category.text : Category → String
  | word => "Word"
  | number => "FloatLiteral"
  | string => "StringLiteral"
  | symbol => "Other"

/-- A lexeme. The text of a string literal includes its quotes. -/
structure Lexeme where
  category : Category
  text : Bytes
  position : Position
deriving DecidableEq, Repr

namespace Lexeme

/-- The text as shown to a person. -/
def shown (l : Lexeme) : String :=
  Utf8.text l.text

/-- Whether a lexeme is the sign that introduces a directive. -/
def isHash (l : Lexeme) : Bool :=
  l.category == .symbol && l.text == [Byte.hash]

end Lexeme

end SceneTokens
