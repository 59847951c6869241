import SceneTokens.Decimal.Binary64
import SceneTokens.Lexing.Lexeme
import SceneTokens.Vocabulary.WordTable

/-!
# Tokens

A token is a lexeme together with its identity, the class it has in expressions, and its value
if it is a literal.
-/

namespace SceneTokens

/-- The value of a literal. -/
inductive LiteralValue where
  | float (value : Binary64)
  | string (units : List UInt16)
deriving DecidableEq, Repr

/-- A lexeme that was understood. -/
structure Token where
  lexeme : Lexeme
  id : TokenId
  expression : TokenId
  value : Option LiteralValue
deriving DecidableEq, Repr

namespace Token

/-- A token without a value. -/
def plain (lexeme : Lexeme) (id expression : TokenId) : Token :=
  ⟨lexeme, id, expression, none⟩

/-- The token with another value. -/
def withValue (t : Token) (value : LiteralValue) : Token :=
  { t with value := some value }

/-- The token of a word. -/
def ofWord (lexeme : Lexeme) (known : KnownWord) : Token :=
  plain lexeme known.id known.expression

/-- The token of a symbol. -/
def ofSymbol (lexeme : Lexeme) (id : TokenId) : Token :=
  plain lexeme id id.expressionClass

/-- The token of a number. In expressions it counts as a built-in that produces a float. -/
def ofFloat (lexeme : Lexeme) (value : Binary64) : Token :=
  (plain lexeme .float .floatFunct).withValue (.float value)

/-- The token of a string literal. -/
def ofString (lexeme : Lexeme) (units : List UInt16) : Token :=
  (plain lexeme .stringLiteral .stringLiteral).withValue (.string units)

/-- The token that introduces a directive. -/
def ofDirective (lexeme : Lexeme) : Token :=
  plain lexeme .hash .hash

/-- The fixed identity of a token: all words an author introduced are identifiers. -/
def fixedId (t : Token) : TokenId :=
  if t.id.isFixed then t.id else .identifier

/-- The value of a number. -/
def float? (t : Token) : Option Binary64 :=
  match t.value with
  | some (.float value) => some value
  | _ => none

/-- The value of a string literal. -/
def string? (t : Token) : Option (List UInt16) :=
  match t.value with
  | some (.string units) => some units
  | _ => none

end Token

end SceneTokens
