import SceneTokens.Lexing.Piece

/-!
# The grammar of scenes

The bytes of a scene, said without a scanner. Each category of lexemes has a language of its own,
and what a scanner may take from the front of a byte string is fixed by that language together
with the bytes that follow (`Spelled`): a word ends where no word byte follows, a number is the
longest one at its place, a string literal is the only one at its place, and a symbol is not the
start of something longer.

Between lexemes stand gaps (`Gap`), which are rows of blanks, comments, rejected bytes and a mark
at the very start. A construct that nothing closes (`Unclosed`) is a quote or an opened comment of
which no prefix is a literal or a comment.
-/

namespace SceneTokens

namespace Grammar

/-! ## Languages and prefixes -/

/-- `p` is the longest prefix of `bytes` in the language `L`. -/
def Longest (L : Bytes → Prop) (p bytes : Bytes) : Prop :=
  L p ∧ p <+: bytes ∧ ∀ q, L q → q <+: bytes → q.length ≤ p.length

/-- `p` is the only prefix of `bytes` in the language `L`. -/
def Sole (L : Bytes → Prop) (p bytes : Bytes) : Prop :=
  L p ∧ p <+: bytes ∧ ∀ q, L q → q <+: bytes → q = p

/-! ## Words and numbers -/

/-- A letter or an underscore, then letters, digits and underscores. -/
inductive Word : Bytes → Prop
  | mk {b : UInt8} {rest : Bytes} : Byte.isWordStart b = true →
      (∀ c ∈ rest, Byte.isWordByte c = true) → Word (b :: rest)

/-- One or more decimal digits. -/
def Digits (d : Bytes) : Prop :=
  d ≠ [] ∧ ∀ b ∈ d, Byte.isDigit b = true

/-- The part of a number before its exponent. -/
inductive Mantissa : Bytes → Prop
  | whole {w : Bytes} : Digits w → Mantissa w
  | decimal {w f : Bytes} : Digits w → Digits f → Mantissa (w ++ Byte.point :: f)
  | fraction {f : Bytes} : Digits f → Mantissa (Byte.point :: f)

/-- An exponent: its letter, a sign or none, and digits. -/
inductive Power : Bytes → Prop
  | plain {e : UInt8} {d : Bytes} : Exponent.isLetter e = true → Digits d → Power (e :: d)
  | signed {e s : UInt8} {d : Bytes} : Exponent.isLetter e = true → Byte.isSign s = true →
      Digits d → Power (e :: s :: d)

/-- A number as scenes spell it. It has no sign, and a point stands before a digit. -/
inductive Number : Bytes → Prop
  | plain {m : Bytes} : Mantissa m → Number m
  | scaled {m x : Bytes} : Mantissa m → Power x → Number (m ++ x)

/-! ## String literals -/

/-- The bytes between the quotes of a string literal: a backslash protects the byte behind it, and
a quote stands only where it is protected. -/
inductive LiteralBody : Bytes → Prop
  | nil : LiteralBody []
  | plain {b : UInt8} {p : Bytes} : b ≠ Byte.quote → b ≠ Byte.backslash → LiteralBody p →
      LiteralBody (b :: p)
  | guarded {c : UInt8} {p : Bytes} : LiteralBody p → LiteralBody (Byte.backslash :: c :: p)

/-- A string literal with its quotes. -/
inductive Literal : Bytes → Prop
  | mk {p : Bytes} : LiteralBody p → Literal (Byte.quote :: (p ++ [Byte.quote]))

/-! ## Symbols -/

/-- A printable ASCII byte other than letters, digits, the underscore and the double quote. -/
structure Punctuation (b : UInt8) : Prop where
  visible : Byte.isVisible b = true
  not_letter : Byte.isLetter b = false
  not_digit : Byte.isDigit b = false
  not_quote : b ≠ Byte.quote
  not_underscore : b ≠ Byte.underscore

/-- The bytes an equals sign completes to a relation. -/
def comparisons : Bytes := [Byte.bang, Byte.less, Byte.greater]

/-- A symbol in front of `after`: a relation, or one byte that starts nothing longer there. -/
inductive Sign : Bytes → Bytes → Prop
  | relation {b : UInt8} {after : Bytes} : b ∈ comparisons → Sign [b, Byte.equals] after
  | single {b : UInt8} {after : Bytes} : Punctuation b →
      (b ∈ comparisons → after.head? ≠ some Byte.equals) →
      (b = Byte.slash → after.head? ≠ some Byte.slash ∧ after.head? ≠ some Byte.star) →
      (b = Byte.point → ∀ c, after.head? = some c → Byte.isDigit c = false) → Sign [b] after

/-! ## Lexemes -/

/-- What a lexeme of each category is, in front of `after`. -/
def Spelled : Category → Bytes → Bytes → Prop
  | .word, raw, after => Word raw ∧ ∀ c, after.head? = some c → Byte.isWordByte c = false
  | .number, raw, after => Longest Number raw (raw ++ after)
  | .string, raw, after => Sole Literal raw (raw ++ after)
  | .symbol, raw, after => Sign raw after

/-! ## Comments -/

/-- What follows the opening sign of a block comment, closing sign included, with at most `depth`
comments open inside it at once. A byte that belongs to neither sign starts none: where comments
do not nest, only the closing sign counts. -/
inductive CommentBody (nested : Bool) : Nat → Bytes → Prop
  | close {depth : Nat} : CommentBody nested depth [Byte.star, Byte.slash]
  | byte {depth : Nat} {b : UInt8} {w : Bytes} :
      (nested = true → ¬[Byte.slash, Byte.star] <+: b :: w) →
      ¬[Byte.star, Byte.slash] <+: b :: w → CommentBody nested depth w →
      CommentBody nested depth (b :: w)
  | comment {depth : Nat} {u w : Bytes} : nested = true → CommentBody nested depth u →
      CommentBody nested (depth + 1) w →
      CommentBody nested (depth + 1) (Byte.slash :: Byte.star :: (u ++ w))

/-- A block comment. It counts among the comments that are open at once. -/
inductive BlockComment (nested : Bool) : Bytes → Prop
  | mk {w : Bytes} : CommentBody nested (Comment.maxDepth - 1) w →
      BlockComment nested (Byte.slash :: Byte.star :: w)

/-! ## Gaps -/

/-- One thing between lexemes that starts at `offset` and stands in front of `after`. -/
inductive Trivia (nested : Bool) : Nat → Bytes → Bytes → Prop
  | mark {after : Bytes} : Trivia nested 0 Piece.mark after
  | blank {offset : Nat} {b : UInt8} {after : Bytes} : Byte.isBlank b = true →
      Trivia nested offset [b] after
  | lineComment {offset : Nat} {body after : Bytes} : Byte.newline ∉ body →
      (∀ c, after.head? = some c → c = Byte.newline) →
      Trivia nested offset (Byte.slash :: Byte.slash :: body) after
  | blockComment {offset : Nat} {raw after : Bytes} : BlockComment nested raw →
      Trivia nested offset raw after
  | rejected {offset : Nat} {b : UInt8} {after : Bytes} : Byte.isBlank b = false →
      Byte.isVisible b = false → Trivia nested offset [b] after

/-- The bytes between two lexemes, or before the first. -/
inductive Gap (nested : Bool) : Nat → Bytes → Bytes → Prop
  | nil {offset : Nat} {after : Bytes} : Gap nested offset [] after
  | cons {offset : Nat} {raw gap after : Bytes} : Trivia nested offset raw (gap ++ after) →
      Gap nested (offset + raw.length) gap after → Gap nested offset (raw ++ gap) after

/-- A construct that is opened and not closed within `bytes`, or nests too deep. -/
inductive Unclosed (nested : Bool) (bytes : Bytes) : Prop
  | literal : bytes.head? = some Byte.quote → (∀ q, Literal q → ¬q <+: bytes) →
      Unclosed nested bytes
  | comment : [Byte.slash, Byte.star] <+: bytes → (∀ q, BlockComment nested q → ¬q <+: bytes) →
      Unclosed nested bytes

/-- The bytes after the last lexeme: a gap, and a construct that is not closed or nothing. -/
inductive Remainder (nested : Bool) : Nat → Bytes → Prop
  | closed {offset : Nat} {gap : Bytes} : Gap nested offset gap [] → Remainder nested offset gap
  | opened {offset : Nat} {gap rest : Bytes} : Gap nested offset gap rest →
      Unclosed nested rest → Remainder nested offset (gap ++ rest)

end Grammar

end SceneTokens
