import SceneTokens.Decimal.Numeral
import SceneTokens.Event
import SceneTokens.Quoted.Encoding
import SceneTokens.Vocabulary.Symbol

/-!
# Pieces of a scene

A scene is a row of pieces: the lexemes and what stands between them, which is blanks, comments,
a byte order mark at the very start, and bytes that start nothing. `Piece.cut` cuts the piece at
the front of a byte string; a construct that is not closed takes all that is left. Every piece
has at least one byte (`Piece.cut_raw_ne_nil`), so cutting comes to an end.
-/

namespace SceneTokens

/-- The kinds of pieces. -/
inductive PieceKind where
  /-- The mark that may stand at the start of a UTF-8 file. -/
  | byteOrderMark
  /-- A single blank. -/
  | blank
  /-- A comment up to the end of its line. -/
  | lineComment
  /-- A block comment. -/
  | blockComment
  /-- A block comment that is not closed. -/
  | unclosedComment
  /-- A block comment that nests too deep. -/
  | deepComment
  /-- A string literal that is not closed. -/
  | unclosedString
  /-- A byte that starts nothing. -/
  | rejected (byte : UInt8)
  /-- A lexeme. -/
  | lexeme (category : Category)
deriving DecidableEq, Repr

/-- A piece of a scene: its kind and its bytes. -/
structure Piece where
  kind : PieceKind
  raw : Bytes
deriving DecidableEq, Repr

namespace Piece

/-! ## Numbers and string literals -/

/-- The point of a number and the digits after it, if a digit follows the point. -/
def fraction : Bytes → Bytes
  | [] => []
  | b :: rest =>
    let digits := rest.takeWhile Byte.isDigit
    if b = Byte.point && !digits.isEmpty then b :: digits else []

/-- The number at the front of a byte string: digits, a fraction and an exponent, each as far as
it is there. -/
def number (bytes : Bytes) : Bytes :=
  let mantissa := bytes.takeWhile Byte.isDigit ++ fraction (bytes.dropWhile Byte.isDigit)
  let exponent := Exponent.read? (bytes.drop mantissa.length)
  mantissa ++ (exponent.map Exponent.text).getD []

/-- The bytes of a string literal behind its opening quote, closing quote included, or `none` if
it is not closed. A backslash keeps the byte after it from being a quote or a backslash. -/
def literal : Bytes → Option Bytes
  | [] => none
  | [b] => if b = Byte.quote then some [b] else none
  | b :: c :: rest =>
    if b = Byte.quote then some [b]
    else if b = Byte.backslash then (literal rest).map fun body => b :: c :: body
    else (literal (c :: rest)).map fun body => b :: body

/-! ## Cutting -/

/-- The byte order mark of UTF-8. -/
def mark : Bytes := [0xEF, 0xBB, 0xBF]

/-- The piece that starts with a slash and a star; `rest` is what follows the slash. -/
def blockComment (nested : Bool) (rest : Bytes) : Piece :=
  match Comment.body nested 0 rest.tail with
  | .closed body => ⟨.blockComment, Byte.slash :: Byte.star :: body⟩
  | .unclosed => ⟨.unclosedComment, Byte.slash :: rest⟩
  | .tooDeep => ⟨.deepComment, Byte.slash :: rest⟩

/-- The piece that starts with a double quote; `rest` is what follows the quote. -/
def stringLiteral (rest : Bytes) : Piece :=
  match literal rest with
  | some body => ⟨.lexeme .string, Byte.quote :: body⟩
  | none => ⟨.unclosedString, Byte.quote :: rest⟩

/-- Whether a number starts with `b` before `rest`. -/
def startsNumber (b : UInt8) (rest : Bytes) : Bool :=
  Byte.isDigit b || (b == Byte.point && rest.head?.any Byte.isDigit)

/-- The piece at the front of `b :: rest`. A byte order mark counts only at the start of a
source. -/
def cut (nested atStart : Bool) (b : UInt8) (rest : Bytes) : Piece :=
  if atStart && mark.isPrefixOf (b :: rest) then ⟨.byteOrderMark, mark⟩
  else if Byte.isBlank b then ⟨.blank, [b]⟩
  else if b = Byte.slash ∧ rest.head? = some Byte.slash then
    ⟨.lineComment, b :: rest.takeWhile (· != Byte.newline)⟩
  else if b = Byte.slash ∧ rest.head? = some Byte.star then blockComment nested rest
  else if Byte.isWordStart b then ⟨.lexeme .word, b :: rest.takeWhile Byte.isWordByte⟩
  else if startsNumber b rest then ⟨.lexeme .number, number (b :: rest)⟩
  else if b = Byte.quote then stringLiteral rest
  else if Symbol.opensRelation b ∧ rest.head? = some Byte.equals then
    ⟨.lexeme .symbol, [b, Byte.equals]⟩
  else if Byte.isVisible b then ⟨.lexeme .symbol, [b]⟩
  else ⟨.rejected b, [b]⟩

theorem number_ne_nil {b : UInt8} {rest : Bytes} (h : startsNumber b rest = true) :
    number (b :: rest) ≠ [] := by
  by_cases hd : Byte.isDigit b = true
  · simp [number, hd]
  · obtain ⟨rfl, c, hc, hcd⟩ : b = Byte.point ∧ ∃ c, rest.head? = some c ∧ Byte.isDigit c := by
      simpa [startsNumber, hd, Option.any_eq_true] using h
    cases rest with
    | nil => simp at hc
    | cons c' tail =>
      obtain rfl : c' = c := by simpa using hc
      have hp : Byte.isDigit Byte.point = false := by decide
      simp [number, fraction, hp, hcd]

/-- Every piece takes at least one byte, so cutting pieces comes to an end. -/
theorem cut_raw_ne_nil (nested atStart : Bool) (b : UInt8) (rest : Bytes) :
    (cut nested atStart b rest).raw ≠ [] := by
  unfold cut
  split
  · simp [mark]
  split
  · simp
  split
  · simp
  split
  · unfold blockComment
    split <;> simp
  split
  · simp
  split
  · rename_i h
    exact number_ne_nil h
  split
  · unfold stringLiteral
    split <;> simp
  split
  · simp
  split <;> simp

/-! ## What a piece amounts to -/

/-- The text of a piece as a lexeme: its bytes, those of a string literal transcoded. -/
def text (encoding : Encoding) (p : Piece) : Bytes :=
  if p.kind = .lexeme .string then encoding.transcodeAll p.raw else p.raw

/-- The lexeme a piece at a given position is, if it is one. -/
def lexeme? (encoding : Encoding) (position : Position) (p : Piece) : Option Lexeme :=
  match p.kind with
  | .lexeme category => some ⟨category, p.text encoding, position⟩
  | _ => none

/-- What is reported of a piece at a given position of a named source. -/
def events (encoding : Encoding) (source : String) (position : Position) (p : Piece) :
    List Event :=
  match p.kind with
  | .rejected byte => [.byteSkipped byte source position]
  | .unclosedString => [.stringUnclosed source position]
  | .unclosedComment => [.commentUnclosed position]
  | .deepComment => [.commentTooDeep position]
  | .lexeme .string =>
    if encoding.substitutes p.raw then [.bytesReplaced source position] else []
  | _ => []

end Piece

end SceneTokens
