import SceneTokens.Bytes
import SceneTokens.Vocabulary.Identity

/-!
# Symbols

A symbol is one visible ASCII byte that is neither a letter, a digit, an underscore nor a double
quote, or one of the relations `!=`, `<=` and `>=`. Each has an identity of its own.
-/

namespace SceneTokens

namespace Symbol

/-- The symbols of one byte. -/
def single : List (UInt8 × TokenId) := [
  (0x21, .exclamation),
  (0x23, .hash),
  (0x24, .dollar),
  (0x25, .percent),
  (0x26, .ampersand),
  (0x27, .singleQuote),
  (0x28, .leftParen),
  (0x29, .rightParen),
  (0x2A, .star),
  (0x2B, .plus),
  (0x2C, .comma),
  (0x2D, .dash),
  (0x2E, .period),
  (0x2F, .slash),
  (0x3A, .colon),
  (0x3B, .semiColon),
  (0x3C, .leftAngle),
  (0x3D, .equals),
  (0x3E, .rightAngle),
  (0x3F, .question),
  (0x40, .atSign),
  (0x5B, .leftSquare),
  (0x5C, .backSlash),
  (0x5D, .rightSquare),
  (0x5E, .hat),
  (0x60, .backQuote),
  (0x7B, .leftCurly),
  (0x7C, .bar),
  (0x7D, .rightCurly),
  (0x7E, .tilde)]

/-- The symbols of two bytes, by their first byte; the second is an equals sign. -/
def relations : List (UInt8 × TokenId) := [
  (Byte.bang, .relNe),
  (Byte.less, .relLe),
  (Byte.greater, .relGe)]

/-- Whether an equals sign may complete a byte to a relation. -/
def opensRelation (b : UInt8) : Bool :=
  relations.any fun r => r.1 == b

/-- The identity of a symbol. -/
def classify? : Bytes → Option TokenId
  | [b] => single.lookup b
  | [b, c] => if c = Byte.equals then relations.lookup b else none
  | _ => none

end Symbol

end SceneTokens
