/-!
# Bytes and their classes

Scene files are byte strings in no particular encoding, so the lexical level works on lists
of bytes. This module names the bytes the lexical rules mention and the ASCII classes they
use: blanks, digits, letters, the bytes that start and continue a word, printable bytes, and
the bytes outside ASCII.
-/

namespace SceneTokens

/-- A byte string. -/
abbrev Bytes := List UInt8

/-- The UTF-8 bytes of a text. -/
def Bytes.ofString (s : String) : Bytes :=
  s.toUTF8.data.toList

namespace Byte

/-! ## Named bytes -/

def newline : UInt8 := 0x0A
def carriageReturn : UInt8 := 0x0D
def space : UInt8 := 0x20
def bang : UInt8 := 0x21
def quote : UInt8 := 0x22
def hash : UInt8 := 0x23
def star : UInt8 := 0x2A
def plus : UInt8 := 0x2B
def minus : UInt8 := 0x2D
def point : UInt8 := 0x2E
def slash : UInt8 := 0x2F
def less : UInt8 := 0x3C
def equals : UInt8 := 0x3D
def greater : UInt8 := 0x3E
def backslash : UInt8 := 0x5C
def underscore : UInt8 := 0x5F

/-! ## Classes -/

/-- A blank: tab, newline, form feed, carriage return or space. The vertical tab is none. -/
def isBlank (b : UInt8) : Bool :=
  b == 0x20 || b == 0x09 || b == 0x0A || b == 0x0C || b == 0x0D

/-- A decimal digit. -/
def isDigit (b : UInt8) : Bool :=
  0x30 ≤ b && b ≤ 0x39

/-- An ASCII letter of either case. -/
def isLetter (b : UInt8) : Bool :=
  (0x41 ≤ b && b ≤ 0x5A) || (0x61 ≤ b && b ≤ 0x7A)

/-- A byte a word may start with. -/
def isWordStart (b : UInt8) : Bool :=
  isLetter b || b == underscore

/-- A byte a word may go on with. -/
def isWordByte (b : UInt8) : Bool :=
  isLetter b || isDigit b || b == underscore

/-- A visible ASCII byte. -/
def isVisible (b : UInt8) : Bool :=
  0x21 ≤ b && b ≤ 0x7E

/-- A byte of the ASCII range. -/
def isAscii (b : UInt8) : Bool :=
  b < 0x80

/-- A plus or a minus sign. -/
def isSign (b : UInt8) : Bool :=
  b == plus || b == minus

/-- The value of a hexadecimal digit of either case. -/
def hexValue? (b : UInt8) : Option Nat :=
  if isDigit b then some (b.toNat - 0x30)
  else if 0x61 ≤ b && b ≤ 0x66 then some (b.toNat - 0x61 + 10)
  else if 0x41 ≤ b && b ≤ 0x46 then some (b.toNat - 0x41 + 10)
  else none

/-- The value of a decimal digit. -/
def digitValue (b : UInt8) : Nat :=
  b.toNat - 0x30

end Byte

end SceneTokens
