import SceneTokens.Bytes

/-!
# Decimal numerals

A numeral is an optional sign, digits with an optional point among them, and an optional
exponent. `Numeral.text` writes one; `Numeral.read?` finds the longest one at the front of a
byte string. What a numeral denotes is `(-1) ^ sign · mantissa · 10 ^ scale`, kept exact as a
natural number and an integer.
-/

namespace SceneTokens

/-- The exponent of a numeral: the letter, a sign, and at least one digit. -/
structure Exponent where
  letter : UInt8
  sign : Option UInt8
  digits : Bytes
deriving DecidableEq, Repr

/-- A decimal numeral. `fraction` is `none` if there is no point; after a point there may be
no digit, if there is one before it. -/
structure Numeral where
  sign : Option UInt8
  whole : Bytes
  fraction : Option Bytes
  exponent : Option Exponent
deriving DecidableEq, Repr

namespace Numeral

/-! ## Digits and signs -/

/-- The number a string of decimal digits denotes. -/
def valueOf (digits : Bytes) : Nat :=
  digits.foldl (fun value b => value * 10 + Byte.digitValue b) 0

/-- A sign at the front, and what follows it. -/
def splitSign : Bytes → Option UInt8 × Bytes
  | [] => (none, [])
  | b :: rest => if Byte.isSign b then (some b, rest) else (none, b :: rest)

/-- Whether a sign makes its number negative. -/
def isMinus (sign : Option UInt8) : Bool :=
  sign == some Byte.minus

end Numeral

namespace Exponent

/-- The letter that introduces an exponent. -/
def isLetter (b : UInt8) : Bool :=
  b == 0x65 || b == 0x45

/-- How an exponent is written. -/
def text (e : Exponent) : Bytes :=
  e.letter :: (e.sign.toList ++ e.digits)

/-- The number an exponent denotes. -/
def value (e : Exponent) : Int :=
  if Numeral.isMinus e.sign then -(Numeral.valueOf e.digits : Int) else Numeral.valueOf e.digits

/-- The exponent at the front of a byte string. The letter alone, or with a sign and no digit
after it, is no exponent. -/
def read? : Bytes → Option Exponent
  | [] => none
  | b :: rest =>
    if isLetter b then
      let (sign, tail) := Numeral.splitSign rest
      let digits := tail.takeWhile Byte.isDigit
      if digits.isEmpty then none else some ⟨b, sign, digits⟩
    else none

end Exponent

namespace Numeral

/-! ## Writing and reading -/

/-- The point and the digits after it, if there is a point. -/
def fractionText (fraction : Option Bytes) : Bytes :=
  match fraction with
  | none => []
  | some digits => Byte.point :: digits

/-- How a numeral is written. -/
def text (n : Numeral) : Bytes :=
  n.sign.toList ++ n.whole ++ fractionText n.fraction ++
    (n.exponent.map Exponent.text).getD []

/-- The digits after a point at the front of a byte string, if there is a point. -/
def readFraction? : Bytes → Option Bytes
  | [] => none
  | b :: rest => if b = Byte.point then some (rest.takeWhile Byte.isDigit) else none

/-- The longest numeral at the front of a byte string. -/
def read? (bytes : Bytes) : Option Numeral :=
  let (sign, unsigned) := splitSign bytes
  let whole := unsigned.takeWhile Byte.isDigit
  let afterWhole := unsigned.dropWhile Byte.isDigit
  let fraction := readFraction? afterWhole
  if whole.isEmpty && (fraction.getD []).isEmpty then none
  else
    let afterFraction := afterWhole.drop (fractionText fraction).length
    some ⟨sign, whole, fraction, Exponent.read? afterFraction⟩

/-- Number of bytes of the longest numeral at the front of a byte string, 0 if there is none. -/
def prefixSize (bytes : Bytes) : Nat :=
  match read? bytes with
  | none => 0
  | some n => n.text.length

/-! ## What a numeral denotes -/

/-- Whether a numeral has a minus sign. -/
def isNegative (n : Numeral) : Bool :=
  isMinus n.sign

/-- All digits before the exponent, in order. -/
def digits (n : Numeral) : Bytes :=
  n.whole ++ n.fraction.getD []

/-- The number the digits denote, the point left out. -/
def mantissa (n : Numeral) : Nat :=
  valueOf n.digits

/-- The power of ten that puts the point back and applies the exponent. -/
def scale (n : Numeral) : Int :=
  (n.exponent.map Exponent.value).getD 0 - (n.fraction.getD []).length

end Numeral

end SceneTokens
