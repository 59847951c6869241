import SceneTokens.Decimal.Numeral

/-!
# Binary64 numbers from decimal numerals

A binary64 number is its 64-bit pattern. `Binary64.ofNumeral` gives the number nearest to the
exact value of a numeral, a tie going to the even significand, with gradual underflow and
overflow to infinity, and keeps the sign of zero. All arithmetic is exact, on natural numbers
and integers.

A positive ratio `n / d` is written as `s · 2 ^ q` with `s` rounded to a natural number, where
`q` is as small as leaves `s` at most 53 bits and is at least `-1074`. The pattern is then
`(q + 1074) · 2 ^ 52 + s`: the carry of a significand that rounds up to `2 ^ 53` moves into the
exponent field by itself, and a pattern past the largest finite one is infinity.
-/

namespace SceneTokens

/-- A binary64 number, as its bit pattern. -/
structure Binary64 where
  bits : UInt64
deriving DecidableEq, Repr

namespace Binary64

/-! ## Rounding -/

/-- The natural number nearest to `n / d`, the even one of two. -/
def nearest (n d : Nat) : Nat :=
  let quotient := n / d
  let twice := 2 * (n % d)
  if twice < d then quotient
  else if d < twice then quotient + 1
  else quotient + quotient % 2

/-- `n / d` divided by `2 ^ q`, as a ratio again. -/
def downscale (n d : Nat) (q : Int) : Nat × Nat :=
  if 0 ≤ q then (n, d <<< q.toNat) else (n <<< (-q).toNat, d)

/-- The exponent of the largest power of two that is at most `n / d`. -/
def magnitude (n d : Nat) : Int :=
  let guess : Int := (n.log2 : Int) - d.log2
  let (top, bottom) := downscale n d guess
  if bottom ≤ top then guess else guess - 1

/-- Least exponent of a unit in the last place. -/
def leastUnit : Int := -1074

/-- The exponent of the unit in the last place for `n / d`. -/
def unit (n d : Nat) : Int :=
  max (magnitude n d - 52) leastUnit

/-- Pattern of positive infinity. -/
def infinityBits : Nat := 0x7FF0000000000000

/-- The pattern nearest to the positive ratio `n / d`. -/
def patternOfRatio (n d : Nat) : Nat :=
  let q := unit n d
  let (top, bottom) := downscale n d q
  min infinityBits ((q - leastUnit).toNat <<< 52 + nearest top bottom)

/-! ## Decimals -/

/-- The powers of ten outside which every decimal is an overflow or rounds to zero. -/
def overflowPower : Int := 310
def underflowPower : Int := -330

/-- The pattern nearest to `mantissa · 10 ^ scale`, where `count` is the number of digits of the
mantissa. Values far out of range are settled by their number of digits alone, so that a huge
exponent asks for no huge power. -/
def patternOfDecimal (mantissa count : Nat) (scale : Int) : Nat :=
  if mantissa = 0 then 0
  else if overflowPower < count + scale then infinityBits
  else if count + scale < underflowPower then 0
  else if 0 ≤ scale then patternOfRatio (mantissa * Nat.pow 10 scale.toNat) 1
  else patternOfRatio mantissa (Nat.pow 10 (-scale).toNat)

/-- The digits of a numeral from the first that is not zero. -/
def significant (n : Numeral) : Bytes :=
  n.digits.dropWhile (· == 0x30)

/-- The bit that makes a pattern negative. -/
def signBit : Nat := 0x8000000000000000

/-- A magnitude's pattern with a sign. -/
def signed (negative : Bool) (pattern : Nat) : Binary64 :=
  ⟨(if negative then signBit + pattern else pattern).toUInt64⟩

/-- The binary64 number nearest to a numeral. -/
def ofNumeral (n : Numeral) : Binary64 :=
  signed n.isNegative (patternOfDecimal n.mantissa (significant n).length n.scale)

/-- The number at the front of a byte string, leading blanks aside. -/
def read? (bytes : Bytes) : Option Binary64 :=
  (Numeral.read? (bytes.dropWhile Byte.isBlank)).map ofNumeral

end Binary64

end SceneTokens
