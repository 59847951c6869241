import SceneTokens.Toml.Item
import SceneTokens.Toml.Text

/-!
# Numbers, dates and truth values of TOML

Digits may be grouped by single underscores. A decimal number has no leading zero; an integer
has to fit in 64 bits; a float that overflows to positive infinity is refused, and infinity is
written out instead. Dates and times are checked against the calendar and the clock and kept as
they were written. No result rests on a property of these values.
-/

namespace SceneTokens

namespace Toml

/-! ## Digits -/

/-- Digits with single underscores between them, continued. -/
def moreDigits (isDigit : Char → Bool) : List Char → List Char × List Char
  | [] => ([], [])
  | [c] => if isDigit c then ([c], []) else ([], [c])
  | c :: d :: s =>
    if isDigit c then
      let (digits, rest) := moreDigits isDigit (d :: s)
      (c :: digits, rest)
    else if c == '_' && isDigit d then
      let (digits, rest) := moreDigits isDigit s
      (d :: digits, rest)
    else ([], c :: d :: s)

/-- At least one digit, with single underscores between digits. -/
def digitRun? (isDigit : Char → Bool) : Parse (List Char)
  | [] => none
  | c :: s =>
    if isDigit c then
      let (digits, rest) := moreDigits isDigit s
      some (c :: digits, rest)
    else none

/-- A sign at the front, if there is one. -/
def sign? (s : List Char) : Option Char × List Char :=
  match s with
  | [] => (none, [])
  | c :: tail => if c == '+' || c == '-' then (some c, tail) else (none, s)

/-- The digits of a decimal number before any point: a zero, or digits that start with none. -/
def wholeDigits? : Parse (List Char)
  | [] => none
  | c :: s => if c == '0' then some ([c], s) else digitRun? Char.isDigit (c :: s)

/-! ## Integers -/

/-- Whether an integer fits in 64 bits. -/
def fitsInteger (n : Int) : Bool :=
  -0x8000000000000000 ≤ n && n < 0x8000000000000000

/-- A decimal integer. -/
def decimal? (s : List Char) : Option (Int × List Char) := do
  let (sign, unsigned) := sign? s
  let (digits, rest) ← wholeDigits? unsigned
  let size ← numberOf? 10 digits
  some (if sign == some '-' then -(size : Int) else size, rest)

/-- The base that the second character of a number names behind a zero. -/
def base? (c : Char) : Option Nat :=
  if c == 'x' then some 16
  else if c == 'o' then some 8
  else if c == 'b' then some 2
  else none

/-- Whether a character is a digit in some base. -/
def isDigitOf (base : Nat) (c : Char) : Bool :=
  (hexValue? c).any (· < base)

/-- A number with its base in front. -/
def based? : Parse Int
  | c :: d :: s => do
    if c == '0' then
      let base ← base? d
      let (digits, rest) ← digitRun? (isDigitOf base) s
      let size ← numberOf? base digits
      some (size, rest)
    else none
  | _ => none

/-- An integer that fits in 64 bits. -/
def integer? (s : List Char) : Option (Item × List Char) := do
  let (value, rest) ← (based? s).orElse fun _ => decimal? s
  if fitsInteger value then some (.integer value, rest) else none

/-! ## Floats -/

/-- The ASCII bytes of characters. -/
def asciiBytes (s : List Char) : Bytes :=
  s.map fun c => c.toNat.toUInt8

/-- The exponent of a float. -/
def exponent? : Parse Exponent
  | [] => none
  | c :: s => do
    if c == 'e' || c == 'E' then
      let (sign, unsigned) := sign? s
      let (digits, rest) ← digitRun? Char.isDigit unsigned
      some (⟨c.toNat.toUInt8, sign.map fun c => c.toNat.toUInt8, asciiBytes digits⟩, rest)
    else none

/-- The point of a float and the digits after it. -/
def fraction? : Parse Bytes
  | [] => none
  | c :: s =>
    if c == '.' then (digitRun? Char.isDigit s).map fun (digits, rest) => (asciiBytes digits, rest)
    else none

/-- A decimal number with a fraction, an exponent, or both. -/
def numeral? (s : List Char) : Option (Numeral × List Char) := do
  let (sign, unsigned) := sign? s
  let (whole, behind) ← wholeDigits? unsigned
  let numeral := fun fraction exponent =>
    Numeral.mk (sign.map fun c => c.toNat.toUInt8) (asciiBytes whole) fraction exponent
  match fraction? behind with
  | some (fraction, rest) =>
    match exponent? rest with
    | some (exponent, rest) => some (numeral (some fraction) (some exponent), rest)
    | none => some (numeral (some fraction) none, rest)
  | none =>
    let (exponent, rest) ← exponent? behind
    some (numeral none (some exponent), rest)

/-- Pattern of a float that is no number. -/
def notANumberBits : Nat := 0x7FF8000000000000

/-- Infinity or not a number, written out. -/
def specialFloat? (s : List Char) : Option (Item × List Char) :=
  let (sign, unsigned) := sign? s
  let word := unsigned.take 3
  let signed := Binary64.signed (sign == some '-')
  if word == ['i', 'n', 'f'] then
    some (.float (signed Binary64.infinityBits), unsigned.drop 3)
  else if word == ['n', 'a', 'n'] then some (.float (signed notANumberBits), unsigned.drop 3)
  else none

/-- A float that does not overflow to positive infinity. -/
def float? (s : List Char) : Option (Item × List Char) :=
  match numeral? s with
  | some (numeral, rest) =>
    let value := Binary64.ofNumeral numeral
    if value.bits.toNat = Binary64.infinityBits then none else some (.float value, rest)
  | none => specialFloat? s

/-! ## Dates and times -/

/-- Exactly `n` decimal digits. -/
def fixedDigits? (n : Nat) (s : List Char) : Option (Nat × List Char) :=
  if n ≤ s.length then (numberOf? 10 (s.take n)).map fun value => (value, s.drop n) else none

/-- Two digits within bounds. -/
def twoDigits? (low high : Nat) (s : List Char) : Option (List Char) := do
  let (value, rest) ← fixedDigits? 2 s
  if low ≤ value && value ≤ high then some rest else none

/-- A given character. -/
def character? (c : Char) (s : List Char) : Option (List Char) :=
  if s.head? == some c then some (s.drop 1) else none

/-- Number of days of a month. -/
def daysIn (year month : Nat) : Nat :=
  if month = 2 then
    if year % 4 = 0 ∧ (year % 100 ≠ 0 ∨ year % 400 = 0) then 29 else 28
  else if month ∈ [4, 6, 9, 11] then 30
  else 31

/-- What follows a date of the calendar. -/
def date? (s : List Char) : Option (List Char) := do
  let (year, s) ← fixedDigits? 4 s
  let s ← character? '-' s
  let (month, s) ← fixedDigits? 2 s
  let s ← character? '-' s
  if 1 ≤ month && month ≤ 12 then twoDigits? 1 (daysIn year month) s else none

/-- What follows a fraction of a second, if there is one. -/
def skipFraction (s : List Char) : List Char :=
  match fraction? s with
  | some _ => (s.drop 1).dropWhile Char.isDigit
  | none => s

/-- What follows a time of day. -/
def time? (s : List Char) : Option (List Char) := do
  let s ← twoDigits? 0 23 s
  let s ← character? ':' s
  let s ← twoDigits? 0 59 s
  let s ← character? ':' s
  let s ← twoDigits? 0 60 s
  some (skipFraction s)

/-- What follows the distance to universal time. -/
def zone? (s : List Char) : Option (List Char) :=
  match s with
  | [] => none
  | c :: tail => do
    if c == 'Z' || c == 'z' then some tail
    else if c == '+' || c == '-' then
      let tail ← twoDigits? 0 23 tail
      let tail ← character? ':' tail
      twoDigits? 0 59 tail
    else none

/-- What follows the time behind a date, with its separator and its zone. -/
def timeBehindDate? (s : List Char) : Option (List Char) :=
  match s with
  | [] => none
  | c :: tail => do
    if c == 'T' || c == 't' || c == ' ' then
      let behind ← time? tail
      some ((zone? behind).getD behind)
    else none

/-- A date, a time, or a date with a time. -/
def moment? (s : List Char) : Option (Item × List Char) := do
  let rest ←
    match date? s with
    | some behind => some ((timeBehindDate? behind).getD behind)
    | none => time? s
  some (.moment (String.ofList (s.take (s.length - rest.length))), rest)

/-! ## All together -/

/-- A truth value. -/
def boolean? (s : List Char) : Option (Item × List Char) :=
  if s.take 4 == ['t', 'r', 'u', 'e'] then some (.boolean true, s.drop 4)
  else if s.take 5 == ['f', 'a', 'l', 's', 'e'] then some (.boolean false, s.drop 5)
  else none

/-- A value that is neither an array nor a table. -/
def scalar? (s : List Char) : Option (Item × List Char) :=
  (boolean? s).orElse fun _ =>
  ((string? s).map fun (value, rest) => (.text value, rest)).orElse fun _ =>
  (moment? s).orElse fun _ =>
  (float? s).orElse fun _ => integer? s

end Toml

end SceneTokens
