import SceneTokens.Utf8.Sequence

/-!
# The payload of a string literal

The bytes between the quotes of a string literal spell one character after another: an escape,
an ASCII byte, or a UTF-8 sequence. `Payload.split` cuts a payload into such spellings from the
left, as far as it goes; it gets stuck only at a malformed escape. A payload that is spelled to
its end decodes to one 16-bit unit for each spelling (`Payload.decode`), the code point modulo
`2 ^ 16`, and a malformed UTF-8 sequence counts as a replacement character.
-/

namespace SceneTokens

/-- Bytes of a payload that spell one character; `none` if they are a malformed sequence. -/
structure Spelling where
  raw : Bytes
  char : Option Char
deriving DecidableEq, Repr

/-- The code point a spelling stands for. -/
def Spelling.codePoint (s : Spelling) : Nat :=
  match s.char with
  | some c => c.toNat
  | none => Utf8.replacement

/-- The 16-bit unit a spelling decodes to. What does not fit is cut off. -/
def Spelling.unit (s : Spelling) : UInt16 :=
  s.codePoint.toUInt16

/-- A malformed escape: where its backslash stands in the payload, and the bytes to show. -/
structure EscapeFault where
  offset : Nat
  text : Bytes
deriving DecidableEq, Repr

namespace Payload

/-! ## Escapes -/

/-- The characters with an escape of one letter. -/
def letterEscape? (letter : UInt8) : Option Char :=
  if letter == 0x61 then some (Char.ofNat 0x07)
  else if letter == 0x62 then some (Char.ofNat 0x08)
  else if letter == 0x74 then some (Char.ofNat 0x09)
  else if letter == 0x6E then some (Char.ofNat 0x0A)
  else if letter == 0x76 then some (Char.ofNat 0x0B)
  else if letter == 0x66 then some (Char.ofNat 0x0C)
  else if letter == 0x72 then some (Char.ofNat 0x0D)
  else if letter == 0x27 || letter == Byte.quote || letter == Byte.backslash then
    some (Char.ofNat letter.toNat)
  else none

/-- How many hexadecimal digits follow the letter of a numeric escape: four after `u`, six
after `U`. -/
def hexDigits? (letter : UInt8) : Option Nat :=
  if letter == 0x75 then some 4
  else if letter == 0x55 then some 6
  else none

/-- The number a string of hexadecimal digits denotes. -/
def hexNumber? (digits : Bytes) : Option Nat :=
  digits.foldlM (fun value b => (Byte.hexValue? b).map (value * 16 + ·)) 0

/-- The character of a numeric escape of `n` digits, given the bytes after its letter. -/
def numericEscape? (n : Nat) (rest : Bytes) : Option Char :=
  if n ≤ rest.length then (hexNumber? (rest.take n)).bind Utf8.char? else none

/-- The escape whose backslash stands before the given bytes. The error is the text to show: the
backslash, the letter, and for a numeric escape its digits as far as the payload goes. -/
def escape : Bytes → Except Bytes Spelling
  | [] => .error [Byte.backslash]
  | letter :: rest =>
    match letterEscape? letter with
    | some c => .ok ⟨[Byte.backslash, letter], some c⟩
    | none =>
      match hexDigits? letter with
      | some n =>
        let raw := Byte.backslash :: letter :: rest.take n
        match numericEscape? n rest with
        | some c => .ok ⟨raw, some c⟩
        | none => .error raw
      | none =>
        let shown := (Utf8.sequence (letter :: rest)).size
        .error (Byte.backslash :: (letter :: rest).take shown)

/-! ## Splitting -/

/-- The spelling at the front of a payload, or the text of the malformed escape there. -/
def spelling (b : UInt8) (rest : Bytes) : Except Bytes Spelling :=
  if b = Byte.backslash then escape rest
  else
    let s := Utf8.sequence (b :: rest)
    .ok ⟨(b :: rest).take s.size, s.char⟩

theorem escape_raw_ne_nil {rest : Bytes} {s : Spelling} (h : escape rest = .ok s) :
    s.raw ≠ [] := by
  unfold escape at h
  repeat' split at h
  all_goals cases h
  all_goals simp

/-- Every unit takes at least one byte, so splitting a payload comes to an end. -/
theorem spelling_raw_ne_nil {b : UInt8} {rest : Bytes} {s : Spelling}
    (h : spelling b rest = .ok s) : s.raw ≠ [] := by
  unfold spelling at h
  split at h
  · exact escape_raw_ne_nil h
  · cases h
    have := Utf8.sequence_size_pos b rest
    simp only [ne_eq, List.take_eq_nil_iff, reduceCtorEq, or_false]
    omega

/-- A payload cut into spellings, and the text of the malformed escape that stopped the
cutting, if any. -/
structure Split where
  units : List Spelling
  stuck : Option Bytes
deriving DecidableEq, Repr

/-- The spellings of a payload from the left, up to the first malformed escape. -/
def split : Bytes → Split
  | [] => ⟨[], none⟩
  | b :: rest =>
    match _h : spelling b rest with
    | .error text => ⟨[], some text⟩
    | .ok unit =>
      let more := split ((b :: rest).drop unit.raw.length)
      ⟨unit :: more.units, more.stuck⟩
termination_by payload => payload.length
decreasing_by
  have := List.length_pos_iff.2 (spelling_raw_ne_nil _h)
  simp only [List.length_drop, List.length_cons]
  omega

/-! ## Decoding -/

/-- Number of bytes some spellings take. -/
def rawSize (units : List Spelling) : Nat :=
  (units.flatMap Spelling.raw).length

/-- The 16-bit units of a payload, or its first malformed escape. -/
def decode (payload : Bytes) : Except EscapeFault (List UInt16) :=
  let s := split payload
  match s.stuck with
  | none => .ok (s.units.map Spelling.unit)
  | some text => .error ⟨rawSize s.units, text⟩

/-- Offset and size of each malformed UTF-8 sequence among spellings that start at `offset`. -/
def malformedFrom (offset : Nat) : List Spelling → List (Nat × Nat)
  | [] => []
  | u :: us =>
    let later := malformedFrom (offset + u.raw.length) us
    if u.char.isNone then (offset, u.raw.length) :: later else later

/-- The malformed UTF-8 sequences that are replaced while a payload is decoded. They are found
also if a later escape is malformed. -/
def malformed (payload : Bytes) : List (Nat × Nat) :=
  malformedFrom 0 (split payload).units

end Payload

end SceneTokens
