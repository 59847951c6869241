import SceneTokens.Bytes

/-!
# One UTF-8 sequence

`Utf8.sequence` reads the sequence at the front of a byte string. It answers with the
character, if the sequence is the standard encoding of one, and in every case with the number
of bytes that belong together: a lead byte and the continuation bytes it asks for, as far as
they are there. `Utf8.encode` is the standard encoding to compare with.
-/

namespace SceneTokens

namespace Utf8

/-- The standard, shortest encoding of a character. -/
def encode (c : Char) : Bytes :=
  String.utf8EncodeChar c

/-- The value that stands for what cannot be decoded. -/
def replacement : Nat := 0xFFFD

/-- A Unicode scalar value: a code point that is no surrogate. -/
def isScalar (n : Nat) : Bool :=
  n ≤ 0x10FFFF && !(0xD800 ≤ n && n ≤ 0xDFFF)

/-- The character with a given code point, if there is one. -/
def char? (n : Nat) : Option Char :=
  if isScalar n then some (Char.ofNat n) else none

/-- A byte that continues a sequence. -/
def isContinuation (b : UInt8) : Bool :=
  0x80 ≤ b && b ≤ 0xBF

/-- What a lead byte announces: how many bytes continue it, the bits it contributes, and the
least value that needs this many bytes. -/
structure Announced where
  more : Nat
  bits : Nat
  least : Nat
deriving DecidableEq, Repr

/-- The announcement of a lead byte outside ASCII; a stray continuation byte and the bytes
above `F7` announce nothing. -/
def announced? (lead : UInt8) : Option Announced :=
  if 0xC0 ≤ lead && lead ≤ 0xDF then some ⟨1, lead.toNat - 0xC0, 0x80⟩
  else if 0xE0 ≤ lead && lead ≤ 0xEF then some ⟨2, lead.toNat - 0xE0, 0x800⟩
  else if 0xF0 ≤ lead && lead ≤ 0xF7 then some ⟨3, lead.toNat - 0xF0, 0x10000⟩
  else none

/-- The longest run of continuation bytes at the front, at most `n` of them. -/
def continuations (n : Nat) (bytes : Bytes) : Bytes :=
  (bytes.take n).takeWhile isContinuation

/-- Six more bits per continuation byte. -/
def assemble (bits : Nat) (run : Bytes) : Nat :=
  run.foldl (fun value b => value * 64 + (b.toNat - 0x80)) bits

/-- A sequence cut off the front of a byte string. -/
structure Sequence where
  /-- The character, or `none` if the bytes encode none. -/
  char : Option Char
  /-- How many bytes the sequence takes. -/
  size : Nat
deriving DecidableEq, Repr

/-- The sequence at the front of a byte string. A sequence that breaks off, is longer than its
value needs, or denotes no scalar value has no character. -/
def sequence : Bytes → Sequence
  | [] => ⟨none, 0⟩
  | lead :: rest =>
    if Byte.isAscii lead then ⟨some (Char.ofNat lead.toNat), 1⟩
    else match announced? lead with
      | none => ⟨none, 1⟩
      | some a =>
        let run := continuations a.more rest
        let value := assemble a.bits run
        if run.length = a.more ∧ a.least ≤ value then ⟨char? value, 1 + run.length⟩
        else ⟨none, 1 + run.length⟩

theorem sequence_size_pos (b : UInt8) (rest : Bytes) : 0 < (sequence (b :: rest)).size := by
  simp only [sequence]
  repeat' split
  all_goals dsimp only
  all_goals omega

theorem continuations_length_le (n : Nat) (bytes : Bytes) :
    (continuations n bytes).length ≤ bytes.length := by
  have h := (List.takeWhile_sublist isContinuation (l := bytes.take n)).length_le
  simp only [List.length_take] at h
  unfold continuations
  omega

/-- A sequence takes no more bytes than there are. -/
theorem sequence_size_le (bytes : Bytes) : (sequence bytes).size ≤ bytes.length := by
  cases bytes with
  | nil => simp [sequence]
  | cons b rest =>
    have h (n : Nat) := continuations_length_le n rest
    simp only [sequence, List.length_cons]
    split
    · simp
    · split
      · simp
      · rename_i a _
        have := h a.more
        split <;> simp only [] <;> omega

end Utf8

end SceneTokens
