import Mathlib.Data.List.TakeWhile
import SceneTokens.Proofs.Escapes

/-!
# Characters and their bytes

Outside ASCII the standard encoding of a character is a lead byte and continuation bytes. The lead
byte announces how many, and all of them together hold the bits of the code point
(`Utf8.Multibyte`). So the encoding can be read back, whatever follows it
(`Utf8.sequence_encode`), and none of its bytes is ASCII (`Utf8.isAscii_encode`).
-/

namespace SceneTokens

namespace Utf8

/-- The byte `lead` and the continuation bytes `run` spell the code point `n`, which needs as many
bytes as `lead` announces. -/
structure Multibyte (lead : UInt8) (run : Bytes) (a : Announced) (n : Nat) : Prop where
  announces : announced? lead = some a
  continues : ∀ b ∈ run, isContinuation b = true
  length : run.length = a.more
  value : assemble a.bits run = n
  least : a.least ≤ n

theorem isAscii_of_announced? {lead : UInt8} {a : Announced} (h : announced? lead = some a) :
    Byte.isAscii lead = false := by
  grind [announced?, Byte.isAscii]

theorem isAscii_of_isContinuation {b : UInt8} (h : isContinuation b = true) :
    Byte.isAscii b = false := by
  grind [isContinuation, Byte.isAscii]

theorem continuations_append {run : Bytes} (hrun : ∀ b ∈ run, isContinuation b = true)
    (rest : Bytes) : continuations run.length (run ++ rest) = run := by
  rw [continuations, List.take_left, List.takeWhile_eq_self_iff.2 hrun]

namespace Multibyte

variable {lead : UInt8} {run : Bytes} {a : Announced} {n : Nat}

/-- Bytes that spell a code point are read as such, whatever follows them. -/
theorem sequence_append (h : Multibyte lead run a n) (rest : Bytes) :
    sequence (lead :: (run ++ rest)) = ⟨char? n, 1 + run.length⟩ := by
  have hlead := isAscii_of_announced? h.announces
  have hrun := continuations_append h.continues rest
  rw [h.length] at hrun
  simp [sequence, hlead, h.announces, hrun, h.length, h.value, h.least]

/-- All bytes of a longer encoding are outside ASCII, the lead byte included. -/
theorem isAscii_eq_false (h : Multibyte lead run a n) :
    ∀ b ∈ lead :: run, Byte.isAscii b = false := by
  intro b hb
  rcases List.mem_cons.1 hb with rfl | hb
  · exact isAscii_of_announced? h.announces
  · exact isAscii_of_isContinuation (h.continues b hb)

end Multibyte

/-! ## The standard encoding -/

/-- A continuation byte with the six lowest bits of `n`. -/
def continuation (n : Nat) : UInt8 :=
  UInt8.ofNat (n % 0x40 + 0x80)

/-- A continuation byte holds the six lowest bits of a number. -/
theorem continuation_bits (n : Nat) : isContinuation (continuation n) = true ∧
    (continuation n).toNat - 0x80 = n % 0x40 := by
  have hbits : ∀ m < 0x40, isContinuation (UInt8.ofNat (m + 0x80)) = true ∧
      (UInt8.ofNat (m + 0x80)).toNat - 0x80 = m := by decide
  exact hbits _ (Nat.mod_lt n (by decide))

theorem isContinuation_map (ns : List Nat) :
    ∀ b ∈ ns.map continuation, isContinuation b = true := by
  intro b hb
  obtain ⟨n, -, rfl⟩ := List.mem_map.1 hb
  exact (continuation_bits n).1

theorem assemble_map (bits : Nat) (ns : List Nat) : assemble bits (ns.map continuation) =
    ns.foldl (fun value n => value * 64 + n % 0x40) bits := by
  simp only [assemble, List.foldl_map, continuation_bits]

theorem toNat_lt (c : Char) : c.toNat < 0x110000 := by
  rcases c.valid with h | ⟨-, h⟩
  · exact Nat.lt_trans h (by decide)
  · exact h

/-- The standard encoding of a character outside ASCII, by the number of its bytes. -/
theorem exists_multibyte {c : Char} (hc : 0x80 ≤ c.toNat) : ∃ lead run a,
    encode c = lead :: run ∧ Multibyte lead run a c.toNat := by
  have htwo : ∀ m < 0x20, announced? (UInt8.ofNat (m + 0xC0)) = some ⟨1, m, 0x80⟩ := by decide
  have hthree : ∀ m < 0x10, announced? (UInt8.ofNat (m + 0xE0)) = some ⟨2, m, 0x800⟩ := by decide
  have hfour : ∀ m < 0x08, announced? (UInt8.ofNat (m + 0xF0)) = some ⟨3, m, 0x10000⟩ := by decide
  have hmax := toNat_lt c
  have hn : c.val.toNat = c.toNat := rfl
  simp only [encode, String.utf8EncodeChar, hn]
  split
  · omega
  · split
    · refine ⟨_, [c.toNat].map continuation, _, rfl, htwo _ (Nat.mod_lt _ (by decide)),
        isContinuation_map _, rfl, ?_, hc⟩
      rw [assemble_map]
      simp only [List.foldl_cons, List.foldl_nil]
      omega
    · split
      · refine ⟨_, [c.toNat / 64, c.toNat].map continuation, _, rfl,
          hthree _ (Nat.mod_lt _ (by decide)), isContinuation_map _, rfl, ?_, by dsimp only; omega⟩
        rw [assemble_map]
        simp only [List.foldl_cons, List.foldl_nil]
        omega
      · refine ⟨_, [c.toNat / 4096, c.toNat / 64, c.toNat].map continuation, _, rfl,
          hfour _ (Nat.mod_lt _ (by decide)), isContinuation_map _, rfl, ?_, by dsimp only; omega⟩
        rw [assemble_map]
        simp only [List.foldl_cons, List.foldl_nil]
        omega

/-- The encoding of a character outside ASCII is read back. -/
theorem sequence_encode {c : Char} (hc : 0x80 ≤ c.toNat) (rest : Bytes) :
    sequence (encode c ++ rest) = ⟨some c, (encode c).length⟩ := by
  obtain ⟨lead, run, a, hencode, hbytes⟩ := exists_multibyte hc
  rw [hencode, List.cons_append, hbytes.sequence_append, char?_eq_some_iff.2 rfl, List.length_cons,
    Nat.add_comm]

/-- A character outside ASCII is encoded in bytes outside ASCII. -/
theorem isAscii_encode {c : Char} (hc : 0x80 ≤ c.toNat) :
    ∀ b ∈ encode c, Byte.isAscii b = false := by
  obtain ⟨lead, run, a, hencode, hbytes⟩ := exists_multibyte hc
  rw [hencode]
  exact hbytes.isAscii_eq_false

end Utf8

end SceneTokens
