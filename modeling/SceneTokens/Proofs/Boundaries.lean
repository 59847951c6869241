import SceneTokens.Proofs.Units

/-!
# Boundaries of a payload

A unit of a payload looks at what follows it only to see whether a sequence goes on. So bytes that
start with no continuation byte (`Utf8.StartsAnew`) change nothing about the units before them:
the sequence at the front of a byte string is the same with and without them
(`Utf8.sequence_append_of_startsAnew`), and so is any row of units
(`Grammar.PayloadUnits.append_of_startsAnew`).

A payload that decodes is a row of units to its end. Decoding may therefore be done in parts, and
the faults of a later part keep their text and are only found at a later offset
(`Payload.decode_append`).
-/

namespace SceneTokens

namespace Utf8

/-! ## Where sequences end -/

/-- The bytes do not go on with a sequence that started before them. -/
def StartsAnew (bytes : Bytes) : Prop :=
  ∀ b ∈ bytes.head?, isContinuation b = false

theorem startsAnew_nil : StartsAnew [] := by
  simp [StartsAnew]

theorem startsAnew_cons {b : UInt8} {rest : Bytes} :
    StartsAnew (b :: rest) ↔ isContinuation b = false := by
  simp [StartsAnew]

theorem continuations_of_startsAnew {bytes : Bytes} (h : StartsAnew bytes) (n : Nat) :
    continuations n bytes = [] := by
  cases bytes with
  | nil => simp [continuations]
  | cons b rest =>
    have hb := startsAnew_cons.1 h
    cases n with
    | zero => rfl
    | succ n => simp [continuations, hb]

/-- A run of continuation bytes ends in front of such bytes. -/
theorem continuations_append_of_startsAnew {bytes : Bytes} (h : StartsAnew bytes) (n : Nat)
    (rest : Bytes) : continuations n (rest ++ bytes) = continuations n rest := by
  have hnone := continuations_of_startsAnew h (n - rest.length)
  unfold continuations at hnone ⊢
  rw [List.take_append, List.takeWhile_append, hnone, List.append_nil]
  split
  · rename_i hall
    exact ((List.takeWhile_prefix isContinuation).eq_of_length hall).symm
  · rfl

/-- The sequence at the front does not reach into such bytes, and does not depend on them. -/
theorem sequence_append_of_startsAnew {bytes : Bytes} (h : StartsAnew bytes) (lead : UInt8)
    (rest : Bytes) : sequence (lead :: (rest ++ bytes)) = sequence (lead :: rest) := by
  simp only [sequence, continuations_append_of_startsAnew h]

end Utf8

open Utf8

namespace Grammar

/-! ## Units before a boundary -/

/-- A unit stays the same if bytes that start anew are added at the end of the payload. -/
theorem PayloadUnit.append_of_startsAnew {raw after bytes : Bytes} {char : Option Char}
    (h : PayloadUnit raw char after) (hbytes : StartsAnew bytes) :
    PayloadUnit raw char (after ++ bytes) := by
  cases h with
  | escape he => exact .escape he
  | ascii hascii hb => exact .ascii hascii hb
  | sequence hascii hsequence =>
    refine .sequence hascii ?_
    rw [← List.append_assoc, sequence_append_of_startsAnew hbytes, hsequence]

/-- So does a row of units, by induction on its units. -/
theorem PayloadUnits.append_of_startsAnew {front after bytes : Bytes}
    {chars : List (Option Char)} (h : PayloadUnits front chars after)
    (hbytes : StartsAnew bytes) : PayloadUnits front chars (after ++ bytes) := by
  induction h with
  | nil => exact .nil
  | cons hunit _ ih =>
    refine .cons ?_ ih
    rw [← List.append_assoc]
    exact hunit.append_of_startsAnew hbytes

end Grammar

namespace Payload

/-! ## Decoding in parts -/

/-- A payload that decodes is decoded first, and decoding goes on behind it. -/
theorem decode_append_eq_behind {p q : Bytes} {units : List UInt16} (hp : decode p = .ok units)
    (hq : StartsAnew q) : decode (p ++ q) = behind p.length units (decode q) := by
  rcases decode_cases p with ⟨units', chars, hok, hrow, hvalues⟩ | ⟨fault, herror, -⟩
  · obtain rfl := Except.ok.inj (hp.symm.trans hok)
    obtain ⟨units', hvalues', hdecode⟩ := decode_units_append (hrow.append_of_startsAnew hq)
    have hsame : units = units' :=
      (List.map_inj_right fun _ _ => UInt16.toNat_inj.1).1 (hvalues.trans hvalues'.symm)
    rw [hsame]
    exact hdecode
  · cases hp.symm.trans herror

/-- A payload may be decoded in two parts if the first one decodes and the second does not start
with a continuation byte. The units of the second part follow those of the first, and a fault of the
second is found with the same text, as much later as the first is long. -/
theorem decode_append {p q : Bytes} {units : List UInt16} (hp : decode p = .ok units)
    (hq : StartsAnew q) :
    (∀ more, decode q = .ok more → decode (p ++ q) = .ok (units ++ more)) ∧
      ∀ offset text, decode q = .error ⟨offset, text⟩ →
        decode (p ++ q) = .error ⟨p.length + offset, text⟩ := by
  have hdecode := decode_append_eq_behind hp hq
  refine ⟨fun more hmore => ?_, fun offset text hfault => ?_⟩
  · rw [hdecode, hmore]
    rfl
  · rw [hdecode, hfault]
    rfl

/-- The first part breaks off in a sequence of three bytes, and the second is cut short in an
escape. -/
theorem decode_append_truncated :
    decode [0xE2, 0x82] = .ok [0xFFFD] ∧ StartsAnew [0x61, 92, 117, 49] ∧
      decode [0x61, 92, 117, 49] = .error ⟨1, [92, 117, 49]⟩ ∧
      decode ([0xE2, 0x82] ++ [0x61, 92, 117, 49]) = .error ⟨2 + 1, [92, 117, 49]⟩ := by
  have hp : decode [0xE2, 0x82] = .ok [0xFFFD] := by decide +kernel
  have hq : StartsAnew [0x61, 92, 117, 49] := startsAnew_cons.2 (by decide)
  have hfault : decode [0x61, 92, 117, 49] = .error ⟨1, [92, 117, 49]⟩ := by decide +kernel
  exact ⟨hp, hq, hfault, (decode_append hp hq).2 1 _ hfault⟩

end Payload

end SceneTokens
