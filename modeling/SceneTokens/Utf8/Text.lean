import SceneTokens.Utf8.Sequence

/-!
# Byte strings as text

Messages show byte strings to a person, whatever bytes they hold. `Utf8.text` decodes standard
UTF-8 and puts one replacement character for each maximal run of bytes that begins a
well-formed sequence and cannot be continued to one. `Utf8.text?` is the strict reading: it
refuses any byte string that is not well-formed.

The two readings cut a byte string by the well-formed sequences alone, so they may cut
malformed bytes into more parts than `Utf8.sequence` does.
-/

namespace SceneTokens

namespace Utf8

/-- The second bytes that may follow a lead byte in well-formed text, and how many more
continuation bytes come after. Lead bytes that start no well-formed sequence give `none`. -/
def followers? (lead : UInt8) : Option (UInt8 × UInt8 × Nat) :=
  if 0xC2 ≤ lead && lead ≤ 0xDF then some (0x80, 0xBF, 0)
  else if lead == 0xE0 then some (0xA0, 0xBF, 1)
  else if lead == 0xED then some (0x80, 0x9F, 1)
  else if 0xE1 ≤ lead && lead ≤ 0xEF then some (0x80, 0xBF, 1)
  else if lead == 0xF0 then some (0x90, 0xBF, 2)
  else if 0xF1 ≤ lead && lead ≤ 0xF3 then some (0x80, 0xBF, 2)
  else if lead == 0xF4 then some (0x80, 0x8F, 2)
  else none

/-- The well-formed sequence at the front, or the size of the maximal part of one. -/
def wellFormed : Bytes → Sequence
  | [] => ⟨none, 0⟩
  | lead :: rest =>
    if Byte.isAscii lead then ⟨some (Char.ofNat lead.toNat), 1⟩
    else match followers? lead, rest with
      | some (low, high, more), second :: tail =>
        if low ≤ second && second ≤ high then
          let run := continuations more tail
          if run.length = more then sequence (lead :: second :: run)
          else ⟨none, 2 + run.length⟩
        else ⟨none, 1⟩
      | _, _ => ⟨none, 1⟩

theorem wellFormed_size_pos (b : UInt8) (rest : Bytes) : 0 < (wellFormed (b :: rest)).size := by
  simp only [wellFormed]
  repeat' split
  case h_1.isTrue.isTrue => exact sequence_size_pos _ _
  all_goals dsimp only
  all_goals omega

/-- The characters of a byte string, `none` for each malformed part. -/
def characters : Bytes → List (Option Char)
  | [] => []
  | b :: rest =>
    (wellFormed (b :: rest)).char ::
      characters ((b :: rest).drop (wellFormed (b :: rest)).size)
termination_by bytes => bytes.length
decreasing_by
  have := wellFormed_size_pos b rest
  simp only [List.length_drop, List.length_cons]
  omega

/-- The text of a byte string, with a replacement character for each malformed part. -/
def text (bytes : Bytes) : String :=
  String.ofList ((characters bytes).map fun c => c.getD (Char.ofNat replacement))

/-- The text of a well-formed byte string. -/
def text? (bytes : Bytes) : Option String :=
  ((characters bytes).mapM id).map String.ofList

end Utf8

end SceneTokens
