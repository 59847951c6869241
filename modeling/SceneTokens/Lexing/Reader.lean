import SceneTokens.Lexing.Piece
import SceneTokens.Lexing.Scanner

/-!
# Reading a source

A `Reader` is the scanner for scenes in memory. It stands at a position of the source that is
attached, and reads on by cutting one piece after another until one is a lexeme
(`Reader.scan`). The reader counts how often an input was attached; a hot bookmark holds only
while that count is the same. The count is a 64-bit number that is assumed not to overflow: it goes
up without a bound here, which no course of fewer than `2 ^ 64` attachments can tell.
-/

namespace SceneTokens

/-- A place in a source. -/
structure Cursor where
  handle : Handle
  position : Position
deriving DecidableEq, Repr

namespace Cursor

/-- The start of a source. -/
def ofHandle (h : Handle) : Cursor := ⟨h, .start⟩

/-- The bytes that are still to be read. -/
def rest (c : Cursor) : Bytes :=
  c.handle.content.drop c.position.offset

/-- Moves to a position, if the source reaches so far. -/
def moveTo? (c : Cursor) (position : Position) : Option Cursor :=
  if position.offset ≤ c.handle.content.length then some ⟨c.handle, position⟩ else none

end Cursor

/-- A scanner over sources in memory. -/
structure Reader where
  cursor : Option Cursor
  settings : Settings
  /-- How often an input was attached. -/
  generation : Nat
deriving DecidableEq, Repr

/-- A place that can be returned to while the input stays attached. -/
structure HotMark where
  position : Position
  generation : Nat
deriving DecidableEq, Repr

/-- A place that can be returned to with its input, if there was one. -/
structure ColdMark where
  position : Position
  handle : Option Handle
deriving DecidableEq, Repr

namespace Reader

/-! ## Lexemes -/

/-- Reads `rest`, which starts at `position`, up to and including the first lexeme. The state is
the position reached. -/
def scan (settings : Settings) (source : String) (position : Position) :
    Bytes → Step Position (Option Lexeme)
  | [] => ⟨none, position, []⟩
  | b :: rest =>
    let piece := Piece.cut settings.nested (position.offset == 0) b rest
    let events := piece.events settings.encoding source position
    let after := position.advance piece.raw
    match piece.lexeme? settings.encoding position with
    | some lexeme => ⟨some lexeme, after, events⟩
    | none =>
      let more := scan settings source after ((b :: rest).drop piece.raw.length)
      ⟨more.value, more.state, events ++ more.events⟩
termination_by bytes => bytes.length
decreasing_by
  have := List.length_pos_iff.2 (Piece.cut_raw_ne_nil settings.nested (position.offset == 0) b rest)
  simp only [List.length_drop, List.length_cons]
  omega

theorem le_scan_offset (settings : Settings) (source : String) (position : Position)
    (bytes : Bytes) : position.offset ≤ (scan settings source position bytes).state.offset := by
  fun_induction scan settings source position bytes with
  | case1 position => exact Nat.le_refl _
  | case2 position b rest piece events after lexeme h => simp [after]
  | case3 position b rest piece events after h more ih =>
    have : position.offset ≤ after.offset := by simp [after]
    exact Nat.le_trans this ih

/-- Where a byte is left, scanning moves on. -/
theorem lt_scan_offset (settings : Settings) (source : String) (position : Position)
    (b : UInt8) (rest : Bytes) :
    position.offset < (scan settings source position (b :: rest)).state.offset := by
  have hpos := List.length_pos_iff.2
    (Piece.cut_raw_ne_nil settings.nested (position.offset == 0) b rest)
  have hstep : position.offset <
      (position.advance (Piece.cut settings.nested (position.offset == 0) b rest).raw).offset := by
    rw [Position.advance_offset]
    omega
  rw [scan]
  dsimp only
  split
  · exact hstep
  · exact Nat.lt_of_lt_of_le hstep (le_scan_offset _ _ _ _)

/-- Reads the next lexeme. Without an input there is none. -/
def next (r : Reader) : Step Reader (Option Lexeme) :=
  match r.cursor with
  | none => ⟨none, r, []⟩
  | some c =>
    let found := scan r.settings c.handle.name c.position c.rest
    ⟨found.value, { r with cursor := some ⟨c.handle, found.state⟩ }, found.events⟩

/-- Number of bytes that are still to be read. -/
def remaining (r : Reader) : Nat :=
  match r.cursor with
  | none => 0
  | some c => c.rest.length

/-- Every lexeme leaves less to be read. -/
theorem next_remaining (r : Reader) (h : r.next.value.isSome) :
    r.next.state.remaining < r.remaining := by
  unfold next at h ⊢
  split at h
  · simp at h
  · rename_i c hc
    cases hrest : c.rest with
    | nil => simp [hrest, scan] at h
    | cons b rest =>
      have hlt := lt_scan_offset r.settings c.handle.name c.position b rest
      have hlen : c.handle.content.length - c.position.offset = rest.length + 1 := by
        have := congrArg List.length hrest
        simpa [Cursor.rest] using this
      simp only [remaining, hc, Cursor.rest, List.length_drop]
      omega

/-- Reads on to the next sign that introduces a directive, past all other lexemes. -/
def nextDirective (r : Reader) : Step Reader (Option Lexeme) :=
  let step := r.next
  match _h : step.value with
  | none => step
  | some lexeme =>
    if lexeme.isHash then step
    else
      let more := nextDirective step.state
      ⟨more.value, more.state, step.events ++ more.events⟩
termination_by r.remaining
decreasing_by exact next_remaining r (Option.isSome_of_eq_some _h)

/-! ## Inputs and bookmarks -/

/-- A reader without an input. -/
def empty : Reader := ⟨none, .standard, 0⟩

/-- Starts over with a new input. -/
def attach (r : Reader) (h : Handle) : Reader :=
  { r with cursor := some (.ofHandle h), generation := r.generation + 1 }

/-- A reader at the start of an input. -/
def ofHandle (h : Handle) : Reader :=
  empty.attach h

/-- The input that is attached. -/
def input? (r : Reader) : Option Handle :=
  r.cursor.map Cursor.handle

/-- The position in the input, the start if there is none. -/
def position (r : Reader) : Position :=
  match r.cursor with
  | some c => c.position
  | none => .start

/-- A bookmark that holds while the input stays attached. -/
def hotMark (r : Reader) : HotMark :=
  ⟨r.position, r.generation⟩

/-- A bookmark that brings its input back. -/
def coldMark (r : Reader) : ColdMark :=
  ⟨r.position, r.input?⟩

/-- Moves within the attached input, if it reaches so far. -/
def moveTo (r : Reader) (position : Position) : Restoration Reader :=
  match r.cursor.bind fun c => c.moveTo? position with
  | some c => ⟨true, { r with cursor := some c }⟩
  | none => ⟨false, r⟩

/-- Goes back to a hot bookmark, if no input was attached since it was taken. -/
def goHot (r : Reader) (m : HotMark) : Restoration Reader :=
  if m.generation = r.generation then r.moveTo m.position else ⟨false, r⟩

/-- Goes back to a cold bookmark. Its input is attached again unless it is attached already; a
bookmark that was taken without an input leads nowhere. -/
def goCold (r : Reader) (m : ColdMark) : Restoration Reader :=
  match m.handle with
  | none => ⟨false, r⟩
  | some h => (if r.input? = some h then r else r.attach h).moveTo m.position

instance : Scanner Reader where
  Hot := HotMark
  Cold := ColdMark
  next := next
  nextDirective := nextDirective
  attach := attach
  input? := input?
  setEncoding r encoding := { r with settings := { r.settings with encoding := encoding } }
  setNested r nested := { r with settings := { r.settings with nested := nested } }
  hotMark := hotMark
  coldMark := coldMark
  goHot := goHot
  goCold := goCold
  remaining := remaining
  next_remaining := next_remaining

end Reader

end SceneTokens
