import SceneTokens.Bytes

/-!
# Positions

A position is a byte offset together with the line and the column a reader would name for
it. Columns count bytes. Positions move only by `Position.advance`, which walks a byte string;
`Position.advance_append` says that walking two strings in turn is walking their concatenation.

An offset is a 64-bit number. Walking within a source never leaves that range, but a position may
be handed in from elsewhere: `Position.reach` walks from any position and counts offsets modulo
`2 ^ 64`, and `Position.reach_eq_advance` says that within the range this is plain walking.

Lines and columns are assumed not to overflow. They are 32-bit numbers, but are counted here without
a bound, so what is said of them holds as long as no line and no column comes to `2 ^ 32`.
-/

namespace SceneTokens

/-- A place in a source: offset from 0, line and column from 1. -/
structure Position where
  offset : Nat
  line : Nat
  column : Nat
deriving DecidableEq, Repr

namespace Position

/-- The first byte of any source. -/
def start : Position := ⟨0, 1, 1⟩

instance : Inhabited Position := ⟨start⟩

/-- One byte further. A newline leads to column 1 of the next line. -/
def step (p : Position) (b : UInt8) : Position :=
  if b = Byte.newline then ⟨p.offset + 1, p.line + 1, 1⟩
  else ⟨p.offset + 1, p.line, p.column + 1⟩

/-- The position reached from `p` by walking over `bytes`. -/
def advance (p : Position) (bytes : Bytes) : Position :=
  bytes.foldl step p

@[simp] theorem advance_nil (p : Position) : p.advance [] = p := rfl

@[simp] theorem advance_cons (p : Position) (b : UInt8) (bytes : Bytes) :
    p.advance (b :: bytes) = (p.step b).advance bytes := rfl

/-- Walking two byte strings in turn is walking their concatenation. -/
theorem advance_append (p : Position) (as bs : Bytes) :
    p.advance (as ++ bs) = (p.advance as).advance bs :=
  List.foldl_append

@[simp] theorem step_offset (p : Position) (b : UInt8) : (p.step b).offset = p.offset + 1 := by
  unfold step; split <;> rfl

@[simp] theorem advance_offset (p : Position) (bytes : Bytes) :
    (p.advance bytes).offset = p.offset + bytes.length := by
  induction bytes generalizing p with
  | nil => rfl
  | cons b bs ih => simp [ih]; omega

/-! ## The range of offsets -/

/-- Offsets are below this bound. -/
def offsetRange : Nat := 0x10000000000000000

/-- The position with its offset brought back into the range. -/
def wrapped (p : Position) : Position :=
  { p with offset := p.offset % offsetRange }

/-- The position reached from `p` by walking over `bytes`, the offset starting again from 0 at the
end of its range. -/
def reach (p : Position) (bytes : Bytes) : Position :=
  (p.advance bytes).wrapped

theorem wrapped_of_lt {p : Position} (h : p.offset < offsetRange) : p.wrapped = p := by
  rw [wrapped, Nat.mod_eq_of_lt h]

/-- Within the range of offsets, reaching a place is walking to it. -/
theorem reach_eq_advance {p : Position} {bytes : Bytes}
    (h : p.offset + bytes.length < offsetRange) : p.reach bytes = p.advance bytes :=
  wrapped_of_lt (by rwa [advance_offset])

/-! ## Order and text -/

/-- Positions are ordered by offset, then line, then column. -/
def compare (p q : Position) : Ordering :=
  (Ord.compare p.offset q.offset).then
    ((Ord.compare p.line q.line).then (Ord.compare p.column q.column))

/-- How a position is shown to the author of a scene: `line:column`. -/
def text (p : Position) : String :=
  toString p.line ++ ":" ++ toString p.column

end Position

end SceneTokens
