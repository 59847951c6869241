import SceneTokens.Input.Position

/-!
# Sources

A source is a named, immutable byte string, short enough for all its offsets to be in range.
Several parts of a run may hold the same source, and two sources with equal name and content are
still two different inputs; a `Handle` is a source together with the number that tells it from
the others of its run.
-/

namespace SceneTokens

/-- A named byte string. -/
structure Source where
  name : String
  content : Bytes
  /-- The end of the content is a valid offset. -/
  fits : content.length < Position.offsetRange := by decide
deriving DecidableEq, Repr

namespace Source

/-- The source with a given content, unless that is too long for one. -/
def ofBytes? (name : String) (content : Bytes) : Option Source :=
  if h : content.length < Position.offsetRange then some ⟨name, content, h⟩ else none

/-- Number of bytes. -/
def size (s : Source) : Nat :=
  s.content.length

/-- A line as an author sees it: one carriage return at its end belongs to the line break. -/
def withoutReturn (line : Bytes) : Bytes :=
  if line.getLast? = some Byte.carriageReturn then line.dropLast else line

/-- The lines of a content: what lies between its newlines, so one line more than newlines. -/
def lines : Bytes → List Bytes
  | [] => [[]]
  | b :: rest =>
    if b = Byte.newline then [] :: lines rest
    else match lines rest with
      | [] => [[b]]
      | line :: more => (b :: line) :: more

/-- The bytes of line `n`, counted from 1, without its line break. -/
def line? (s : Source) : Nat → Option Bytes
  | 0 => none
  | n + 1 => ((lines s.content)[n]?).map withoutReturn

end Source

/-- A source as an input of a run. Handles with different keys are different inputs, whatever
their sources hold. -/
structure Handle where
  key : Nat
  source : Source
deriving DecidableEq, Repr

namespace Handle

/-- Name of the source. -/
def name (h : Handle) : String :=
  h.source.name

/-- Content of the source. -/
def content (h : Handle) : Bytes :=
  h.source.content

end Handle

end SceneTokens
