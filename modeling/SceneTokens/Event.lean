import SceneTokens.Lexing.Comment
import SceneTokens.Lexing.Lexeme
import SceneTokens.Vocabulary.Identity

/-!
# Diagnostic events

Reading a scene leaves a trace of events beside its results: what was skipped or replaced, what
was minted and read. An event says what happened; `Event.level`, `Event.message` and
`Event.fields` say how it is reported.
-/

namespace SceneTokens

/-- How much attention an event asks for. -/
inductive Level where
  | trace
  | debug
  | warn
  | error
deriving DecidableEq, Repr

/-- How reports name a level. -/
def Level.text : Level → String
  | trace => "TRACE"
  | debug => "DEBUG"
  | warn => "WARN"
  | error => "ERROR"

/-- The two kinds of bookmarks. -/
inductive Warmth where
  | hot
  | cold
deriving DecidableEq, Repr

/-- How reports name a kind of bookmark. -/
def Warmth.text : Warmth → String
  | hot => "hot"
  | cold => "cold"

/-- Something that happened while a scene was read. -/
inductive Event where
  /-- A new word got a number. -/
  | minted (word : Bytes) (number : Nat)
  /-- A token was read. -/
  | tokenRead (id : TokenId) (lexeme : Lexeme)
  /-- A malformed UTF-8 sequence of a string literal was replaced. -/
  | sequenceReplaced (offset size : Nat)
  /-- A bookmark could not be restored. -/
  | restoreFailed (warmth : Warmth) (source : String)
  /-- A byte that starts nothing was skipped. -/
  | byteSkipped (byte : UInt8) (source : String) (position : Position)
  /-- A string literal was not closed. -/
  | stringUnclosed (source : String) (position : Position)
  /-- Bytes of a string literal were replaced because they are not ASCII. -/
  | bytesReplaced (source : String) (position : Position)
  /-- A block comment was not closed. -/
  | commentUnclosed (position : Position)
  /-- A block comment nests too deep. -/
  | commentTooDeep (position : Position)
  /-- A number could not be read. -/
  | numberMalformed (lexeme : Lexeme)
  /-- A lexeme is not what its category promises. -/
  | contractBroken (lexeme : Lexeme)
deriving DecidableEq, Repr

namespace Event

/-- Two lowercase hexadecimal digits. -/
def hexByte (b : UInt8) : String :=
  String.ofList [Nat.digitChar (b.toNat / 16), Nat.digitChar (b.toNat % 16)]

/-- The level an event is reported at. -/
def level : Event → Level
  | minted .. | tokenRead .. => .trace
  | sequenceReplaced .. | restoreFailed .. => .debug
  | byteSkipped .. | stringUnclosed .. | bytesReplaced .. | commentUnclosed ..
  | commentTooDeep .. => .warn
  | numberMalformed .. | contractBroken .. => .error

/-- The text an event is reported with. -/
def message : Event → String
  | minted .. => "minted identifier"
  | tokenRead .. => "token"
  | sequenceReplaced .. => "replacing malformed UTF-8 sequence"
  | restoreFailed warmth _ =>
    warmth.text ++ " bookmark restore failed: bookmark is no longer valid"
  | byteSkipped byte _ _ => "skipping unexpected byte 0x" ++ hexByte byte
  | stringUnclosed .. => "unterminated string literal"
  | bytesReplaced .. => "non-ASCII bytes in string literal replaced"
  | commentUnclosed .. => "unterminated block comment"
  | commentTooDeep .. => "block comment nesting too deep"
  | numberMalformed .. => "malformed float literal"
  | contractBroken .. => "scanner contract violated"

/-- The details an event is reported with, by name. -/
def fields : Event → List (String × String)
  | minted word number => [("word", Utf8.text word), ("id", toString number)]
  | tokenRead id lexeme =>
    [("id", id.text), ("at", lexeme.position.text), ("text", lexeme.shown)]
  | sequenceReplaced offset size =>
    [("offset", toString offset), ("consumed", toString size)]
  | restoreFailed _ source => [("source", source)]
  | byteSkipped _ source position => [("source", source), ("at", position.text)]
  | stringUnclosed source position => [("source", source), ("at", position.text)]
  | bytesReplaced source position => [("source", source), ("at", position.text)]
  | commentUnclosed position => [("at", position.text)]
  | commentTooDeep position => [("at", position.text), ("max", toString Comment.maxDepth)]
  | numberMalformed lexeme => [("at", lexeme.position.text), ("text", lexeme.shown)]
  | contractBroken lexeme =>
    [("at", lexeme.position.text), ("category", lexeme.category.text), ("text", lexeme.shown)]

end Event

/-- What a step of a state machine answers, the state after it, and the events on the way, in
order. -/
structure Step (σ α : Type) where
  value : α
  state : σ
  events : List Event
deriving DecidableEq, Repr

end SceneTokens
