import SceneTokens.Utf8.Sequence

/-!
# Encodings of string literals

A scene file does not say how the bytes of its string literals are encoded. The reader is told
instead: UTF-8 bytes pass as they are, Latin-1 bytes become the UTF-8 encoding of the character
they stand for, and in plain ASCII every byte outside the range becomes a replacement
character. Transcoding works byte by byte and leaves ASCII bytes alone.
-/

namespace SceneTokens

/-- How the bytes of string literals are read. -/
inductive Encoding where
  | utf8
  | latin1
  | ascii
deriving DecidableEq, Repr

namespace Encoding

/-- The encoding used if nothing else is asked for. -/
def standard : Encoding := utf8

/-- How settings name an encoding. -/
def name : Encoding → String
  | utf8 => "utf8"
  | latin1 => "latin1"
  | ascii => "ascii"

/-- The encoding of a given name. -/
def ofName? (s : String) : Option Encoding :=
  [utf8, latin1, ascii].find? fun e => e.name == s

/-- The UTF-8 bytes one byte of a literal turns into. -/
def transcode (e : Encoding) (b : UInt8) : Bytes :=
  if Byte.isAscii b then [b]
  else match e with
    | utf8 => [b]
    | latin1 => Utf8.encode (Char.ofNat b.toNat)
    | ascii => Utf8.encode (Char.ofNat Utf8.replacement)

/-- The UTF-8 bytes a literal turns into. -/
def transcodeAll (e : Encoding) (bytes : Bytes) : Bytes :=
  bytes.flatMap e.transcode

/-- Whether transcoding loses what a literal says: only plain ASCII does, at a byte outside
its range. -/
def substitutes (e : Encoding) (bytes : Bytes) : Bool :=
  e == ascii && bytes.any fun b => !Byte.isAscii b

end Encoding

end SceneTokens
