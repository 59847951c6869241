import SceneTokens.Utf8.Sequence

/-!
# Strings and blanks of TOML

The characters a TOML document may hold, its blanks, comments and line breaks, and its four forms
of strings: in double quotes with escapes, in single quotes without, and both in three quotes
over several lines. Each reader gives what it has read and the characters behind it. No result rests
on a property of these readers.
-/

namespace SceneTokens

namespace Toml

/-- A part of a document that was read, and what is left. -/
abbrev Parse (α : Type) := List Char → Option (α × List Char)

def doubleQuote : Char := Char.ofNat 0x22
def singleQuote : Char := Char.ofNat 0x27
def escapeSign : Char := Char.ofNat 0x5C
def tab : Char := Char.ofNat 0x09
def lineFeed : Char := Char.ofNat 0x0A
def carriageReturn : Char := Char.ofNat 0x0D

/-! ## Blanks, comments and line breaks -/

/-- A space or a tab. -/
def isSpace (c : Char) : Bool :=
  c == ' ' || c == tab

/-- A character of comments and strings: a tab, or any but the control characters. -/
def isPlain (c : Char) : Bool :=
  c == tab || (0x20 ≤ c.toNat && c.toNat != 0x7F)

/-- What follows the spaces and tabs at the front. -/
def skipSpace (s : List Char) : List Char :=
  s.dropWhile isSpace

/-- Number of characters of the line break at the front: one, two, or none. A carriage return
alone breaks no line. -/
def breakSize : List Char → Nat
  | [] => 0
  | c :: s =>
    if c == lineFeed then 1
    else if c == carriageReturn && s.head? == some lineFeed then 2
    else 0

/-- What follows a comment at the front, if there is one. -/
def skipComment (s : List Char) : List Char :=
  if s.head? == some '#' then s.dropWhile isPlain else s

/-- The rest of a line that holds nothing more than spaces and a comment, its end included. -/
def lineEnd? (s : List Char) : Option (List Char) :=
  let tail := skipComment (skipSpace s)
  if tail.isEmpty then some []
  else if breakSize tail = 0 then none
  else some (tail.drop (breakSize tail))

/-- Number of spaces, tabs and line breaks at the front. -/
def blankSize : List Char → Nat
  | [] => 0
  | [c] => if isSpace c || c == lineFeed then 1 else 0
  | c :: d :: s =>
    if isSpace c || c == lineFeed then 1 + blankSize (d :: s)
    else if c == carriageReturn && d == lineFeed then 2 + blankSize s
    else 0

/-- Skips spaces, line breaks and comments; inside a comment if `inComment` says so. A comment
has to end with its line. -/
def gap? (inComment : Bool) : List Char → Option (List Char)
  | [] => if inComment then none else some []
  | c :: s =>
    if c == lineFeed || (c == carriageReturn && s.head? == some lineFeed) then gap? false s
    else if inComment then
      if isPlain c then gap? true s else none
    else if c == '#' then gap? true s
    else if isSpace c then gap? false s
    else some (c :: s)

/-! ## Escapes -/

/-- The value of a hexadecimal digit. -/
def hexValue? (c : Char) : Option Nat :=
  if c.toNat < 0x80 then Byte.hexValue? c.toNat.toUInt8 else none

/-- The number a string of digits denotes in some base. -/
def numberOf? (base : Nat) (digits : List Char) : Option Nat :=
  digits.foldlM (fun value c =>
    match hexValue? c with
    | some d => if d < base then some (value * base + d) else none
    | none => none) 0

/-- The character with exactly `n` hexadecimal digits at the front. -/
def hexEscape? (n : Nat) (s : List Char) : Option Char :=
  if n ≤ s.length then (numberOf? 16 (s.take n)).bind Utf8.char? else none

/-- The character an escape stands for, given what follows its backslash, and the number of
characters it takes from there. -/
def escape? : List Char → Option (Char × Nat)
  | [] => none
  | c :: s =>
    if c == 'b' then some (Char.ofNat 0x08, 1)
    else if c == 't' then some (tab, 1)
    else if c == 'n' then some (lineFeed, 1)
    else if c == 'f' then some (Char.ofNat 0x0C, 1)
    else if c == 'r' then some (carriageReturn, 1)
    else if c == doubleQuote || c == escapeSign then some (c, 1)
    else if c == 'u' then (hexEscape? 4 s).map fun d => (d, 5)
    else if c == 'U' then (hexEscape? 8 s).map fun d => (d, 9)
    else none

/-! ## Strings on one line -/

/-- The rest of a string in double quotes, behind the opening one. -/
def quotedBody : Parse (List Char)
  | [] => none
  | c :: s =>
    if c == doubleQuote then some ([], s)
    else if c == escapeSign then
      match escape? s with
      | none => none
      | some (d, size) => (quotedBody (s.drop size)).map fun (body, rest) => (d :: body, rest)
    else if isPlain c then (quotedBody s).map fun (body, rest) => (c :: body, rest)
    else none
termination_by s => s.length

/-- The rest of a string in single quotes, behind the opening one. -/
def literalBody : Parse (List Char)
  | [] => none
  | c :: s =>
    if c == singleQuote then some ([], s)
    else if isPlain c then (literalBody s).map fun (body, rest) => (c :: body, rest)
    else none

/-! ## Strings over several lines -/

/-- The quotes at the front of a string in three quotes: one or two belong to it if something
else follows. Three close it, and up to two more before them belong to it; the answer is then
how many belong to it. -/
def closingQuotes? (quote : Char) (s : List Char) : Option Nat :=
  let count := (s.takeWhile (· == quote)).length
  if count < 3 then none else some (min (count - 3) 2)

/-- Number of characters that a backslash at the end of a line takes away behind itself: the end
of the line and all blanks after it. -/
def continuationSize (s : List Char) : Nat :=
  let spaces := (s.takeWhile isSpace).length
  let tail := s.drop spaces
  if breakSize tail = 0 then 0 else spaces + blankSize tail

/-- The rest of a string in three double quotes. -/
def longQuotedBody : Parse (List Char)
  | [] => none
  | c :: s =>
    match closingQuotes? doubleQuote (c :: s) with
    | some extra => some (List.replicate extra doubleQuote, (c :: s).drop (extra + 3))
    | none =>
      if c == escapeSign then
        if continuationSize s = 0 then
          match escape? s with
          | none => none
          | some (d, size) =>
            (longQuotedBody (s.drop size)).map fun (body, rest) => (d :: body, rest)
        else longQuotedBody (s.drop (continuationSize s))
      else if c == carriageReturn && s.head? == some lineFeed then longQuotedBody s
      else if c == lineFeed || isPlain c then
        (longQuotedBody s).map fun (body, rest) => (c :: body, rest)
      else none
termination_by s => s.length

/-- The rest of a string in three single quotes. -/
def longLiteralBody : Parse (List Char)
  | [] => none
  | c :: s =>
    match closingQuotes? singleQuote (c :: s) with
    | some extra => some (List.replicate extra singleQuote, (c :: s).drop (extra + 3))
    | none =>
      if c == carriageReturn && s.head? == some lineFeed then longLiteralBody s
      else if c == lineFeed || isPlain c then
        (longLiteralBody s).map fun (body, rest) => (c :: body, rest)
      else none

/-- A string of any form. A line break right behind three opening quotes is left out. -/
def string? (s : List Char) : Option (String × List Char) :=
  let behind := s.drop 3
  let long := behind.drop (breakSize behind)
  let body :=
    if s.take 3 == List.replicate 3 doubleQuote then longQuotedBody long
    else if s.take 3 == List.replicate 3 singleQuote then longLiteralBody long
    else if s.head? == some doubleQuote then quotedBody (s.drop 1)
    else if s.head? == some singleQuote then literalBody (s.drop 1)
    else none
  body.map fun (chars, rest) => (String.ofList chars, rest)

/-! ## Keys -/

/-- A character of a key without quotes. -/
def isBare (c : Char) : Bool :=
  c.isAlphanum || c == '_' || c == '-'

/-- A key without dots: bare, or in quotes on one line. -/
def simpleKey? (s : List Char) : Option (String × List Char) :=
  if s.head? == some doubleQuote then
    (quotedBody (s.drop 1)).map fun (chars, rest) => (String.ofList chars, rest)
  else if s.head? == some singleQuote then
    (literalBody (s.drop 1)).map fun (chars, rest) => (String.ofList chars, rest)
  else if (s.takeWhile isBare).isEmpty then none
  else some (String.ofList (s.takeWhile isBare), s.dropWhile isBare)

end Toml

end SceneTokens
