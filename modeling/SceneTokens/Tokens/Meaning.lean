import SceneTokens.Event
import SceneTokens.Quoted.Payload
import SceneTokens.Tokens.Fault
import SceneTokens.Tokens.Token
import SceneTokens.Vocabulary.Symbol

/-!
# What a lexeme means

`Lexeme.interpret` turns a lexeme into a token: a word gets its identity from the table of known
words, a number and a string literal are decoded, a symbol is classified. Only a word can change
the table.

A malformed escape is reported at its place in the source, where a string literal may take other
bytes than in the lexeme. `Lexeme.escapePosition` finds the place by counting backslashes, which
are the same in both.
-/

namespace SceneTokens

namespace Lexeme

/-! ## The place of an escape -/

/-- The bytes before the `n`-th backslash, counted from 0. -/
def beforeBackslash? : Nat → Bytes → Option Bytes
  | _, [] => none
  | n, b :: rest =>
    if b = Byte.backslash then
      match n with
      | 0 => some []
      | n + 1 => (beforeBackslash? n rest).map (b :: ·)
    else (beforeBackslash? n rest).map (b :: ·)

/-- The bytes of the input from the start of a lexeme on, if a quote stands there. -/
def quotedInput? (input : Option Handle) (l : Lexeme) : Option Bytes :=
  match input with
  | none => none
  | some h =>
    let raw := h.content.drop l.position.offset
    if raw.head? = some Byte.quote then some raw else none

/-- The position of a backslash that stands at `offset` in the payload of a string lexeme. -/
def escapePosition (input : Option Handle) (l : Lexeme) (offset : Nat) : Position :=
  let before := l.text.take (1 + offset)
  let ordinal := before.count Byte.backslash
  l.position.reach (((quotedInput? input l).bind (beforeBackslash? ordinal)).getD before)

/-! ## Categories -/

/-- Whether a text stands in double quotes. -/
def isQuoted (text : Bytes) : Bool :=
  2 ≤ text.length && text.head? == some Byte.quote && text.getLast? == some Byte.quote

/-- The bytes between the quotes. -/
def payload (text : Bytes) : Bytes :=
  (text.drop 1).take (text.length - 2)

/-- A lexeme that is not what its category promises. -/
def unexpected (l : Lexeme) (words : WordTable) : Step WordTable (Except TokenFault Token) :=
  ⟨.error (.unexpectedLexeme l.position l.text), words, [.contractBroken l]⟩

/-- A token that was read, with the events before it. -/
def understood (token : Token) (words : WordTable) (events : List Event) :
    Step WordTable (Except TokenFault Token) :=
  ⟨.ok token, words, events ++ [.tokenRead token.id token.lexeme]⟩

/-- The meaning of a word. -/
def interpretWord (l : Lexeme) (words : WordTable) : Step WordTable (Except TokenFault Token) :=
  let step := words.resolve l.text
  match step.value with
  | some known => understood (.ofWord l known) step.state step.events
  | none => ⟨.error .identitiesExhausted, step.state, step.events⟩

/-- The meaning of a number. -/
def interpretNumber (l : Lexeme) (words : WordTable) :
    Step WordTable (Except TokenFault Token) :=
  match Binary64.read? l.text with
  | some value => understood (.ofFloat l value) words []
  | none => ⟨.error (.malformedNumber l.position l.text), words, [.numberMalformed l]⟩

/-- The replacements made while a payload is decoded. -/
def replacements (payload : Bytes) : List Event :=
  (Payload.malformed payload).map fun m => .sequenceReplaced m.1 m.2

/-- The meaning of a string literal. -/
def interpretString (input : Option Handle) (l : Lexeme) (words : WordTable) :
    Step WordTable (Except TokenFault Token) :=
  if isQuoted l.text then
    let replaced := replacements (payload l.text)
    match Payload.decode (payload l.text) with
    | .ok units => understood (.ofString l units) words replaced
    | .error fault =>
      let position := escapePosition input l fault.offset
      ⟨.error (.invalidEscape input position fault.text), words, replaced⟩
  else unexpected l words

/-- The meaning of a symbol. -/
def interpretSymbol (l : Lexeme) (words : WordTable) :
    Step WordTable (Except TokenFault Token) :=
  match Symbol.classify? l.text with
  | some id => understood (.ofSymbol l id) words []
  | none => unexpected l words

/-- The meaning of a lexeme of the given input. -/
def interpret (input : Option Handle) (l : Lexeme) (words : WordTable) :
    Step WordTable (Except TokenFault Token) :=
  match l.category with
  | .word => l.interpretWord words
  | .number => l.interpretNumber words
  | .string => l.interpretString input words
  | .symbol => l.interpretSymbol words

end Lexeme

end SceneTokens
