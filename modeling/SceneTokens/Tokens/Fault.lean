import SceneTokens.Input.Files

/-!
# What can go wrong

Reading tokens fails for a handful of reasons. A `TokenFault` says which one it was and where;
`TokenFault.message` words it for the author of the scene.
-/

namespace SceneTokens

/-- Why settings could not be taken over. -/
inductive SettingsFault where
  /-- Their file cannot be read. -/
  | unreadable (path : String) (cause : FileFault)
  /-- Their text makes no sense. -/
  | malformed
deriving DecidableEq, Repr

/-- The wording of a fault in settings. -/
def SettingsFault.message : SettingsFault → String
  | unreadable path cause => "Failed to read " ++ path ++ ": " ++ cause.message
  | malformed => "Invalid configuration"

/-- Why a token could not be read. -/
inductive TokenFault where
  /-- A string literal holds a malformed escape. -/
  | invalidEscape (input : Option Handle) (position : Position) (text : Bytes)
  /-- A number lexeme does not start like a number. -/
  | malformedNumber (position : Position) (text : Bytes)
  /-- A lexeme is not what its category promises. -/
  | unexpectedLexeme (position : Position) (text : Bytes)
  /-- A bookmark does not hold any more. -/
  | staleBookmark
  /-- No number is left for a new word. -/
  | identitiesExhausted
  /-- Settings could not be taken over. -/
  | settings (fault : SettingsFault)
deriving DecidableEq, Repr

namespace TokenFault

/-- Where the fault lies. -/
def position? : TokenFault → Option Position
  | invalidEscape _ position _ => some position
  | malformedNumber position _ => some position
  | unexpectedLexeme position _ => some position
  | staleBookmark | identitiesExhausted | settings _ => none

/-- A position with the name of its input in front, if there is one. -/
def located (input : Option Handle) (position : Position) : String :=
  match input with
  | some h => h.name ++ ":" ++ position.text
  | none => position.text

/-- The wording of a fault. -/
def message : TokenFault → String
  | invalidEscape input position text =>
    located input position ++ ": invalid escape sequence '" ++ Utf8.text text ++ "'"
  | malformedNumber position text =>
    position.text ++ ": malformed float literal '" ++ Utf8.text text ++ "'"
  | unexpectedLexeme position text =>
    position.text ++ ": scanner produced unexpected lexeme '" ++ Utf8.text text ++ "'"
  | staleBookmark => "bookmark is no longer valid"
  | identitiesExhausted => "identifier identities exhausted"
  | settings fault => "Configuration error: " ++ fault.message

end TokenFault

end SceneTokens
