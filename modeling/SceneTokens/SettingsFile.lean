import SceneTokens.Lexing.Settings
import SceneTokens.Toml.Document
import SceneTokens.Tokens.Fault

/-!
# Settings as text

Settings are kept in TOML under two keys. A key that is missing leaves the standard choice, and
other keys are ignored; the text has to be a valid document all the same.

No result rests on which texts are valid, or on what they say. A session that is given a text takes
over the settings that `Settings.ofText?` reads in it, and changes nothing if there are none.
-/

namespace SceneTokens

namespace Settings

/-- Whether an item holds nothing. -/
def isEmptyItem : Toml.Item → Bool
  | .array items => items.isEmpty
  | .rows tables => tables.isEmpty
  | .table _ entries => entries.isEmpty
  | _ => false

/-- The encoding an item names: by a string, or by the only key of a table, with nothing under
it. -/
def encodingOf? : Toml.Item → Option Encoding
  | .text name => Encoding.ofName? name
  | .table _ [(name, item)] => if isEmptyItem item then Encoding.ofName? name else none
  | _ => none

/-- The truth value an item is. -/
def booleanOf? : Toml.Item → Option Bool
  | .boolean value => some value
  | _ => none

/-- What the item of a key says, or the standard choice if the key is missing. -/
def field? {α : Type} (entries : Toml.Entries) (key : String) (read : Toml.Item → Option α)
    (standard : α) : Option α :=
  match entries.lookup key with
  | none => some standard
  | some item => read item

/-- The settings a text asks for. -/
def ofText? (text : String) : Option Settings := do
  let entries ← Toml.Document.read? text
  let encoding ← field? entries "string_encoding" encodingOf? standard.encoding
  let nested ← field? entries "nested_block_comments" booleanOf? standard.nested
  some ⟨encoding, nested⟩

/-- The text of settings. -/
def text (s : Settings) : String :=
  "string_encoding = \"" ++ s.encoding.name ++ "\"\n" ++
    "nested_block_comments = " ++ (if s.nested then "true" else "false") ++ "\n"

/-- Reads settings from a file. -/
def load (f : Folder) (path : String) : Except SettingsFault Settings :=
  match f.readText path with
  | .error cause => .error (.unreadable path cause)
  | .ok text =>
    match ofText? text with
    | some settings => .ok settings
    | none => .error .malformed

end Settings

end SceneTokens
