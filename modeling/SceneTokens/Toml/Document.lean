import SceneTokens.Toml.Scalar

/-!
# Reading TOML documents

A document is a list of statements, one a line: a key with a value, or the header of a table.
`Statement.list?` reads the lines and `Document.ofStatements?` builds the tree they describe;
`Document.read?` does both. Arrays and tables in braces nest less than `nestingLimit` deep, and a
key has fewer parts than that.

Reading documents stands for a TOML library that is given from outside. No result rests on a
property of it: a session only needs that a text gives settings or none.
-/

namespace SceneTokens

namespace Toml

/-- Arrays, tables in braces and the parts of a key stay below this limit. -/
def nestingLimit : Nat := 80

/-! ## Keys and values -/

/-- One or more things with a separator between them, at most `fuel` of them. A separator that
nothing follows is left unread. -/
def separated {α : Type} (read : Parse α) (separator : Char) : Nat → Parse (List α)
  | 0, _ => none
  | fuel + 1, s =>
    match read s with
    | none => none
    | some (first, rest) =>
      if rest.head? == some separator then
        match separated read separator fuel (rest.drop 1) with
        | some (more, rest) => some (first :: more, rest)
        | none => some ([first], rest)
      else some ([first], rest)

/-- A dotted key with the blanks around its parts. -/
def key? (s : List Char) : Option (Key × List Char) := do
  let part := fun s => (simpleKey? (skipSpace s)).map fun (name, rest) => (name, skipSpace rest)
  let (parts, rest) ← separated part '.' s.length s
  let key ← Key.ofParts? parts
  if parts.length < nestingLimit then some (key, rest) else none

/-- A key, an equals sign and a value. -/
def definition? (value? : Parse Item) (s : List Char) : Option ((Key × Item) × List Char) := do
  let (key, s) ← key? s
  let s ← character? '=' s
  let (value, s) ← value? (skipSpace s)
  some ((key, value), s)

/-- The rest of an array, behind its opening bracket. -/
def arrayBody? (value? : Parse Item) (s : List Char) : Option (Item × List Char) := do
  let element : Parse Item := fun s => do
    let s ← gap? false s
    let (value, s) ← value? s
    let s ← gap? false s
    some (value, s)
  let (items, s) := (separated element ',' s.length s).getD ([], s)
  let s := if items.isEmpty then s else (character? ',' s).getD s
  let s ← gap? false s
  let s ← character? ']' s
  some (.array items, s)

/-- The rest of a table in braces, behind the opening one. -/
def braceBody? (value? : Parse Item) (s : List Char) : Option (Item × List Char) := do
  let element : Parse (Key × Item) := fun s =>
    (definition? value? s).map fun (d, rest) => (d, skipSpace rest)
  let (definitions, s) := (separated element ',' s.length s).getD ([], s)
  let s ← character? '}' (skipSpace s)
  let entries ← definitions.foldlM (fun es d => Entries.define .inline d.1 d.2 es) []
  some (.table .inline entries, s)

/-- A value in which arrays and braces nest at most `depth` deep. -/
def value? : Nat → Parse Item
  | 0, s => scalar? s
  | depth + 1, s =>
    match s with
    | [] => none
    | c :: tail =>
      if c == '[' then arrayBody? (value? depth) tail
      else if c == '{' then braceBody? (value? depth) tail
      else scalar? s

/-! ## Statements -/

/-- What one line of a document says. -/
inductive Statement where
  /-- A key has a value, in the table opened last. -/
  | define (key : Key) (value : Item)
  /-- A table is opened. -/
  | openTable (key : Key)
  /-- One more table of a list is opened. -/
  | openRow (key : Key)
deriving Repr

namespace Statement

/-- A statement, up to where its line should end. -/
def read? (s : List Char) : Option (Statement × List Char) :=
  if s.take 2 == ['[', '['] then do
    let (key, s) ← key? (s.drop 2)
    let s ← character? ']' s
    let s ← character? ']' s
    some (.openRow key, s)
  else if s.head? == some '[' then do
    let (key, s) ← key? (s.drop 1)
    let s ← character? ']' s
    some (.openTable key, s)
  else (definition? (value? (nestingLimit - 1)) s).map fun (d, rest) => (.define d.1 d.2, rest)

/-- The statements of at most `fuel` lines. -/
def lines? : Nat → List Char → Option (List Statement)
  | 0, s => if s.isEmpty then some [] else none
  | fuel + 1, s =>
    if s.isEmpty then some []
    else match lineEnd? s with
      | some rest => lines? fuel rest
      | none => do
        let (statement, s) ← read? (skipSpace s)
        let s ← lineEnd? s
        let more ← lines? fuel s
        some (statement :: more)

/-- The statements of a document. A byte order mark may stand at its start. -/
def list? (text : String) : Option (List Statement) :=
  let s := text.toList
  let s := if s.head? == some (Char.ofNat 0xFEFF) then s.drop 1 else s
  lines? s.length s

end Statement

/-! ## Documents -/

/-- The tree of a document that is being built, and the parts of the header it is under. -/
structure Document where
  root : Entries
  under : List String
deriving Repr

namespace Document

/-- A document that says nothing. -/
def empty : Document := ⟨[], []⟩

/-- Takes in one more statement. -/
def add (d : Document) : Statement → Option Document
  | .define key value =>
    (d.root.update false (fun here es => es.define here key value) .header d.under).map
      fun root => { d with root := root }
  | .openTable key => (d.root.openTable key).map fun root => ⟨root, key.parts⟩
  | .openRow key => (d.root.openRow key).map fun root => ⟨root, key.parts⟩

/-- The tree that statements describe, unless they contradict each other. -/
def ofStatements? (statements : List Statement) : Option Entries :=
  (statements.foldlM add empty).map Document.root

/-- The tree of a text, if the text is a document. -/
def read? (text : String) : Option Entries :=
  (Statement.list? text).bind ofStatements?

end Document

end Toml

end SceneTokens
