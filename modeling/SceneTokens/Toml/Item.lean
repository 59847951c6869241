import SceneTokens.Decimal.Binary64

/-!
# TOML documents

A TOML document is a tree of tables. A table remembers how it came to be, because that decides
what may still be added to it: a table written in braces is closed, a table with a header of its
own takes keys under that header only, a table that a longer header or a dotted key implies can
be extended further.

`Entries.define` adds a key with dots in it, `Entries.openTable` and `Entries.openRow` open the
table of a header in single and in double brackets. Each answers `none` if the document says
something twice or contradicts itself. No result rests on a property of these trees.
-/

namespace SceneTokens

namespace Toml

/-- How a table came to be. -/
inductive Standing where
  /-- Written in braces. -/
  | inline
  /-- Opened by a header. -/
  | header
  /-- Implied by the header of a table inside it. -/
  | implied
  /-- Implied by a dotted key. -/
  | dotted
deriving DecidableEq, Repr

/-- What a key stands for. -/
inductive Item where
  | text (value : String)
  | integer (value : Int)
  | float (value : Binary64)
  | boolean (value : Bool)
  /-- A date, a time, or both, as it was written. -/
  | moment (written : String)
  | array (items : List Item)
  /-- The tables opened by one header in double brackets. -/
  | rows (tables : List (List (String × Item)))
  | table (standing : Standing) (entries : List (String × Item))
deriving Repr

/-- The keys of a table with their items, in the order of the document. -/
abbrev Entries := List (String × Item)

/-- A dotted key: the tables it leads through, and the key in the last of them. -/
structure Key where
  path : List String
  last : String
deriving DecidableEq, Repr

/-- All parts of a key. -/
def Key.parts (k : Key) : List String :=
  k.path ++ [k.last]

/-- The key with the given parts. -/
def Key.ofParts? (parts : List String) : Option Key :=
  parts.getLast?.map fun last => ⟨parts.dropLast, last⟩

namespace Entries

/-- Puts an item in the place of the one a key has. -/
def replace (es : Entries) (key : String) (item : Item) : Entries :=
  es.map fun e => if e.1 = key then (key, item) else e

/-- Whether a path may lead through a table. A dotted key does not reach into a table with a
header, and nothing reaches into braces. -/
def mayEnter (dotted : Bool) : Standing → Bool
  | .inline => false
  | .header => !dotted
  | .implied => true
  | .dotted => true

/-- How a table is marked that a path creates on its way. -/
def onTheWay (dotted : Bool) : Standing :=
  if dotted then .dotted else .implied

/-- Changes the table a path leads to, creating tables on the way. Of the tables under one
header in double brackets a path leads into the last. -/
def update (dotted : Bool) (change : Standing → Entries → Option Entries) (here : Standing) :
    List String → Entries → Option Entries
  | [], es => change here es
  | key :: path, es =>
    match es.lookup key with
    | none =>
      (update dotted change (onTheWay dotted) path []).map fun sub =>
        es ++ [(key, .table (onTheWay dotted) sub)]
    | some (.table standing sub) =>
      if mayEnter dotted standing then
        (update dotted change standing path sub).map fun sub =>
          es.replace key (.table standing sub)
      else none
    | some (.rows tables) =>
      match tables.getLast? with
      | none => none
      | some row =>
        (update dotted change .header path row).map fun row =>
          es.replace key (.rows (tables.dropLast ++ [row]))
    | some _ => none

/-- Adds an item under a dotted key, in a table that came to be as `here` says. A key is defined
once, and a table is extended by dotted keys only if a dotted key created it. -/
def define (here : Standing) (key : Key) (item : Item) (es : Entries) : Option Entries :=
  update true (fun standing sub =>
    if (standing == .dotted) == key.path.isEmpty then none
    else if (sub.lookup key.last).isSome then none
    else some (sub ++ [(key.last, item)])) here key.path es

/-- Opens the table of a header in single brackets. It may have been implied, but not more. -/
def openTable (key : Key) (es : Entries) : Option Entries :=
  update false (fun _ sub =>
    match sub.lookup key.last with
    | none => some (sub ++ [(key.last, .table .header [])])
    | some (.table .implied inner) => some (sub.replace key.last (.table .header inner))
    | some _ => none) .header key.path es

/-- Opens one more table of a header in double brackets. -/
def openRow (key : Key) (es : Entries) : Option Entries :=
  update false (fun _ sub =>
    match sub.lookup key.last with
    | none => some (sub ++ [(key.last, .rows [[]])])
    | some (.rows tables) => some (sub.replace key.last (.rows (tables ++ [[]])))
    | some _ => none) .header key.path es

end Entries

end Toml

end SceneTokens
