import SceneTokens.Event
import SceneTokens.Vocabulary.Reserved

/-!
# Known words

A `WordTable` gives every word it has seen an identity. It starts with the reserved words of a
vocabulary; a word it does not know gets the next free number, and keeps it. Entries are only
ever added, so what a table has once answered for a word it answers from then on.
-/

namespace SceneTokens

/-- What is known of a word: its identity and the class it has in expressions. -/
structure KnownWord where
  id : TokenId
  expression : TokenId
deriving DecidableEq, Repr

/-- Words with what is known of them, and the number given out last. -/
structure WordTable where
  entries : List (Bytes × KnownWord)
  counter : Nat
deriving DecidableEq, Repr

namespace WordTable

/-- What the counter starts from. The first number given out is one more. -/
def seed : Nat := TokenId.fixedCount + 1

/-- Numbers from here on are too large for an identity. -/
def numberLimit : Nat := 0x100000000

/-- A reserved word is known by its identity and that identity's class. -/
def ofReserved (w : ReservedWord) : KnownWord :=
  ⟨w.id, w.id.expressionClass⟩

/-- A minted word is an identifier in expressions. -/
def minted (number : Nat) : KnownWord :=
  ⟨⟨number⟩, .identifier⟩

/-- Puts an entry in place of the one with the same word, or at the end. -/
def put (entries : List (Bytes × KnownWord)) (word : Bytes) (known : KnownWord) :
    List (Bytes × KnownWord) :=
  match entries with
  | [] => [(word, known)]
  | e :: rest => if e.1 = word then (word, known) :: rest else e :: put rest word known

/-- The table of a vocabulary. Entries that are no words are left out, and of two entries with
one name the later counts. -/
def ofVocabulary (reserved : List ReservedWord) : WordTable :=
  ⟨(reserved.filter ReservedWord.isWord).foldl (fun es w => put es w.bytes (ofReserved w)) [],
    seed⟩

/-- What the table knows of a word. -/
def get? (t : WordTable) (word : Bytes) : Option KnownWord :=
  t.entries.lookup word

/-- Number of words in the table. -/
def size (t : WordTable) : Nat :=
  t.entries.length

/-- The number minted last, if any was. -/
def lastMinted? (t : WordTable) : Option Nat :=
  if t.counter = seed then none else some t.counter

/-- Looks a word up and adds it under the next number if it is new. There is no answer if the
word is new and the numbers are used up. -/
def resolve (t : WordTable) (word : Bytes) : Step WordTable (Option KnownWord) :=
  match t.get? word with
  | some known => ⟨some known, t, []⟩
  | none =>
    let number := t.counter + 1
    if number < numberLimit then
      ⟨some (minted number), ⟨t.entries ++ [(word, minted number)], number⟩,
        [.minted word number]⟩
    else ⟨none, t, []⟩

end WordTable

end SceneTokens
