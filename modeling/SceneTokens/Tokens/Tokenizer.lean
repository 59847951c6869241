import SceneTokens.Lexing.Scanner
import SceneTokens.Tokens.Meaning

/-!
# Tokenizers

A tokenizer reads tokens from a scanner and remembers the words it has met. A fault takes the
place of a token and does not stop the reading: `Tokenizer.drain` collects tokens and faults up
to the end.
-/

namespace SceneTokens

/-- A scanner with the words known so far. -/
structure Tokenizer (σ : Type) where
  scanner : σ
  words : WordTable

/-- A token, or the fault in its place. -/
abbrev Item := Except TokenFault Token

namespace Tokenizer

variable {σ : Type}

/-- A tokenizer that knows the words of a vocabulary. -/
def ofVocabulary (scanner : σ) (reserved : List ReservedWord) : Tokenizer σ :=
  ⟨scanner, .ofVocabulary reserved⟩

variable [Scanner σ]

/-- Reads the next token, `none` at the end. -/
def next (t : Tokenizer σ) : Step (Tokenizer σ) (Option Item) :=
  let step := Scanner.next t.scanner
  match step.value with
  | none => ⟨none, { t with scanner := step.state }, step.events⟩
  | some lexeme =>
    let meaning := lexeme.interpret (Scanner.input? step.state) t.words
    ⟨some meaning.value, ⟨step.state, meaning.state⟩, step.events ++ meaning.events⟩

theorem next_scanner (t : Tokenizer σ) :
    t.next.state.scanner = (Scanner.next t.scanner).state := by
  simp only [next]
  split <;> rfl

theorem next_isSome (t : Tokenizer σ) :
    t.next.value.isSome = (Scanner.next t.scanner).value.isSome := by
  simp only [next]
  split <;> simp_all

/-- Reads all tokens up to the end. -/
def drain (t : Tokenizer σ) : Step (Tokenizer σ) (List Item) :=
  let step := t.next
  match _h : step.value with
  | none => ⟨[], step.state, step.events⟩
  | some item =>
    let more := drain step.state
    ⟨item :: more.value, more.state, step.events ++ more.events⟩
termination_by Scanner.remaining t.scanner
decreasing_by
  rw [next_scanner]
  exact Scanner.next_remaining t.scanner (next_isSome t ▸ Option.isSome_of_eq_some _h)

/-- Reads on to the next directive. The words passed over stay unknown. -/
def nextDirective (t : Tokenizer σ) : Step (Tokenizer σ) (Option Token) :=
  let step := Scanner.nextDirective t.scanner
  ⟨step.value.map Token.ofDirective, { t with scanner := step.state }, step.events⟩

/-! ## Bookmarks -/

/-- What going back to a bookmark amounts to for a tokenizer. The words stay known, and a failure
is reported with the name of the input attached then. -/
def restored (t : Tokenizer σ) (warmth : Warmth) (r : Restoration σ) :
    Step (Tokenizer σ) (Except TokenFault Unit) :=
  if r.restored then ⟨.ok (), { t with scanner := r.state }, []⟩
  else ⟨.error .staleBookmark, { t with scanner := r.state },
    [.restoreFailed warmth (Scanner.inputName r.state)]⟩

/-- Goes back to a hot bookmark. -/
def goHot (t : Tokenizer σ) (m : Scanner.Hot σ) : Step (Tokenizer σ) (Except TokenFault Unit) :=
  t.restored .hot (Scanner.goHot t.scanner m)

/-- Goes back to a cold bookmark. -/
def goCold (t : Tokenizer σ) (m : Scanner.Cold σ) : Step (Tokenizer σ) (Except TokenFault Unit) :=
  t.restored .cold (Scanner.goCold t.scanner m)

end Tokenizer

end SceneTokens
