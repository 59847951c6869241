import SceneTokens.SettingsFile
import SceneTokens.Tokens.Tokenizer

/-!
# Sessions

A session is a tokenizer in use: its caller asks for one thing after another, and names the
bookmarks it takes. The requests a caller can make are data (`Request`), so a whole course of a
session is a list of them, in any order.
-/

namespace SceneTokens

/-- What the caller of a session can ask for. -/
inductive Request where
  /-- The next token. -/
  | next
  /-- All tokens up to the end. -/
  | drain
  /-- The next directive. -/
  | directive
  /-- The scanner's next lexeme, its meaning left open. -/
  | lexeme
  /-- The scanner's next directive, its meaning left open. -/
  | rawDirective
  /-- Save a hot bookmark under a name. -/
  | saveHot (slot : String)
  /-- Save a cold bookmark under a name. -/
  | saveCold (slot : String)
  /-- Go back to a hot bookmark. -/
  | goHot (slot : String)
  /-- Go back to a cold bookmark. -/
  | goCold (slot : String)
  /-- Start over with another input. -/
  | attach (input : Handle)
  /-- Choose the encoding of string literals. -/
  | setEncoding (encoding : Encoding)
  /-- Choose whether block comments nest. -/
  | setNested (nested : Bool)
  /-- Take over settings from their text. -/
  | configure (text : String)
  /-- What is known of a word. -/
  | lookUp (word : Bytes)
  /-- A line of the attached input. -/
  | line (number : Nat)
  /-- Forget all words but the reserved ones. -/
  | forget
deriving DecidableEq, Repr

/-- What a session answers. -/
inductive Reply where
  | done
  | item (item : Option Item)
  | items (items : List Item)
  | token (token : Option Token)
  | lexeme (lexeme : Option Lexeme)
  | known (known : Option KnownWord)
  | line (line : Option Bytes)
  | fault (fault : TokenFault)
  /-- No bookmark was saved under the name. -/
  | noBookmark

/-- A tokenizer, the vocabulary it started from, and the bookmarks saved so far. -/
structure Session (σ : Type) [Scanner σ] where
  tokenizer : Tokenizer σ
  reserved : List ReservedWord
  hot : List (String × Scanner.Hot σ)
  cold : List (String × Scanner.Cold σ)

namespace Session

variable {σ : Type} [Scanner σ]

/-- A session at its start. -/
def start (scanner : σ) (reserved : List ReservedWord) : Session σ :=
  ⟨.ofVocabulary scanner reserved, reserved, [], []⟩

/-- The scanner in use. -/
def scanner (s : Session σ) : σ :=
  s.tokenizer.scanner

/-- The session with another scanner. -/
def withScanner (s : Session σ) (scanner : σ) : Session σ :=
  { s with tokenizer := { s.tokenizer with scanner := scanner } }

/-- A request that only changes the scanner. -/
def change (s : Session σ) (scanner : σ) : Step (Session σ) Reply :=
  ⟨.done, s.withScanner scanner, []⟩

/-- A step of the tokenizer as a step of the session. -/
def ofTokenizer {α : Type} (s : Session σ) (step : Step (Tokenizer σ) α) (reply : α → Reply) :
    Step (Session σ) Reply :=
  ⟨reply step.value, { s with tokenizer := step.state }, step.events⟩

/-- A step of the scanner as a step of the session. -/
def ofScanner (s : Session σ) (step : Step σ (Option Lexeme)) : Step (Session σ) Reply :=
  ⟨.lexeme step.value, s.withScanner step.state, step.events⟩

/-- The answer to going back to a bookmark. -/
def restoreReply : Except TokenFault Unit → Reply
  | .ok () => .done
  | .error fault => .fault fault

/-- Saves a value under a name, in place of the one saved before. -/
def save {β : Type} (slots : List (String × β)) (slot : String) (value : β) :
    List (String × β) :=
  (slot, value) :: slots.filter fun s => s.1 != slot

/-- What a session does on a request. -/
def respond (s : Session σ) : Request → Step (Session σ) Reply
  | .next => s.ofTokenizer s.tokenizer.next .item
  | .drain => s.ofTokenizer s.tokenizer.drain .items
  | .directive => s.ofTokenizer s.tokenizer.nextDirective .token
  | .lexeme => s.ofScanner (Scanner.next s.scanner)
  | .rawDirective => s.ofScanner (Scanner.nextDirective s.scanner)
  | .saveHot slot => ⟨.done, { s with hot := save s.hot slot (Scanner.hotMark s.scanner) }, []⟩
  | .saveCold slot =>
    ⟨.done, { s with cold := save s.cold slot (Scanner.coldMark s.scanner) }, []⟩
  | .goHot slot =>
    match s.hot.lookup slot with
    | none => ⟨.noBookmark, s, []⟩
    | some m => s.ofTokenizer (s.tokenizer.goHot m) restoreReply
  | .goCold slot =>
    match s.cold.lookup slot with
    | none => ⟨.noBookmark, s, []⟩
    | some m => s.ofTokenizer (s.tokenizer.goCold m) restoreReply
  | .attach input => s.change (Scanner.attach s.scanner input)
  | .setEncoding encoding => s.change (Scanner.setEncoding s.scanner encoding)
  | .setNested nested => s.change (Scanner.setNested s.scanner nested)
  | .configure text =>
    match Settings.ofText? text with
    | some settings => s.change (Scanner.configure s.scanner settings)
    | none => ⟨.fault (.settings .malformed), s, []⟩
  | .lookUp word => ⟨.known (s.tokenizer.words.get? word), s, []⟩
  | .line number =>
    ⟨.line ((Scanner.input? s.scanner).bind fun h => h.source.line? number), s, []⟩
  | .forget => ⟨.done, { s with tokenizer := .ofVocabulary s.scanner s.reserved }, []⟩

/-- The steps of a session on a list of requests, in order. -/
def steps (s : Session σ) : List Request → List (Step (Session σ) Reply)
  | [] => []
  | r :: rs =>
    let step := s.respond r
    step :: steps step.state rs

/-- The session after a list of requests. -/
def after (s : Session σ) (requests : List Request) : Session σ :=
  requests.foldl (fun s r => (s.respond r).state) s

end Session

end SceneTokens
