import SceneTokens.Event
import SceneTokens.Input.Source
import SceneTokens.Lexing.Settings

/-!
# Scanners

A scanner hands out lexemes one after another. It can be given a new input, can be told its
settings, and can be sent back to a bookmark. A hot bookmark is cheap and holds only as long as
the input stays attached; a cold one remembers its input and brings it back.

A scanner comes with a measure that goes down with every lexeme, so reading to the end is
possible from every state (`Scanner.next_remaining`).
-/

namespace SceneTokens

/-- What came of going back to a bookmark: whether it worked, and the state after it. -/
structure Restoration (σ : Type) where
  restored : Bool
  state : σ
deriving DecidableEq, Repr

/-- A supply of lexemes that can be sent back to places it has been at. -/
class Scanner (σ : Type) where
  /-- Bookmarks that hold while the input stays attached. -/
  Hot : Type
  /-- Bookmarks that bring their input back. -/
  Cold : Type
  /-- Reads the next lexeme, `none` at the end. -/
  next : σ → Step σ (Option Lexeme)
  /-- Reads on to the next lexeme that introduces a directive. -/
  nextDirective : σ → Step σ (Option Lexeme)
  /-- Starts over with a new input. -/
  attach : σ → Handle → σ
  /-- The input that is attached. -/
  input? : σ → Option Handle
  /-- Chooses the encoding of string literals. -/
  setEncoding : σ → Encoding → σ
  /-- Chooses whether block comments nest. -/
  setNested : σ → Bool → σ
  /-- A hot bookmark for the present place. -/
  hotMark : σ → Hot
  /-- A cold bookmark for the present place. -/
  coldMark : σ → Cold
  /-- Goes back to a hot bookmark. -/
  goHot : σ → Hot → Restoration σ
  /-- Goes back to a cold bookmark. -/
  goCold : σ → Cold → Restoration σ
  /-- A bound for the number of lexemes to come. -/
  remaining : σ → Nat
  /-- Every lexeme lowers the bound. -/
  next_remaining : ∀ s : σ, (next s).value.isSome → remaining (next s).state < remaining s

namespace Scanner

variable {σ : Type} [Scanner σ]

/-- The name of the attached input, empty if there is none. -/
def inputName (s : σ) : String :=
  ((input? s).map Handle.name).getD ""

/-- Takes over both settings. -/
def configure (s : σ) (settings : Settings) : σ :=
  setNested (setEncoding s settings.encoding) settings.nested

/-- Reads all lexemes up to the end. -/
def drain (s : σ) : Step σ (List Lexeme) :=
  let step := next s
  match _h : step.value with
  | none => ⟨[], step.state, step.events⟩
  | some lexeme =>
    let more := drain step.state
    ⟨lexeme :: more.value, more.state, step.events ++ more.events⟩
termination_by remaining s
decreasing_by exact next_remaining s (Option.isSome_of_eq_some _h)

end Scanner

end SceneTokens
