import Mathlib.Logic.Relation
import SceneTokens.Lexing.Reader
import SceneTokens.Tokens.Session

/-!
# Courses of a session

A request may make a session do many things: draining it reads lexemes and learns words up to the
end. `Session.Move` lists the single things it can do, and `Session.respond_moves` says that every
request but the one that forgets the words comes down to a row of them. What each move keeps is
then kept on every course, whatever the requests and their order
(`Session.after_moves`, `Session.Reachable.induction`).
-/

namespace SceneTokens

/-! ## What a tokenizer changes -/

/-- Only a word changes the table, by being looked up. -/
theorem Lexeme.interpret_state (input : Option Handle) (l : Lexeme) (words : WordTable) :
    (l.interpret input words).state =
      if l.category = .word then (words.resolve l.text).state else words := by
  cases hc : l.category with
  | word =>
    simp only [interpret, hc, interpretWord]
    split <;> rfl
  | number =>
    simp only [interpret, hc, interpretNumber]
    split <;> rfl
  | string =>
    simp only [interpret, hc, interpretString]
    split
    · split <;> rfl
    · rfl
  | symbol =>
    simp only [interpret, hc, interpretSymbol]
    split <;> rfl

namespace Tokenizer

variable {σ : Type} [Scanner σ]

theorem next_of_none {t : Tokenizer σ} (h : (Scanner.next t.scanner).value = none) :
    t.next = ⟨none, { t with scanner := (Scanner.next t.scanner).state },
      (Scanner.next t.scanner).events⟩ := by
  simp only [next, h]

theorem next_of_some {t : Tokenizer σ} {l : Lexeme}
    (h : (Scanner.next t.scanner).value = some l) :
    t.next =
      let step := Scanner.next t.scanner
      let meaning := l.interpret (Scanner.input? step.state) t.words
      ⟨some meaning.value, ⟨step.state, meaning.state⟩, step.events ++ meaning.events⟩ := by
  simp only [next, h]

theorem drain_of_none {t : Tokenizer σ} (h : t.next.value = none) :
    t.drain = ⟨[], t.next.state, t.next.events⟩ := by
  rw [drain]
  split
  · rfl
  · simp_all

theorem drain_of_some {t : Tokenizer σ} {item : Item} (h : t.next.value = some item) :
    t.drain = ⟨item :: t.next.state.drain.value, t.next.state.drain.state,
      t.next.events ++ t.next.state.drain.events⟩ := by
  rw [drain]
  split
  · simp_all
  · simp_all

theorem restored_state (t : Tokenizer σ) (w : Warmth) (r : Restoration σ) :
    (t.restored w r).state = { t with scanner := r.state } := by
  unfold restored
  split <;> rfl

end Tokenizer

namespace Session

variable {σ : Type} [Scanner σ]

/-! ## Moves -/

/-- The session with another table of words. -/
def withWords (s : Session σ) (words : WordTable) : Session σ :=
  { s with tokenizer := { s.tokenizer with words := words } }

/-- One thing a session does on a request. -/
inductive Move : Session σ → Session σ → Prop
  /-- The scanner reads a lexeme. -/
  | read (s : Session σ) : Move s (s.withScanner (Scanner.next s.scanner).state)
  /-- The scanner reads on to a directive. -/
  | seek (s : Session σ) : Move s (s.withScanner (Scanner.nextDirective s.scanner).state)
  /-- A word is looked up, and added if it is new. -/
  | learn (s : Session σ) (word : Bytes) :
      Move s (s.withWords (s.tokenizer.words.resolve word).state)
  /-- The scanner starts over with an input. -/
  | attach (s : Session σ) (input : Handle) :
      Move s (s.withScanner (Scanner.attach s.scanner input))
  /-- The scanner is told an encoding. -/
  | setEncoding (s : Session σ) (encoding : Encoding) :
      Move s (s.withScanner (Scanner.setEncoding s.scanner encoding))
  /-- The scanner is told whether comments nest. -/
  | setNested (s : Session σ) (nested : Bool) :
      Move s (s.withScanner (Scanner.setNested s.scanner nested))
  /-- A hot bookmark is saved. -/
  | saveHot (s : Session σ) (slot : String) :
      Move s { s with hot := save s.hot slot (Scanner.hotMark s.scanner) }
  /-- A cold bookmark is saved. -/
  | saveCold (s : Session σ) (slot : String) :
      Move s { s with cold := save s.cold slot (Scanner.coldMark s.scanner) }
  /-- The scanner is sent to a hot bookmark that was saved. -/
  | goHot (s : Session σ) {slot : String} {m : Scanner.Hot σ} : s.hot.lookup slot = some m →
      Move s (s.withScanner (Scanner.goHot s.scanner m).state)
  /-- The scanner is sent to a cold bookmark that was saved. -/
  | goCold (s : Session σ) {slot : String} {m : Scanner.Cold σ} : s.cold.lookup slot = some m →
      Move s (s.withScanner (Scanner.goCold s.scanner m).state)

/-- Any number of moves. -/
abbrev Moves : Session σ → Session σ → Prop :=
  Relation.ReflTransGen Move

/-- What every move keeps is kept by all of them. -/
theorem Moves.keep {P : Session σ → Prop} (move : ∀ s t, Move s t → P s → P t)
    {s t : Session σ} (h : Moves s t) (hs : P s) : P t := by
  induction h with
  | refl => exact hs
  | tail _ hmove ih => exact move _ _ hmove ih

/-- Reading a token is reading a lexeme, and looking it up if it is a word. -/
theorem next_moves (s : Session σ) : Moves s { s with tokenizer := s.tokenizer.next.state } := by
  have hread : Moves s (s.withScanner (Scanner.next s.scanner).state) := .single (.read s)
  cases h : (Scanner.next s.tokenizer.scanner).value with
  | none =>
    rw [Tokenizer.next_of_none h]
    exact hread
  | some l =>
    rw [Tokenizer.next_of_some h]
    dsimp only
    rw [l.interpret_state]
    split
    · exact hread.tail (.learn _ l.text)
    · exact hread

/-- Reading all tokens is reading one after another, by induction on what is left. -/
theorem drain_moves (s : Session σ) (t : Tokenizer σ) :
    Moves { s with tokenizer := t } { s with tokenizer := t.drain.state } := by
  fun_induction Tokenizer.drain t with
  | case1 t step h => exact next_moves { s with tokenizer := t }
  | case2 t step item h more ih => exact (next_moves { s with tokenizer := t }).trans ih

/-- Every request but forgetting comes down to moves. -/
theorem respond_moves (s : Session σ) {r : Request} (hr : r ≠ .forget) :
    Moves s (s.respond r).state := by
  cases r with
  | next => exact next_moves s
  | drain => exact drain_moves s s.tokenizer
  | directive => exact .single (.seek s)
  | lexeme => exact .single (.read s)
  | rawDirective => exact .single (.seek s)
  | saveHot slot => exact .single (.saveHot s slot)
  | saveCold slot => exact .single (.saveCold s slot)
  | goHot slot =>
    simp only [respond]
    split
    · exact .refl
    · rename_i m hm
      simp only [ofTokenizer, Tokenizer.goHot, Tokenizer.restored_state]
      exact .single (.goHot s hm)
  | goCold slot =>
    simp only [respond]
    split
    · exact .refl
    · rename_i m hm
      simp only [ofTokenizer, Tokenizer.goCold, Tokenizer.restored_state]
      exact .single (.goCold s hm)
  | attach input => exact .single (.attach s input)
  | setEncoding encoding => exact .single (.setEncoding s encoding)
  | setNested nested => exact .single (.setNested s nested)
  | configure text =>
    simp only [respond]
    split
    · exact (Relation.ReflTransGen.single (.setEncoding s _)).tail (.setNested _ _)
    · exact .refl
  | lookUp word => exact .refl
  | line number => exact .refl
  | forget => exact absurd rfl hr

/-- Without a request to forget, a course of requests is a row of moves. -/
theorem after_moves {requests : List Request} (s : Session σ) (h : Request.forget ∉ requests) :
    Moves s (s.after requests) := by
  induction requests generalizing s with
  | nil => exact .refl
  | cons r rs ih =>
    simp only [List.mem_cons, not_or] at h
    exact (s.respond_moves (Ne.symm h.1)).trans (ih _ h.2)

/-! ## Reachable sessions -/

/-- A session over sources in memory as requests can make it, from a reader without an input on. -/
def Reachable (s : Session Reader) : Prop :=
  ∃ reserved requests, s = (Session.start Reader.empty reserved).after requests

/-- What holds at the start, is kept by every move and is kept by forgetting the words holds of
every reachable session. -/
theorem Reachable.induction {P : Session Reader → Prop}
    (start : ∀ reserved, P (.start Reader.empty reserved)) (move : ∀ s t, Move s t → P s → P t)
    (forget : ∀ s, P s → P { s with tokenizer := .ofVocabulary s.scanner s.reserved })
    {s : Session Reader} (hs : s.Reachable) : P s := by
  obtain ⟨reserved, requests, rfl⟩ := hs
  have run : ∀ (requests : List Request) (s : Session Reader), P s → P (s.after requests) := by
    intro requests
    induction requests with
    | nil => exact fun s hs => hs
    | cons r rs ih =>
      intro s hs
      refine ih _ ?_
      by_cases hr : r = .forget
      · subst hr
        exact forget s hs
      · exact (s.respond_moves hr).keep move hs
  exact run requests _ (start reserved)

end Session

end SceneTokens
