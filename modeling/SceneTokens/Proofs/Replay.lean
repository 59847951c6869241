import Mathlib.Control.Monad.Basic
import SceneTokens.Proofs.Bookmarks

/-!
# Going back and reading again

A bookmark brings the reader back to the cursor it was taken at. What is read from there on is what
was read the first time (`Session.replies_of_goBack`), whatever was done in between: the reader
sees the same bytes under the same settings (`Reader.SameView`), and the table of words has an
answer for every word it was asked about. A table that has looked up further words answers as
before (`WordTable.resolve_resolveAll`), also if the answer was that no number is left.
-/

namespace SceneTokens

/-! ## Words that were looked up before -/

namespace WordTable

/-- The table after looking up some words. -/
def resolveAll (t : WordTable) (words : List Bytes) : WordTable :=
  words.foldl (fun t w => (t.resolve w).state) t

theorem resolveAll_append (t : WordTable) (us vs : List Bytes) :
    t.resolveAll (us ++ vs) = (t.resolveAll us).resolveAll vs :=
  List.foldl_append

/-- What looking up a word can do: find it, add it under the next number, or fail for want of a
number. -/
theorem resolve_cases (t : WordTable) (w : Bytes) :
    (∃ k, t.get? w = some k ∧ t.resolve w = ⟨some k, t, []⟩) ∨
    (t.get? w = none ∧ t.counter + 1 < numberLimit ∧
      t.resolve w = ⟨some (minted (t.counter + 1)),
        ⟨t.entries ++ [(w, minted (t.counter + 1))], t.counter + 1⟩,
        [.minted w (t.counter + 1)]⟩) ∨
    (t.get? w = none ∧ ¬t.counter + 1 < numberLimit ∧ t.resolve w = ⟨none, t, []⟩) := by
  cases hw : t.get? w with
  | some k => exact Or.inl ⟨k, rfl, by simp [resolve, hw]⟩
  | none =>
    by_cases hlt : t.counter + 1 < numberLimit
    · exact Or.inr (Or.inl ⟨rfl, hlt, by simp [resolve, hw, hlt]⟩)
    · exact Or.inr (Or.inr ⟨rfl, hlt, by simp [resolve, hw, hlt]⟩)

theorem get?_resolve {t : WordTable} {w : Bytes} {k : KnownWord}
    (h : (t.resolve w).value = some k) : (t.resolve w).state.get? w = some k := by
  rcases t.resolve_cases w with ⟨k', hk, hw⟩ | ⟨hnone, -, hw⟩ | ⟨-, -, hw⟩
  · rw [hw] at h ⊢
    obtain rfl := Option.some.inj h
    exact hk
  · rw [hw] at h ⊢
    obtain rfl := Option.some.inj h
    have hnone' : t.entries.lookup w = none := hnone
    rw [get?, List.lookup_append, hnone', Option.none_or, List.lookup_cons_self]
  · rw [hw] at h
    cases h

/-- A word gets no answer only if there is no number to give. -/
theorem resolve_of_value_none {t : WordTable} {w : Bytes} (h : (t.resolve w).value = none) :
    ¬t.counter + 1 < numberLimit ∧ t.resolve w = ⟨none, t, []⟩ := by
  rcases t.resolve_cases w with ⟨_, -, hw⟩ | ⟨-, -, hw⟩ | ⟨-, hfull, hw⟩
  · rw [hw] at h
    cases h
  · rw [hw] at h
    cases h
  · exact ⟨hfull, hw⟩

/-- A known word keeps what is known of it when another is looked up. -/
theorem get?_resolve_of_get? {t : WordTable} {w : Bytes} {k : KnownWord} (h : t.get? w = some k)
    (v : Bytes) : (t.resolve v).state.get? w = some k := by
  rcases t.resolve_cases v with ⟨_, -, hv⟩ | ⟨-, -, hv⟩ | ⟨-, -, hv⟩
  · rw [hv]
    exact h
  · have hsome : t.entries.lookup w = some k := h
    rw [hv, get?, List.lookup_append, hsome, Option.some_or]
  · rw [hv]
    exact h

theorem get?_resolveAll {t : WordTable} {w : Bytes} {k : KnownWord} (h : t.get? w = some k)
    (words : List Bytes) : (t.resolveAll words).get? w = some k := by
  induction words generalizing t with
  | nil => exact h
  | cons v vs ih => exact ih (get?_resolve_of_get? h v)

/-- A table without a number to give stays as it is. -/
theorem resolveAll_of_full {t : WordTable} (h : ¬t.counter + 1 < numberLimit)
    (words : List Bytes) : t.resolveAll words = t := by
  induction words with
  | nil => rfl
  | cons v vs ih =>
    have hstep : (t.resolve v).state = t := by
      rcases t.resolve_cases v with ⟨_, -, hv⟩ | ⟨-, hlt, -⟩ | ⟨-, -, hv⟩
      · rw [hv]
      · exact absurd hlt h
      · rw [hv]
    rw [resolveAll, List.foldl_cons, hstep]
    exact ih

/-- Looking a word up again, after any others, gives the answer it got and changes nothing. -/
theorem resolve_resolveAll (t : WordTable) (w : Bytes) (words : List Bytes) :
    ((t.resolve w).state.resolveAll words).resolve w =
      ⟨(t.resolve w).value, (t.resolve w).state.resolveAll words, []⟩ := by
  have hknown {u : WordTable} {k : KnownWord} (hu : u.get? w = some k) :
      (u.resolveAll words).resolve w = ⟨some k, u.resolveAll words, []⟩ := by
    simp [resolve, get?_resolveAll hu words]
  cases hvalue : (t.resolve w).value with
  | some k => exact hknown (get?_resolve hvalue)
  | none =>
    obtain ⟨hfull, hw⟩ := resolve_of_value_none hvalue
    rw [hw, resolveAll_of_full hfull, hw]

end WordTable

/-- A lexeme means what it meant before, and its meaning is not learned anew. -/
theorem Lexeme.interpret_resolveAll (input : Option Handle) (l : Lexeme) (t : WordTable)
    (words : List Bytes) :
    (l.interpret input ((l.interpret input t).state.resolveAll words)).value =
        (l.interpret input t).value ∧
      (l.interpret input ((l.interpret input t).state.resolveAll words)).state =
        (l.interpret input t).state.resolveAll words := by
  cases hc : l.category with
  | word =>
    have hstate : (l.interpret input t).state = (t.resolve l.text).state := by
      rw [interpret_state, if_pos hc]
    rw [hstate]
    simp only [interpret, hc, interpretWord, WordTable.resolve_resolveAll]
    cases (t.resolve l.text).value <;> exact ⟨rfl, rfl⟩
  | number =>
    simp only [interpret, hc, interpretNumber]
    split <;> exact ⟨rfl, rfl⟩
  | string =>
    simp only [interpret, hc, interpretString]
    split
    · split <;> exact ⟨rfl, rfl⟩
    · exact ⟨rfl, rfl⟩
  | symbol =>
    simp only [interpret, hc, interpretSymbol]
    split <;> exact ⟨rfl, rfl⟩

namespace Reader

/-! ## Readers at the same place -/

/-- Two readers that see the same bytes under the same settings. -/
def SameView (r r' : Reader) : Prop :=
  r.cursor = r'.cursor ∧ r.settings = r'.settings

/-- Readers with the same view read the same lexeme, and have the same view behind it. -/
theorem SameView.next {r r' : Reader} (h : r.SameView r') :
    r.next.value = r'.next.value ∧ r.next.state.SameView r'.next.state := by
  obtain ⟨cursor, settings, generation⟩ := r
  obtain ⟨cursor', settings', generation'⟩ := r'
  obtain ⟨rfl, rfl⟩ : cursor = cursor' ∧ settings = settings' := h
  cases cursor <;> exact ⟨rfl, rfl, rfl⟩

theorem SameView.input? {r r' : Reader} (h : r.SameView r') : r.input? = r'.input? := by
  rw [Reader.input?, Reader.input?, h.1]

end Reader

/-- Reading on from the same place, with the words of the first reading known, gives the same and
learns nothing. -/
theorem Tokenizer.next_resolveAll {t u : Tokenizer Reader} {words : List Bytes}
    (hview : t.scanner.SameView u.scanner)
    (hwords : u.words = t.next.state.words.resolveAll words) :
    u.next.value = t.next.value ∧ t.next.state.scanner.SameView u.next.state.scanner ∧
      u.next.state.words = u.words := by
  obtain ⟨hvalue, hstate⟩ := hview.next
  rw [next_scanner, next_scanner]
  cases hl : t.scanner.next.value with
  | none =>
    have hl' : u.scanner.next.value = none := by rw [← hvalue, hl]
    rw [next_of_none (t := t) hl, next_of_none (t := u) hl']
    exact ⟨rfl, hstate, rfl⟩
  | some l =>
    have hl' : u.scanner.next.value = some l := by rw [← hvalue, hl]
    have hinput : Scanner.input? u.scanner.next.state = Scanner.input? t.scanner.next.state :=
      hstate.input?.symm
    rw [next_of_some (t := t) hl] at hwords
    obtain ⟨hmeaning, hkept⟩ :=
      l.interpret_resolveAll (Scanner.input? t.scanner.next.state) t.words words
    rw [next_of_some (t := t) hl, next_of_some (t := u) hl']
    dsimp only [Scanner.next] at hwords ⊢
    rw [hinput, hwords]
    exact ⟨congrArg some hmeaning, hstate, hkept⟩

namespace Session

/-! ## Replies -/

/-- What a session answers to a list of requests, in order. -/
def replies {σ : Type} [Scanner σ] (s : Session σ) (requests : List Request) : List Reply :=
  (s.steps requests).map Step.value

/-- A move may look up a word and forgets none. -/
theorem Move.words {σ : Type} [Scanner σ] {s t : Session σ} (h : Move s t) :
    ∃ words, t.tokenizer.words = s.tokenizer.words.resolveAll words := by
  cases h with
  | learn word => exact ⟨[word], rfl⟩
  | _ => exact ⟨[], rfl⟩

/-- So any number of moves comes down to the words they look up. -/
theorem Moves.words {σ : Type} [Scanner σ] {s t : Session σ} (h : Moves s t) :
    ∃ words, t.tokenizer.words = s.tokenizer.words.resolveAll words := by
  refine h.keep (P := fun t => ∃ words, t.tokenizer.words = s.tokenizer.words.resolveAll words)
    ?_ ⟨[], rfl⟩
  rintro a b hmove ⟨words, hwords⟩
  obtain ⟨more, hmore⟩ := hmove.words
  exact ⟨words ++ more, by rw [hmore, hwords, WordTable.resolveAll_append]⟩

/-- A second reading from the same place, with the words of the first one known. -/
theorem replies_next_of_sameView (n : Nat) : ∀ {s t : Session Reader} {words : List Bytes},
    s.scanner.SameView t.scanner → t.tokenizer.words =
      (s.after (List.replicate n .next)).tokenizer.words.resolveAll words →
    t.replies (List.replicate n .next) = s.replies (List.replicate n .next) ∧
      (t.after (List.replicate n .next)).tokenizer.words = t.tokenizer.words := by
  induction n with
  | zero => exact fun _ _ => ⟨rfl, rfl⟩
  | succ n ih =>
    intro s t words hview hwords
    have hforget : Request.forget ∉ List.replicate n Request.next := by simp [List.mem_replicate]
    obtain ⟨rest, hrest⟩ := ((s.respond .next).state.after_moves hforget).words
    have hfirst : t.tokenizer.words = s.tokenizer.next.state.words.resolveAll (rest ++ words) := by
      rw [hwords, WordTable.resolveAll_append]
      exact congrArg (fun t => WordTable.resolveAll t words) hrest
    obtain ⟨hvalue, hview', hkept⟩ := Tokenizer.next_resolveAll hview hfirst
    obtain ⟨hreplies, hafter⟩ := ih (s := (s.respond .next).state) (t := (t.respond .next).state)
      hview' (hkept.trans hwords)
    exact ⟨congrArg₂ List.cons (congrArg Reply.item hvalue) hreplies, hafter.trans hkept⟩

/-- Results that were read from some place are read again after going back there. In between there
may be any requests that do not forget the words. -/
theorem replies_of_goBack (s : Session Reader) (n : Nat) {between : List Request}
    (hforget : Request.forget ∉ between) (w : Warmth) :
    let later := (s.after (List.replicate n .next)).after between
    let back := { later with tokenizer := (later.tokenizer.goBack s.scanner w).state }
    (later.tokenizer.goBack s.scanner w).value = .ok () →
      back.scanner.settings = s.scanner.settings →
      back.replies (List.replicate n .next) = s.replies (List.replicate n .next) ∧
        (back.after (List.replicate n .next)).tokenizer.words = back.tokenizer.words := by
  intro later back hok hsettings
  have hmoves := (s.after (List.replicate n .next)).after_moves hforget
  have hstart : Moves s (s.after (List.replicate n .next)) :=
    s.after_moves (by simp [List.mem_replicate])
  obtain ⟨hcursor, hwords⟩ := goBack_cursor (hstart.trans hmoves) hok
  obtain ⟨words, hlater⟩ := hmoves.words
  exact replies_next_of_sameView n ⟨hcursor.symm, hsettings.symm⟩ (hwords.trans hlater)

/-- A session at the start of `a "\q" a`, where the literal is a fault and the word is new. -/
def rereadStart : Session Reader :=
  .start (.ofHandle ⟨0, ⟨"main", [97, 32, 34, 92, 113, 34, 32, 97], by decide⟩⟩) []

/-- Another source is read meanwhile, with a mark of its own and another encoding. -/
def rereadBetween : List Request :=
  [.attach ⟨1, ⟨"other", [98, 32, 99], by decide⟩⟩, .setEncoding .latin1, .next, .saveHot "b",
    .lexeme, .goHot "b", .setEncoding .utf8]

/-- The session after that. -/
def rereadLater : Session Reader :=
  (rereadStart.after (List.replicate 3 .next)).after rereadBetween

/-- The session back at its start. -/
def rereadBack : Session Reader :=
  { rereadLater with tokenizer := (rereadLater.tokenizer.goBack rereadStart.scanner .cold).state }

/-- Another source and another encoding in between leave no trace, and the word is not numbered a
second time. -/
theorem replies_rereadBack :
    Request.forget ∉ rereadBetween ∧
      (rereadLater.tokenizer.goBack rereadStart.scanner .cold).value = .ok () ∧
      rereadBack.scanner.settings = rereadStart.scanner.settings ∧
      rereadBack.replies (List.replicate 3 .next) = rereadStart.replies (List.replicate 3 .next) ∧
      (rereadBack.after (List.replicate 3 .next)).tokenizer.words =
        rereadBack.tokenizer.words := by
  have hforget : Request.forget ∉ rereadBetween := by decide
  have hok : (rereadLater.tokenizer.goBack rereadStart.scanner .cold).value = .ok () := by
    decide +kernel
  have hsettings : rereadBack.scanner.settings = rereadStart.scanner.settings := by
    decide +kernel
  exact ⟨hforget, hok, hsettings, replies_of_goBack rereadStart 3 hforget .cold hok hsettings⟩

end Session

end SceneTokens
