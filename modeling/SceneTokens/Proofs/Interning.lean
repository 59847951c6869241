import SceneTokens.Proofs.Numbering
import SceneTokens.Proofs.Reading

/-!
# The words of a course

A session's table of words is known completely from its vocabulary and the words that were read as
tokens, and that holds after every course (`Session.table_interns`). What else happens in between
does not count: going back to a bookmark, other inputs, lexemes that were read without asking for
their meaning, and the words passed over on the way to a directive. The words that do count are
`Session.wordsRead`, and the table after a course is the table before it with these looked up in
turn (`Session.after_words`).
-/

namespace SceneTokens

namespace WordTable

/-- How many words got a number. -/
def mintCount (t : WordTable) : Nat :=
  t.counter - seed

/-- Every word among some tokens has the identity and the class that the table gives it. -/
def Explains (t : WordTable) (items : List Item) : Prop :=
  ∀ token, .ok token ∈ items → token.lexeme.category = .word →
    t.get? token.lexeme.text = some ⟨token.id, token.expression⟩

theorem explains_nil (t : WordTable) : t.Explains [] :=
  fun _ htoken => absurd htoken List.not_mem_nil

/-- Looking up more words takes back nothing that was said of a token. -/
theorem Explains.resolveAll {t : WordTable} {items : List Item} (h : t.Explains items)
    (words : List Bytes) : (t.resolveAll words).Explains items :=
  fun token htoken hword => get?_resolveAll (h token htoken hword) words

end WordTable

/-! ## Words that are looked up -/

namespace Lexeme

/-- The words among some lexemes, in order. -/
def wordTexts (ls : List Lexeme) : List Bytes :=
  (ls.filter fun l => l.category == .word).map Lexeme.text

theorem wordTexts_cons (l : Lexeme) (ls : List Lexeme) :
    wordTexts (l :: ls) = wordTexts [l] ++ wordTexts ls := by
  rw [wordTexts, wordTexts, wordTexts, ← List.map_append, ← List.filter_append,
    List.singleton_append]

/-- Giving a meaning to a lexeme is looking it up if it is a word. -/
theorem interpret_words (input : Option Handle) (l : Lexeme) (words : WordTable) :
    (l.interpret input words).state = words.resolveAll (wordTexts [l]) := by
  rw [interpret_state, wordTexts]
  by_cases hc : l.category = .word
  · simp [hc, WordTable.resolveAll]
  · simp [hc, WordTable.resolveAll]

/-- The token of a word says what the table says of the word from then on. -/
theorem get?_of_interpret {input : Option Handle} {l : Lexeme} {words : WordTable} {t : Token}
    (h : (l.interpret input words).value = .ok t) (hword : t.lexeme.category = .word) :
    (l.interpret input words).state.get? t.lexeme.text = some ⟨t.id, t.expression⟩ := by
  cases hc : l.category with
  | word =>
    simp only [interpret, hc, interpretWord] at h ⊢
    cases hk : (words.resolve l.text).value with
    | none =>
      rw [hk] at h
      cases h
    | some known =>
      rw [hk] at h
      obtain rfl := Except.ok.inj h
      exact WordTable.get?_resolve hk
  | number =>
    simp only [interpret, hc, interpretNumber] at h
    split at h <;> cases h
    cases hc.symm.trans hword
  | string =>
    simp only [interpret, hc, interpretString] at h
    split at h
    · split at h <;> cases h
      cases hc.symm.trans hword
    · cases h
  | symbol =>
    simp only [interpret, hc, interpretSymbol] at h
    split at h <;> cases h
    cases hc.symm.trans hword

end Lexeme

namespace Tokenizer

variable {σ : Type} [Scanner σ]

/-- Reading a token looks up the word it was read from, if it is one. -/
theorem next_words (t : Tokenizer σ) : t.next.state.words =
    t.words.resolveAll (Lexeme.wordTexts (Scanner.next t.scanner).value.toList) := by
  cases h : (Scanner.next t.scanner).value with
  | none =>
    rw [next_of_none h]
    rfl
  | some l =>
    rw [next_of_some h]
    exact l.interpret_words _ _

/-- Reading up to the end looks up all words in order, by induction on what is left. -/
theorem drain_words (t : Tokenizer σ) : t.drain.state.words =
    t.words.resolveAll (Lexeme.wordTexts (Scanner.drain t.scanner).value) := by
  fun_induction drain t with
  | case1 t step h =>
    have hl : (Scanner.next t.scanner).value = none := by
      rw [← Option.isNone_iff_eq_none, ← Option.not_isSome, ← next_isSome]
      simp [step, h]
    have hnext := t.next_words
    rw [hl] at hnext
    rw [Scanner.drain_of_none hl]
    exact hnext
  | case2 t step item h more ih =>
    obtain ⟨l, hl⟩ : ∃ l, (Scanner.next t.scanner).value = some l :=
      Option.isSome_iff_exists.1 (t.next_isSome ▸ Option.isSome_of_eq_some h)
    have hnext := t.next_words
    rw [hl] at hnext
    rw [Scanner.drain_of_some hl, Lexeme.wordTexts_cons, WordTable.resolveAll_append]
    rw [next_scanner, hnext] at ih
    exact ih

/-- The table after a token says of its word what the token says. -/
theorem next_explains (t : Tokenizer σ) : t.next.state.words.Explains t.next.value.toList := by
  intro token htoken hword
  cases h : (Scanner.next t.scanner).value with
  | none =>
    rw [next_of_none h] at htoken
    cases htoken
  | some l =>
    rw [next_of_some h] at htoken ⊢
    exact l.get?_of_interpret (List.mem_singleton.1 htoken).symm hword

/-- The table at the end still explains the first tokens, because words stay known. -/
theorem drain_explains (t : Tokenizer σ) : t.drain.state.words.Explains t.drain.value := by
  fun_induction drain t with
  | case1 t step h => exact step.state.words.explains_nil
  | case2 t step item h more ih =>
    intro token htoken hword
    rcases List.mem_cons.1 htoken with rfl | hmore
    · -- the rest is read with the first item's word in the table, and only adds words
      have hnext : step.state.words.Explains step.value.toList := t.next_explains
      rw [h] at hnext
      show step.state.drain.state.words.get? _ = _
      rw [drain_words]
      exact hnext.resolveAll _ token (List.mem_singleton_self _) hword
    · exact ih token hmore hword

end Tokenizer

/-- The tokens and faults that were read for a reply. -/
def Reply.itemsRead : Reply → List Item
  | .item read => read.toList
  | .items read => read
  | _ => []

namespace Session

variable {σ : Type} [Scanner σ]

/-- The lexemes whose meaning a request asks for. -/
def pulled (s : Session σ) : Request → List Lexeme
  | .next => (Scanner.next s.scanner).value.toList
  | .drain => (Scanner.drain s.scanner).value
  | _ => []

/-- The words that are read as tokens on a list of requests, in order. -/
def wordsRead (s : Session σ) : List Request → List Bytes
  | [] => []
  | r :: rs => Lexeme.wordTexts (s.pulled r) ++ wordsRead (s.respond r).state rs

/-- One request, case by case: only reading tokens looks up words. -/
theorem respond_words (s : Session σ) {r : Request} (hr : r ≠ .forget) :
    (s.respond r).state.tokenizer.words =
      s.tokenizer.words.resolveAll (Lexeme.wordTexts (s.pulled r)) := by
  cases r with
  | next => exact s.tokenizer.next_words
  | drain => exact s.tokenizer.drain_words
  | goHot slot =>
    simp only [respond]
    split
    · rfl
    · simp only [ofTokenizer, Tokenizer.goHot, Tokenizer.restored_state]
      rfl
  | goCold slot =>
    simp only [respond]
    split
    · rfl
    · simp only [ofTokenizer, Tokenizer.goCold, Tokenizer.restored_state]
      rfl
  | configure text =>
    simp only [respond]
    split <;> rfl
  | forget => exact absurd rfl hr
  | _ => rfl

/-- The table after a course is the table before it with the words that were read looked up. -/
theorem after_words {requests : List Request} (s : Session σ) (h : Request.forget ∉ requests) :
    (s.after requests).tokenizer.words =
      s.tokenizer.words.resolveAll (s.wordsRead requests) := by
  induction requests generalizing s with
  | nil => rfl
  | cons r rs ih =>
    simp only [List.mem_cons, not_or] at h
    have hrest : (s.after (r :: rs)).tokenizer.words = _ := ih (s.respond r).state h.2
    rw [hrest, s.respond_words (Ne.symm h.1), wordsRead, WordTable.resolveAll_append]

theorem respond_explains (s : Session σ) (r : Request) :
    (s.respond r).state.tokenizer.words.Explains (s.respond r).value.itemsRead := by
  cases r with
  | next => exact s.tokenizer.next_explains
  | drain => exact s.tokenizer.drain_explains
  | goHot slot =>
    simp only [respond]
    split
    · exact WordTable.explains_nil _
    · rename_i m hm
      simp only [ofTokenizer]
      cases (s.tokenizer.goHot m).value <;> exact WordTable.explains_nil _
  | goCold slot =>
    simp only [respond]
    split
    · exact WordTable.explains_nil _
    · rename_i m hm
      simp only [ofTokenizer]
      cases (s.tokenizer.goCold m).value <;> exact WordTable.explains_nil _
  | configure text =>
    simp only [respond]
    split <;> exact WordTable.explains_nil _
  | _ => exact WordTable.explains_nil _

/-- Whenever a word was read, its token says what the table says of the word in the end. -/
theorem after_explains {requests : List Request} (s : Session σ) (h : Request.forget ∉ requests) :
    (s.after requests).tokenizer.words.Explains
      ((s.replies requests).flatMap Reply.itemsRead) := by
  induction requests generalizing s with
  | nil => exact s.tokenizer.words.explains_nil
  | cons r rs ih =>
    simp only [List.mem_cons, not_or] at h
    intro token htoken hword
    have hsplit : (s.replies (r :: rs)).flatMap Reply.itemsRead =
        (s.respond r).value.itemsRead ++
          ((s.respond r).state.replies rs).flatMap Reply.itemsRead := rfl
    rw [hsplit] at htoken
    rcases List.mem_append.1 htoken with hfirst | hrest
    · have hafter := (s.respond r).state.after_words h.2
      show ((s.respond r).state.after rs).tokenizer.words.get? _ = _
      rw [hafter]
      exact (s.respond_explains r).resolveAll _ token hfirst hword
    · exact ih (s.respond r).state h.2 token hrest hword

/-- After any course that gives out fewer numbers than there are, the table is the one that the
vocabulary and the words read determine. Every word read as a token was told what this table says
of it, and if all reserved words have fixed identities, only they can share one. -/
theorem table_interns (scanner : σ) (reserved : List ReservedWord) {requests : List Request}
    (hforget : Request.forget ∉ requests)
    (hroom : ((start scanner reserved).after requests).tokenizer.words.mintCount <
      WordTable.numberLimit - TokenId.fixedCount - 2) :
    let table := ((start scanner reserved).after requests).tokenizer.words
    table.Interns reserved ((start scanner reserved).wordsRead requests) ∧
      table.Explains (((start scanner reserved).replies requests).flatMap Reply.itemsRead) ∧
      ((∀ r ∈ reserved, r.id.isFixed = true) →
        ∀ w₁ w₂ known₁ known₂, w₁ ≠ w₂ → table.get? w₁ = some known₁ →
          table.get? w₂ = some known₂ → known₁.id = known₂.id →
          ∃ r₁ r₂, ReservedWord.entryFor? reserved w₁ = some r₁ ∧
            ReservedWord.entryFor? reserved w₂ = some r₂ ∧ r₁.id = r₂.id) := by
  intro table
  have hwords : table = (WordTable.ofVocabulary reserved).resolveAll _ :=
    (start scanner reserved).after_words hforget
  have hnumbers : table.counter + 1 < WordTable.numberLimit := by
    have hcount : table.counter - (TokenId.fixedCount + 1) <
      WordTable.numberLimit - TokenId.fixedCount - 2 := hroom
    omega
  have hinterns : table.Interns reserved ((start scanner reserved).wordsRead requests) := by
    rw [hwords] at hnumbers ⊢
    rw [WordTable.resolveAll_ofVocabulary reserved hnumbers]
    exact WordTable.interns_numbering _ _
  exact ⟨hinterns, after_explains _ hforget, fun hfixed _ _ _ _ hne h₁ h₂ hid =>
    hinterns.reserved_of_id_eq hfixed hne h₁ h₂ hid⟩

/-- A vocabulary with two entries for `b`, two words of one identity, and an entry that is no
word. -/
def smallVocabulary : List ReservedWord :=
  [⟨"b", .x⟩, ⟨"!=", .relNe⟩, ⟨"b", .y⟩, ⟨"c", .y⟩]

/-- A reader at the start of `a b #d e b c a`. -/
def smallScene : Reader :=
  .ofHandle ⟨0, ⟨"main", [97, 32, 98, 32, 35, 100, 32, 101, 32, 98, 32, 99, 32, 97], by decide⟩⟩

/-- Reads `a`, passes over `b` to the directive, leaves the meaning of `d` open and reads `e`. Then
it goes back and reads everything, so that `d` is new after `e`. -/
def smallCourse : List Request :=
  [.saveCold "m", .next, .directive, .lexeme, .next, .goCold "m", .drain]

/-- The second entry of `b` counts, and `d`, of which the meaning was left open at first, gets its
number after `e`. -/
theorem table_interns_smallCourse :
    let table := ((start smallScene smallVocabulary).after smallCourse).tokenizer.words
    Request.forget ∉ smallCourse ∧
      table.mintCount < WordTable.numberLimit - TokenId.fixedCount - 2 ∧
      table.get? [101] = some ⟨⟨TokenId.fixedCount + 3⟩, .identifier⟩ ∧
      table.get? [100] = some ⟨⟨TokenId.fixedCount + 4⟩, .identifier⟩ ∧
      table.get? [98] = some ⟨.y, TokenId.y.expressionClass⟩ ∧
      table.size = 5 ∧ table.lastMinted? = some (TokenId.fixedCount + 4) ∧
      table.Explains
        (((start smallScene smallVocabulary).replies smallCourse).flatMap Reply.itemsRead) ∧
      ∃ r₁ r₂, ReservedWord.entryFor? smallVocabulary [98] = some r₁ ∧
        ReservedWord.entryFor? smallVocabulary [99] = some r₂ ∧ r₁.id = r₂.id := by
  intro table
  have hforget : Request.forget ∉ smallCourse := by decide
  have hroom : table.mintCount < WordTable.numberLimit - TokenId.fixedCount - 2 := by
    decide +kernel
  have hnew : WordTable.newWords smallVocabulary
      ((start smallScene smallVocabulary).wordsRead smallCourse) = [[97], [101], [100]] := by
    decide +kernel
  have hnames : ((smallVocabulary.filter ReservedWord.isWord).map
      ReservedWord.bytes).eraseDups.length = 2 := by decide +kernel
  have hb : ReservedWord.entryFor? smallVocabulary [98] = some ⟨"b", .y⟩ := by decide +kernel
  have hc : ReservedWord.entryFor? smallVocabulary [99] = some ⟨"c", .y⟩ := by decide +kernel
  have hfixed : ∀ r ∈ smallVocabulary, r.id.isFixed = true := by decide +kernel
  obtain ⟨hinterns, hexplains, hshared⟩ := table_interns smallScene smallVocabulary hforget hroom
  have he := hinterns.number [101] 1 (by rw [hnew]; rfl)
  have hd := hinterns.number [100] 2 (by rw [hnew]; rfl)
  have hgetB := hinterns.entry [98] _ hb
  have hgetC := hinterns.entry [99] _ hc
  have hsize := hinterns.size
  have hlast := hinterns.lastMinted
  rw [hnew] at hsize hlast
  rw [hnames] at hsize
  exact ⟨hforget, hroom, he, hd, hgetB, hsize, hlast, hexplains,
    hshared hfixed [98] [99] _ _ (by decide) hgetB hgetC rfl⟩

end Session

end SceneTokens
