import Mathlib.Data.List.Forall2
import SceneTokens.Proofs.EscapeFaults
import SceneTokens.Proofs.Interning

/-!
# Encodings do not interfere

The encoding of string literals is the one setting that changes bytes. It changes them in string
literals only: a scene is read under any encoding as it is read under UTF-8, where every text is
the bytes of the source, and then the literals are transcoded (`Reader.next_under`).

A literal keeps its place, and so does what is wrong with it. Whether its escapes are well formed
can be told from the source (`Lexeme.not_firstMalformed`), and there is at most one first malformed
escape (`Grammar.FirstMalformed.front_eq`), so under all encodings the same literals are faults,
and they are reported at the same places. A tokenizer does the same steps under any two encodings
(`Tokenizer.Matched.next`), up to the end (`Tokenizer.drain_encoding`).
-/

namespace SceneTokens

open Grammar

/-! ## One first malformed escape -/

namespace Grammar

/-- At most one escape begins at a place. -/
theorem Escape.eq_of_isPrefix {e e' rest : Bytes} {c c' : Char} (he : Escape e c)
    (he' : Escape e' c') (h : e <+: Byte.backslash :: rest) (h' : e' <+: Byte.backslash :: rest) :
    e = e' := by
  have hread := Payload.escape_of_isPrefix he h
  rw [Payload.escape_of_isPrefix he' h'] at hread
  exact congrArg Spelling.raw (Except.ok.inj hread).symm

/-- What follows well escaped bytes in well escaped bytes is well escaped. -/
theorem WellEscaped.of_append {p q : Bytes} (hp : WellEscaped p) (h : WellEscaped (p ++ q)) :
    WellEscaped q := by
  induction hp with
  | nil => exact h
  | plain hb _ ih => exact ih (h.tail hb)
  | @escape e p c he _ ih =>
    obtain ⟨b, d, rfl, -, -⟩ := he.shape
    rw [List.append_assoc, List.cons_append] at h
    obtain ⟨u, c', rest, hu, he', hrest⟩ := h.exists_escape
    have hfirst : Byte.backslash :: b :: d <+: Byte.backslash :: (b :: d ++ (p ++ q)) :=
      ⟨p ++ q, rfl⟩
    have heq := he.eq_of_isPrefix he' hfirst ⟨rest, by rw [hu]; rfl⟩
    obtain rfl := (List.cons.inj heq).2
    exact ih (List.append_cancel_left hu ▸ hrest)

theorem FirstMalformed.payload_eq {p front back : Bytes}
    (h : FirstMalformed (Byte.quote :: (p ++ [Byte.quote])) front back) :
    p = front ++ Byte.backslash :: back := by
  have hsplit := (List.cons.inj h.split).2
  rw [← List.cons_append, ← List.append_assoc] at hsplit
  exact List.append_cancel_right hsplit

theorem FirstMalformed.not_wellEscaped {raw front back : Bytes} (h : FirstMalformed raw front back)
    (u : Bytes) (hu : Byte.backslash :: u <+: Byte.backslash :: back) :
    ¬WellEscaped (Byte.backslash :: u) := by
  intro hwell
  obtain ⟨e, c, rest, rfl, he, -⟩ := hwell.exists_escape
  refine h.malformed _ c he (List.IsPrefix.trans ⟨rest, ?_⟩ hu)
  rw [List.cons_append]

/-- Of two first malformed escapes of a literal, the one that stands further left is the other. -/
theorem FirstMalformed.eq_nil {raw front back mid back' : Bytes} (h : FirstMalformed raw front back)
    (h' : FirstMalformed raw (front ++ mid) back')
    (hmid : Byte.backslash :: back = mid ++ Byte.backslash :: back') : mid = [] := by
  cases mid with
  | nil => rfl
  | cons b mid =>
    obtain ⟨rfl, hback⟩ := List.cons.inj hmid
    have hwell : WellEscaped (Byte.backslash :: mid) := h.before.of_append h'.before
    exact absurd hwell (h.not_wellEscaped mid ⟨_, hmid.symm⟩)

/-- A literal has only one first malformed escape: of two, the earlier would have to be well
formed. -/
theorem FirstMalformed.front_eq {raw front back front' back' : Bytes} (hraw : Literal raw)
    (h : FirstMalformed raw front back) (h' : FirstMalformed raw front' back') :
    front = front' := by
  obtain ⟨-⟩ := hraw
  have hsplit := h.payload_eq.symm.trans h'.payload_eq
  rcases List.append_eq_append_iff.1 hsplit with ⟨mid, rfl, hmid⟩ | ⟨mid, rfl, hmid⟩
  · rw [h.eq_nil h' hmid, List.append_nil]
  · rw [h'.eq_nil h hmid, List.append_nil]

end Grammar

/-- A payload that is split to its end is well escaped. -/
theorem Payload.wellEscaped_of_split {payload : Bytes} (h : (split payload).stuck = none) :
    WellEscaped payload := by
  fun_induction split payload with
  | case1 => exact .nil
  | case2 => cases h
  | case3 b rest unit hspelling more ih =>
    obtain ⟨hwell, after, hafter⟩ := spelling_sound hspelling (ih h)
    rwa [← hafter, List.drop_left, hafter] at hwell

/-- A literal that can be decoded under some encoding has no malformed escape. -/
theorem Lexeme.not_firstMalformed {raw : Bytes} {e : Encoding} {units : List UInt16}
    (hraw : Literal raw)
    (h : Payload.decode (payload (e.transcodeAll raw)) = .ok units) (front back : Bytes) :
    ¬FirstMalformed raw front back := by
  intro hfirst
  obtain ⟨-⟩ := hraw
  rw [Encoding.transcodeAll_literal, payload_quoted] at h
  unfold Payload.decode at h
  dsimp only at h
  split at h
  · rename_i hstuck
    have hwell := (Payload.wellEscaped_of_split hstuck).of_transcodeAll
    rw [hfirst.payload_eq] at hwell
    exact hfirst.not_wellEscaped back (List.prefix_refl _) (hfirst.before.of_append hwell)
  · cases h

/-! ## Reading under an encoding -/

/-- A lexeme of the source as it is under an encoding. -/
def Lexeme.under (e : Encoding) (l : Lexeme) : Lexeme :=
  if l.category = .string then { l with text := e.transcodeAll l.text } else l

/-- An encoding changes the text of a string literal, and no other lexeme. -/
theorem Piece.lexeme?_under (e : Encoding) (position : Position) (p : Piece) :
    p.lexeme? e position = (p.lexeme? .utf8 position).map (Lexeme.under e) := by
  unfold lexeme?
  split
  · rename_i category hkind
    by_cases hc : category = .string
    · simp [text, hkind, hc, Lexeme.under, Encoding.transcodeAll_utf8]
    · simp [text, hkind, hc, Lexeme.under]
  · rfl

namespace Reader

/-- The reader under another encoding. -/
def under (e : Encoding) (r : Reader) : Reader :=
  Scanner.setEncoding r e

/-- Pieces are cut before they are transcoded, so an encoding moves no place. -/
theorem scan_under {settings : Settings} (hs : settings.encoding = .utf8) (e : Encoding)
    (source : String) (position : Position) (bytes : Bytes) :
    (scan { settings with encoding := e } source position bytes).value =
        (scan settings source position bytes).value.map (Lexeme.under e) ∧
      (scan { settings with encoding := e } source position bytes).state =
        (scan settings source position bytes).state := by
  fun_induction scan settings source position bytes with
  | case1 position => simp [scan]
  | case2 position b rest piece events stop lexeme hpiece =>
    have hlexeme : piece.lexeme? e position = some (lexeme.under e) := by
      rw [Piece.lexeme?_under, ← hs, hpiece, Option.map_some]
    rw [scan]
    dsimp only
    rw [hlexeme]
    exact ⟨rfl, rfl⟩
  | case3 position b rest piece events stop hpiece more ih =>
    have hlexeme : piece.lexeme? e position = none := by
      rw [Piece.lexeme?_under, ← hs, hpiece, Option.map_none]
    rw [scan]
    dsimp only
    rw [hlexeme]
    exact ih

/-- Reading under an encoding is reading the bytes of the source and transcoding the literals. -/
theorem next_under (r : Reader) (e : Encoding) :
    (r.under e).next.value = (r.under .utf8).next.value.map (Lexeme.under e) ∧
      (r.under e).next.state = (r.under .utf8).next.state.under e := by
  cases hc : r.cursor with
  | none => simp [next, under, Scanner.setEncoding, hc]
  | some c =>
    have hutf8 : { r.settings with encoding := .utf8 }.encoding = .utf8 := rfl
    have hscan := scan_under hutf8 e c.handle.name c.position c.rest
    simp only [next, under, Scanner.setEncoding, hc]
    exact ⟨hscan.1, by rw [hscan.2]⟩

theorem under_input? (r : Reader) (e : Encoding) : (r.under e).input? = r.input? := rfl

/-- A lexeme read under UTF-8 is spelled by the source where it stands. -/
theorem next_source {r : Reader} {l : Lexeme} (h : (r.under .utf8).next.value = some l) :
    ∃ source after, r.input? = some source ∧ Spelled l.category l.text after ∧
      source.content.drop l.position.offset = l.text ++ after := by
  obtain ⟨c, hc⟩ := cursor_of_next h
  obtain ⟨stop, gap, raw, after, hfound, -⟩ := next_found hc h
  have htext : l.text = raw := by
    rw [hfound.text]
    exact (if_congr Iff.rfl (Encoding.transcodeAll_utf8 raw) rfl).trans (ite_self raw)
  have hinput : r.input? = some c.handle := by
    rw [← r.under_input? .utf8, input?, hc, Option.map_some]
  refine ⟨c.handle, after, hinput, htext ▸ hfound.spelled, ?_⟩
  rw [htext, hfound.start, Position.advance_offset]
  exact (Reading.slice_of_drop hfound.split).2

end Reader

/-! ## Meanings under two encodings -/

/-- Two items that differ at most in the bytes and the value of a string literal, or in the bytes
shown of a malformed escape. -/
inductive Item.Alike : Item → Item → Prop
  | token {t₁ t₂ : Token} : t₁.lexeme.category = t₂.lexeme.category →
      t₁.lexeme.position = t₂.lexeme.position → t₁.id = t₂.id → t₁.expression = t₂.expression →
      (t₁.lexeme.category ≠ .string → t₁.lexeme.text = t₂.lexeme.text ∧ t₁.value = t₂.value) →
      Alike (.ok t₁) (.ok t₂)
  | escape {input : Option Handle} {position : Position} {text₁ text₂ : Bytes} :
      Alike (.error (.invalidEscape input position text₁))
        (.error (.invalidEscape input position text₂))
  | exhausted : Alike (.error .identitiesExhausted) (.error .identitiesExhausted)

namespace Lexeme

theorem under_of_ne {l : Lexeme} (h : l.category ≠ .string) (e : Encoding) : l.under e = l :=
  if_neg h

theorem under_string {l : Lexeme} (h : l.category = .string) (e : Encoding) :
    l.under e = ⟨.string, e.transcodeAll l.text, l.position⟩ := by
  rw [under, if_pos h, ← h]

theorem Owed.alike {l : Lexeme} (hl : l.Owed) (input : Option Handle) (words : WordTable) :
    Item.Alike (l.interpret input words).value (l.interpret input words).value := by
  cases hvalue : (l.interpret input words).value with
  | ok t => exact .token rfl rfl rfl rfl fun _ => ⟨rfl, rfl⟩
  | error f =>
    rcases hl.fails (fails_of_interpret hvalue) with rfl | ⟨position, text, rfl⟩
    · exact .exhausted
    · exact .escape

/-- A lexeme is as it should be under every encoding. A literal keeps its quotes. -/
theorem Owed.under {l : Lexeme} {after : Bytes} (h : Spelled l.category l.text after)
    (e : Encoding) : (l.under e).Owed := by
  by_cases hc : l.category = .string
  · have hliteral : Spelled .string l.text after := hc ▸ h
    rw [under_string hc]
    exact hliteral.owed (if_pos rfl).symm
  · have htext : l.text = if l.category = .string then e.transcodeAll l.text else l.text :=
      (if_neg hc).symm
    rw [under_of_ne hc]
    exact h.owed htext

/-- What a literal of a source means under an encoding. Whether it is a fault, and where, does not
depend on the encoding. -/
theorem literal_cases {h : Handle} {l : Lexeme} {after : Bytes} (hc : l.category = .string)
    (hspelled : Spelled l.category l.text after)
    (hsource : h.content.drop l.position.offset = l.text ++ after) (e : Encoding)
    (words : WordTable) :
    ((l.under e).interpret (some h) words).state = words ∧
      ((∀ front back, ¬FirstMalformed l.text front back) ∧
          (∃ units, ((l.under e).interpret (some h) words).value =
            .ok (.ofString (l.under e) units)) ∨
        ∃ front back text, FirstMalformed l.text front back ∧
          ((l.under e).interpret (some h) words).value =
            .error (.invalidEscape (some h) (l.position.advance (Byte.quote :: front)) text)) := by
  have hraw := hspelled.literal hc
  have hquoted : isQuoted (e.transcodeAll l.text) = true := by
    have howed := Owed.under hspelled e
    rw [under_string hc] at howed
    simpa [isQuoted, and_assoc] using howed.string rfl
  simp only [under_string hc, interpret, interpretString, hquoted, if_true]
  cases hdecode : Payload.decode (payload (e.transcodeAll l.text)) with
  | ok units => exact ⟨rfl, Or.inl ⟨not_firstMalformed hraw hdecode, units, rfl⟩⟩
  | error fault =>
    obtain ⟨front, back, hfirst, hoffset, -⟩ := exists_firstMalformed hraw hdecode
    refine ⟨rfl, Or.inr ⟨front, back, fault.text, hfirst, ?_⟩⟩
    dsimp only
    rw [hoffset, escapePosition_eq (l := ⟨.string, e.transcodeAll l.text, l.position⟩) hfirst
      hsource rfl]

/-- A lexeme of a source means alike under two encodings. -/
theorem interpret_under {h : Handle} {l : Lexeme} {after : Bytes}
    (hspelled : Spelled l.category l.text after)
    (hsource : h.content.drop l.position.offset = l.text ++ after) (e₁ e₂ : Encoding)
    (words : WordTable) :
    Item.Alike ((l.under e₁).interpret (some h) words).value
        ((l.under e₂).interpret (some h) words).value ∧
      ((l.under e₁).interpret (some h) words).state =
        ((l.under e₂).interpret (some h) words).state := by
  by_cases hc : l.category = .string
  · have hraw := hspelled.literal hc
    obtain ⟨hstate₁, hcases₁⟩ := literal_cases hc hspelled hsource e₁ words
    obtain ⟨hstate₂, hcases₂⟩ := literal_cases hc hspelled hsource e₂ words
    refine ⟨?_, hstate₁.trans hstate₂.symm⟩
    rcases hcases₁ with ⟨hnone, units₁, hvalue₁⟩ | ⟨front, back, text₁, hfirst₁, hvalue₁⟩
    · rcases hcases₂ with ⟨-, units₂, hvalue₂⟩ | ⟨front, back, _, hfirst, -⟩
      · rw [hvalue₁, hvalue₂, under_string hc, under_string hc]
        exact .token rfl rfl rfl rfl fun hne => absurd rfl hne
      · exact absurd hfirst (hnone front back)
    · rcases hcases₂ with ⟨hnone, -⟩ | ⟨front', back', text₂, hfirst₂, hvalue₂⟩
      · exact absurd hfirst₁ (hnone front back)
      · obtain rfl := hfirst₁.front_eq hraw hfirst₂
        rw [hvalue₁, hvalue₂]
        exact .escape
  · have howed := Owed.under hspelled e₁
    rw [under_of_ne hc] at howed
    rw [under_of_ne hc, under_of_ne hc]
    exact ⟨howed.alike (some h) words, rfl⟩

end Lexeme

/-! ## Reading to the end under two encodings -/

namespace Tokenizer

/-- Two tokenizers at one place of a source with the same words, each under an encoding of its
own. -/
def Matched (t₁ t₂ : Tokenizer Reader) : Prop :=
  t₁.words = t₂.words ∧
    ∃ (r : Reader) (e₁ e₂ : Encoding), t₁.scanner = r.under e₁ ∧ t₂.scanner = r.under e₂

/-- Both read an item, and alike ones, or both are at the end. They stay matched. -/
theorem Matched.next {t₁ t₂ : Tokenizer Reader} (h : t₁.Matched t₂) :
    t₁.next.state.Matched t₂.next.state ∧
      (t₁.next.value = none ∧ t₂.next.value = none ∨
        ∃ i₁ i₂, t₁.next.value = some i₁ ∧ t₂.next.value = some i₂ ∧ Item.Alike i₁ i₂) := by
  obtain ⟨r₁, words⟩ := t₁
  obtain ⟨r₂, words⟩ := t₂
  obtain ⟨rfl, r, e₁, e₂, rfl, rfl⟩ := h
  -- both are compared with the reading under UTF-8, whose texts are bytes of the source
  obtain ⟨hvalue₁, hstate₁⟩ := r.next_under e₁
  obtain ⟨hvalue₂, hstate₂⟩ := r.next_under e₂
  cases hl : (r.under .utf8).next.value with
  | none =>
    rw [hl, Option.map_none] at hvalue₁ hvalue₂
    rw [next_of_none hvalue₁, next_of_none hvalue₂]
    exact ⟨⟨rfl, _, e₁, e₂, hstate₁, hstate₂⟩, Or.inl ⟨rfl, rfl⟩⟩
  | some l =>
    rw [hl, Option.map_some] at hvalue₁ hvalue₂
    obtain ⟨source, after, hinput, hspelled, hsource⟩ := Reader.next_source hl
    have hinput' (e : Encoding) : Scanner.input? (Scanner.next (r.under e)).state = some source :=
      (r.under e).next_input?.trans hinput
    obtain ⟨halike, hwords⟩ := Lexeme.interpret_under hspelled hsource e₁ e₂ words
    rw [next_of_some hvalue₁, next_of_some hvalue₂]
    dsimp only
    rw [hinput' e₁, hinput' e₂]
    exact ⟨⟨hwords, _, e₁, e₂, hstate₁, hstate₂⟩, Or.inr ⟨_, _, rfl, rfl, halike⟩⟩

/-- From one item to all, by induction on what is left to read. -/
theorem drain_of_matched (t₁ : Tokenizer Reader) : ∀ t₂ : Tokenizer Reader, t₁.Matched t₂ →
    List.Forall₂ Item.Alike t₁.drain.value t₂.drain.value ∧
      t₁.drain.state.Matched t₂.drain.state := by
  fun_induction drain t₁ with
  | case1 t₁ step hnone =>
    intro t₂ h
    obtain ⟨hstate, ⟨-, hnone₂⟩ | ⟨i₁, i₂, hsome, -⟩⟩ := h.next
    · rw [drain_of_none hnone₂]
      exact ⟨.nil, hstate⟩
    · cases hnone.symm.trans hsome
  | case2 t₁ step item hsome more ih =>
    intro t₂ h
    obtain ⟨hstate, ⟨hnone, -⟩ | ⟨i₁, i₂, hsome₁, hsome₂, halike⟩⟩ := h.next
    · cases hsome.symm.trans hnone
    · obtain rfl := Option.some.inj (hsome.symm.trans hsome₁)
      obtain ⟨hitems, hend⟩ := ih t₂.next.state hstate
      rw [drain_of_some hsome₂]
      exact ⟨.cons halike hitems, hend⟩

/-! ## Words without a number -/

/-- A word is refused a number only if all numbers are used up. -/
theorem next_exhausted {σ : Type} [Scanner σ] {t : Tokenizer σ}
    (h : t.next.value = some (.error .identitiesExhausted)) :
    ¬t.next.state.words.counter + 1 < WordTable.numberLimit := by
  cases hl : (Scanner.next t.scanner).value with
  | none =>
    rw [next_of_none hl] at h
    cases h
  | some l =>
    rw [next_of_some hl] at h ⊢
    dsimp only at h ⊢
    have hmeaning := Option.some.inj h
    have hfails := Lexeme.fails_of_interpret hmeaning
    cases hfails with
    | exhausted hc =>
      rw [l.interpret_state, if_pos hc]
      simp only [Lexeme.interpret, hc, Lexeme.interpretWord] at hmeaning
      cases hvalue : (t.words.resolve l.text).value with
      | some known =>
        rw [hvalue] at hmeaning
        cases hmeaning
      | none =>
        obtain ⟨hfull, hw⟩ := WordTable.resolve_of_value_none hvalue
        rw [hw]
        exact hfull

/-- A word for which there is no number leaves the table full up to the end. -/
theorem exhausted_not_mem_drain {σ : Type} [Scanner σ] (t : Tokenizer σ) :
    ¬t.drain.state.words.counter + 1 < WordTable.numberLimit ∨
      .error .identitiesExhausted ∉ t.drain.value := by
  fun_induction drain t with
  | case1 t step hnone => exact Or.inr List.not_mem_nil
  | case2 t step item hsome more ih =>
    rcases ih with hfull | hnot
    · exact Or.inl hfull
    · by_cases hitem : item = .error .identitiesExhausted
      · subst hitem
        have hfull := next_exhausted hsome
        have hwords := drain_words t.next.state
        rw [WordTable.resolveAll_of_full hfull] at hwords
        exact Or.inl (hwords.symm ▸ hfull)
      · exact Or.inr fun hmem => (List.mem_cons.1 hmem).elim (fun heq => hitem heq.symm) hnot

/-- Under any two encodings a source is read item by item alike, to the same end, and with the same
words under the same numbers. The items are tokens and malformed escapes, unless the source has
more words than there are numbers. -/
theorem drain_encoding (h : Handle) (reserved : List ReservedWord) (nested : Bool)
    (e₁ e₂ : Encoding) :
    let run (e : Encoding) := (Tokenizer.ofVocabulary
      (Scanner.configure (Reader.ofHandle h) ⟨e, nested⟩) reserved).drain
    List.Forall₂ Item.Alike (run e₁).value (run e₂).value ∧
      (run e₁).state.scanner.position = (run e₂).state.scanner.position ∧
      (run e₁).state.words = (run e₂).state.words ∧
      (¬(run e₁).state.words.counter + 1 < WordTable.numberLimit ∨
        .error .identitiesExhausted ∉ (run e₁).value) := by
  intro run
  have hstart : Matched
      (.ofVocabulary (Scanner.configure (Reader.ofHandle h) ⟨e₁, nested⟩) reserved)
      (.ofVocabulary (Scanner.configure (Reader.ofHandle h) ⟨e₂, nested⟩) reserved) :=
    ⟨rfl, Scanner.configure (Reader.ofHandle h) ⟨.utf8, nested⟩, e₁, e₂, rfl, rfl⟩
  obtain ⟨hitems, hwords, r, _, _, hend₁, hend₂⟩ := drain_of_matched _ _ hstart
  refine ⟨hitems, ?_, hwords, exhausted_not_mem_drain _⟩
  show (run e₁).state.scanner.position = (run e₂).state.scanner.position
  rw [hend₁, hend₂]
  rfl

end Tokenizer

end SceneTokens
