import SceneTokens.Lexing.Script
import SceneTokens.Proofs.Course
import SceneTokens.Proofs.EscapeFaults
import SceneTokens.Proofs.Messages

/-!
# Escapes and foreign sources

A scanner may say that a lexeme comes from a source which does not hold it (`Lexeme.Foreign`). A
malformed escape has no place in such a source, and is to be placed by the text of the lexeme alone
(`Lexeme.ownPlace`).

What is looked for is less than the literal: a quote where the lexeme starts, and behind it a
backslash with as many backslashes before it, however far away (`Grammar.Counterpart`). A source
that holds the literal has one, at the escape (`Lexeme.Holds.exists_counterpart`), but so may a
source that does not. The place reported is that of the counterpart, and that by the text if there
is none (`Tokenizer.next_escape_counterpart`). So a foreign source can lead to a place that has
nothing to do with the lexeme (`Tokenizer.next_escape_misled`).
-/

namespace SceneTokens

/-- The bytes `before` a backslash in a source that passes for the one at `offset` in the payload of
a lexeme. -/
structure Grammar.Counterpart (source : Handle) (l : Lexeme) (offset : Nat) (before : Bytes) :
    Prop where
  opening : before.head? = some Byte.quote
  standing : before ++ [Byte.backslash] <+: source.content.drop l.position.offset
  ordinal : before.count Byte.backslash = (l.text.take (1 + offset)).count Byte.backslash

open Grammar

namespace Lexeme

/-! ## Sources that hold a lexeme -/

/-- The bytes of a source from the start of a lexeme on are, up to some place, those that the lexeme
is transcoded from. -/
def Holds (source : Handle) (l : Lexeme) : Prop :=
  ∃ (encoding : Encoding) (raw : Bytes),
    raw <+: source.content.drop l.position.offset ∧ encoding.transcodeAll raw = l.text

/-- There is no input, or one that does not hold the lexeme. -/
def Foreign (input : Option Handle) (l : Lexeme) : Prop :=
  ∀ source, input = some source → ¬Holds source l

/-- Where a backslash stands that is at `offset` in the payload, by the text alone. -/
def ownPlace (l : Lexeme) (offset : Nat) : Position :=
  l.position.reach (l.text.take (1 + offset))

/-- A source that lacks an ASCII byte of a lexeme does not hold it. -/
theorem foreign_of_not_mem {source : Handle} {l : Lexeme} {b : UInt8}
    (hb : Byte.isAscii b = true) (hl : b ∈ l.text) (hsource : b ∉ source.content) :
    l.Foreign (some source) := by
  rintro other hother ⟨encoding, raw, hraw, htext⟩
  obtain rfl := Option.some.inj hother
  rw [← htext, ← List.count_pos_iff, Encoding.count_transcodeAll encoding hb,
    List.count_pos_iff] at hl
  exact hsource (List.mem_of_mem_drop (hraw.subset hl))

theorem eq_quoted_of_isQuoted {text : Bytes} (h : isQuoted text = true) :
    text = Byte.quote :: (payload text ++ [Byte.quote]) := by
  obtain ⟨⟨hlength, hhead⟩, hlast⟩ : (2 ≤ text.length ∧ text.head? = some Byte.quote) ∧
      text.getLast? = some Byte.quote := by
    simpa [isQuoted] using h
  obtain ⟨rest, rfl⟩ := List.head?_eq_some_iff.1 hhead
  obtain ⟨front, hfront⟩ := List.getLast?_eq_some_iff.1 hlast
  cases front with
  | nil =>
    rw [hfront] at hlength
    exact absurd hlength (by decide)
  | cons b front =>
    obtain ⟨-, rfl⟩ : Byte.quote = b ∧ rest = front ++ [Byte.quote] := List.cons.inj hfront
    rw [payload_quoted]

/-- The backslash of a malformed escape stands behind the quote and the payload before it. -/
theorem exists_of_fault {text : Bytes} {fault : EscapeFault} (hquoted : isQuoted text = true)
    (hdecode : Payload.decode (payload text) = .error fault) : ∃ front back,
      text = (Byte.quote :: front) ++ Byte.backslash :: back ∧
        (Byte.quote :: front).length = 1 + fault.offset := by
  obtain ⟨front, back, hpayload, hoffset, -⟩ := Payload.exists_of_decode_error hdecode
  have htext := eq_quoted_of_isQuoted hquoted
  rw [hpayload, List.append_assoc, ← List.cons_append] at htext
  refine ⟨front, back ++ [Byte.quote], htext, ?_⟩
  rw [List.length_cons, hoffset, Nat.add_comm]

/-- A source that holds a literal has a counterpart where its malformed escape stands. -/
theorem Holds.exists_counterpart {source : Handle} {l : Lexeme} {fault : EscapeFault}
    (h : Holds source l) (hquoted : isQuoted l.text = true)
    (hdecode : Payload.decode (payload l.text) = .error fault) :
    ∃ before, Counterpart source l fault.offset before := by
  obtain ⟨encoding, raw, hraw, htext⟩ := h
  obtain ⟨front, back, hsplit, hlength⟩ := exists_of_fault hquoted hdecode
  obtain ⟨before, after, rfl, hbefore, -⟩ :=
    Encoding.transcodeAll_eq_append_cons Byte.isAscii_backslash (htext.trans hsplit)
  have hquote : ∀ b ∈ [Byte.quote], Byte.isAscii b = true := by simp [Byte.isAscii_quote]
  obtain ⟨tail, rfl, -⟩ := Encoding.transcodeAll_eq_append hquote hbefore
  refine ⟨[Byte.quote] ++ tail, rfl, ?_, ?_⟩
  · exact List.IsPrefix.trans ⟨after, by simp⟩ hraw
  · rw [hsplit, ← hlength, List.take_left, ← hbefore,
      Encoding.count_transcodeAll encoding Byte.isAscii_backslash]

/-! ## Counting backslashes -/

/-- The bytes before the `n`-th backslash are those that have `n` backslashes and one behind
them. -/
theorem beforeBackslash?_eq_some_iff {n : Nat} {raw before : Bytes} :
    beforeBackslash? n raw = some before ↔
      before.count Byte.backslash = n ∧ before ++ [Byte.backslash] <+: raw := by
  constructor
  · intro h
    fun_induction beforeBackslash? n raw generalizing before with
    | case1 n => cases h
    | case2 raw =>
      obtain rfl := Option.some.inj h
      simp
    | case3 raw n ih =>
      obtain ⟨before, hbefore, rfl⟩ := Option.map_eq_some_iff.1 h
      obtain ⟨hcount, hstanding⟩ := ih hbefore
      simpa [hcount] using hstanding
    | case4 n b raw hb ih =>
      obtain ⟨before, hbefore, rfl⟩ := Option.map_eq_some_iff.1 h
      obtain ⟨hcount, hstanding⟩ := ih hbefore
      simpa [hcount, List.count_cons_of_ne hb] using hstanding
  · rintro ⟨rfl, after, rfl⟩
    simpa using beforeBackslash?_count before after

/-- A counterpart is what is found by looking for a quote and counting backslashes. -/
theorem counterpart_iff {source : Handle} {l : Lexeme} {offset : Nat} {before : Bytes} :
    Counterpart source l offset before ↔ (quotedInput? (some source) l).bind
      (beforeBackslash? ((l.text.take (1 + offset)).count Byte.backslash)) = some before := by
  unfold quotedInput?
  dsimp only
  constructor
  · intro h
    have hquote : (source.content.drop l.position.offset).head? = some Byte.quote := by
      obtain ⟨after, hafter⟩ := h.standing
      simp [← hafter, h.opening]
    rw [if_pos hquote, Option.bind_some, beforeBackslash?_eq_some_iff]
    exact ⟨h.ordinal, h.standing⟩
  · intro h
    split at h
    · rename_i hquote
      rw [Option.bind_some, beforeBackslash?_eq_some_iff] at h
      refine ⟨?_, h.2, h.1⟩
      obtain ⟨after, hafter⟩ := h.2
      rw [← hafter] at hquote
      cases before with
      | nil => exact absurd (Option.some.inj hquote) (by decide)
      | cons b before => exact hquote
    · cases h

/-- A counterpart decides the place, wherever it stands. -/
theorem escapePosition_of_counterpart {source : Handle} {l : Lexeme} {offset : Nat}
    {before : Bytes} (h : Counterpart source l offset before) :
    l.escapePosition (some source) offset = l.position.reach before := by
  unfold escapePosition
  dsimp only
  rw [counterpart_iff.1 h, Option.getD_some]

/-- Without one, the text of the lexeme does. -/
theorem escapePosition_of_none {input : Option Handle} {l : Lexeme} {offset : Nat}
    (h : ∀ source before, input = some source → ¬Counterpart source l offset before) :
    l.escapePosition input offset = l.ownPlace offset := by
  cases input with
  | none => rfl
  | some source =>
    have hnone : (quotedInput? (some source) l).bind
        (beforeBackslash? ((l.text.take (1 + offset)).count Byte.backslash)) = none :=
      Option.eq_none_iff_forall_ne_some.2 fun before hbefore =>
        h source before rfl (counterpart_iff.2 hbefore)
    unfold escapePosition
    dsimp only
    rw [hnone, Option.getD_none]
    rfl

end Lexeme

/-! ## Reports -/

/-- A malformed escape is placed at the counterpart of its backslash in the input, and by the text
of the lexeme if there is none. The place is that by the text if and only if no counterpart is
elsewhere, whether the input holds the lexeme or not; one that holds it has a counterpart. -/
theorem Tokenizer.next_escape_counterpart {σ : Type} [Scanner σ] {t : Tokenizer σ} {l : Lexeme}
    {fault : EscapeFault} (hnext : (Scanner.next t.scanner).value = some l)
    (hstring : l.category = .string) (hquoted : Lexeme.isQuoted l.text = true)
    (hdecode : Payload.decode (Lexeme.payload l.text) = .error fault) :
    let input := Scanner.input? (Scanner.next t.scanner).state
    ∃ position, t.next.value = some (.error (.invalidEscape input position fault.text)) ∧
      (∀ source before, input = some source → Counterpart source l fault.offset before →
        position = l.position.reach before) ∧
      (position = l.ownPlace fault.offset ↔ ∀ source before, input = some source →
        Counterpart source l fault.offset before →
          l.position.reach before = l.ownPlace fault.offset) ∧
      (¬l.Foreign input → ∃ source before, input = some source ∧
        Counterpart source l fault.offset before) := by
  intro input
  have hplace : ∀ source before, input = some source → Counterpart source l fault.offset before →
      l.escapePosition input fault.offset = l.position.reach before := by
    intro source before hsource hbefore
    rw [hsource]
    exact Lexeme.escapePosition_of_counterpart hbefore
  refine ⟨l.escapePosition input fault.offset, ?_, hplace, ⟨?_, ?_⟩, ?_⟩
  · simp [next_of_some hnext, Lexeme.interpret, hstring, Lexeme.interpretString, hquoted, hdecode,
      input]
  · intro hown source before hsource hbefore
    rw [← hplace source before hsource hbefore, hown]
  · intro hall
    by_cases hsome : ∃ source before, input = some source ∧
        Counterpart source l fault.offset before
    · obtain ⟨source, before, hsource, hbefore⟩ := hsome
      rw [hplace source before hsource hbefore, hall source before hsource hbefore]
    · exact Lexeme.escapePosition_of_none fun source before hsource hbefore =>
        hsome ⟨source, before, hsource, hbefore⟩
  · intro hheld
    obtain ⟨source, hsource, hholds⟩ : ∃ source, input = some source ∧ Lexeme.Holds source l := by
      simpa [Lexeme.Foreign] using hheld
    obtain ⟨before, hbefore⟩ := hholds.exists_counterpart hquoted hdecode
    exact ⟨source, before, hsource, hbefore⟩

/-- A literal with a malformed escape: `"\q"`. -/
def Lexeme.strayLiteral : Lexeme :=
  ⟨.string, [34, 92, 113, 34], Position.start⟩

/-- Another literal: `"ab"`. -/
def Handle.otherLiteral : Handle :=
  ⟨0, ⟨"other", [34, 97, 98, 34], by decide⟩⟩

/-- Another literal, and on the next line one with an escape: `"\n"`. -/
def Handle.otherLiterals : Handle :=
  ⟨1, ⟨"others", [34, 97, 98, 34, 10, 34, 92, 110, 34], by decide⟩⟩

/-- A tokenizer in front of the literal, which is said to come from the given source. -/
def Tokenizer.beforeStray (source : Handle) : Tokenizer Script :=
  .ofVocabulary (.ofList [Lexeme.strayLiteral] (some source)) []

/-- A foreign source with a quote in the right place and no backslash does no harm. -/
theorem Tokenizer.next_escape_otherLiteral :
    Lexeme.strayLiteral.Foreign (some Handle.otherLiteral) ∧
      Lexeme.isQuoted Lexeme.strayLiteral.text = true ∧
      Payload.decode (Lexeme.payload Lexeme.strayLiteral.text) = .error ⟨0, [92, 113]⟩ ∧
      (beforeStray Handle.otherLiteral).next.value = some (.error (.invalidEscape
        (some Handle.otherLiteral) (Lexeme.strayLiteral.ownPlace 0) [92, 113])) := by
  have hquoted : Lexeme.isQuoted Lexeme.strayLiteral.text = true := by decide
  have hdecode : Payload.decode (Lexeme.payload Lexeme.strayLiteral.text) =
      .error ⟨0, [92, 113]⟩ := by decide +kernel
  obtain ⟨position, hvalue, -, hown, -⟩ :=
    next_escape_counterpart (t := beforeStray Handle.otherLiteral) rfl rfl hquoted hdecode
  have hposition : position = Lexeme.strayLiteral.ownPlace 0 := by
    refine hown.2 fun source before hsource hbefore => ?_
    obtain rfl : Handle.otherLiteral = source := Option.some.inj hsource
    have hmem := hbefore.standing.subset (List.mem_append_right before (List.mem_singleton_self _))
    exact absurd hmem (by decide)
  refine ⟨Lexeme.foreign_of_not_mem (b := 113) rfl (by decide) (by decide), hquoted, hdecode, ?_⟩
  rw [hvalue, hposition]
  rfl

/-- The quote of one literal and the backslash of another pass for the literal. -/
theorem Tokenizer.next_escape_misled :
    Lexeme.strayLiteral.Foreign (some Handle.otherLiterals) ∧
      Lexeme.isQuoted Lexeme.strayLiteral.text = true ∧
      Payload.decode (Lexeme.payload Lexeme.strayLiteral.text) = .error ⟨0, [92, 113]⟩ ∧
      Lexeme.strayLiteral.ownPlace 0 = ⟨1, 1, 2⟩ ∧
      (beforeStray Handle.otherLiterals).next.value = some (.error (.invalidEscape
        (some Handle.otherLiterals) ⟨6, 2, 2⟩ [92, 113])) := by
  refine ⟨Lexeme.foreign_of_not_mem (b := 113) rfl (by decide) (by decide), ?_, ?_, ?_, ?_⟩ <;>
    decide +kernel

end SceneTokens
