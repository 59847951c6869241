import SceneTokens.Proofs.Reading
import SceneTokens.Proofs.Transcoding

/-!
# What ends a lexeme

How far a lexeme reaches depends on the bytes behind it, but only on those up to the next blank:
no rule of the grammar looks over a byte that is not visible. `Grammar.ShowsNoMore` compares two
byte strings by what they show up to there, and `Grammar.Spelled.of_showsNoMore` says that a lexeme
stays what it is in front of bytes that show no more than those it was read in front of.

The grammar fixes what is cut: bytes that it spells as a lexeme are cut as that lexeme, under all
settings and at every place (`Piece.cut_of_spelled`). So a row of lexemes that is laid out with
blanks alone between them (`Reader.Spaced`) is what a reader reads there, and nothing is reported
as unclosed (`Reader.drain_of_spaced`).
-/

namespace SceneTokens

open Grammar

/-! ## Visible bytes -/

namespace Byte

variable {b : UInt8}

theorem isVisible_of_isWordByte (h : isWordByte b = true) : isVisible b = true := by
  grind [isWordByte, isLetter, isDigit, underscore, isVisible]

theorem isVisible_of_isDigit (h : isDigit b = true) : isVisible b = true :=
  isVisible_of_isWordByte (by simp [isWordByte, h])

theorem isVisible_of_isBlank (h : isBlank b = true) : isVisible b = false := by
  grind [isBlank, isVisible]

end Byte

namespace Grammar

/-- Bytes of which all are blanks. -/
def Blanks (gap : Bytes) : Prop :=
  ∀ b ∈ gap, Byte.isBlank b = true

instance (gap : Bytes) : Decidable (Blanks gap) :=
  List.decidableBAll _ gap

/-- Bytes of which all are visible. -/
def Visible (q : Bytes) : Prop :=
  ∀ b ∈ q, Byte.isVisible b = true

theorem Visible.append {p q : Bytes} (hp : Visible p) (hq : Visible q) : Visible (p ++ q) := by
  intro b hb
  exact (List.mem_append.1 hb).elim (hp b) (hq b)

theorem Visible.cons {b : UInt8} {q : Bytes} (hb : Byte.isVisible b = true) (hq : Visible q) :
    Visible (b :: q) := by
  intro c hc
  rcases List.mem_cons.1 hc with rfl | hc
  · exact hb
  · exact hq c hc

/-! ## What can be seen -/

/-- Up to its first byte that is not visible, `after'` shows nothing that does not stand at the
front of `after`. -/
def ShowsNoMore (after' after : Bytes) : Prop :=
  ∀ q, Visible q → q <+: after' → q <+: after

theorem showsNoMore_nil (after : Bytes) : ShowsNoMore [] after := by
  intro q _ hq
  rw [List.prefix_nil.1 hq]
  exact List.nil_prefix

theorem showsNoMore_cons {b : UInt8} (hb : Byte.isVisible b = false) (rest after : Bytes) :
    ShowsNoMore (b :: rest) after := by
  intro q hq hpre
  rcases List.prefix_cons_iff.1 hpre with rfl | ⟨q', rfl, -⟩
  · exact List.nil_prefix
  · have hvisible := hq b (by simp)
    simp [hb] at hvisible

namespace ShowsNoMore

variable {after after' : Bytes}

theorem cons (h : ShowsNoMore after' after) (b : UInt8) :
    ShowsNoMore (b :: after') (b :: after) := by
  intro q hq hpre
  rcases List.prefix_cons_iff.1 hpre with rfl | ⟨q', rfl, hpre'⟩
  · exact List.nil_prefix
  · rw [List.prefix_cons_inj]
    exact h q' (fun c hc => hq c (List.mem_cons_of_mem b hc)) hpre'

theorem behind (h : ShowsNoMore after' after) (raw : Bytes) :
    ShowsNoMore (raw ++ after') (raw ++ after) := by
  induction raw with
  | nil => exact h
  | cons b raw ih => exact ih.cons b

/-- What comes behind a byte that is not visible does not count. -/
theorem append {b : UInt8} (hb : Byte.isVisible b = false) {seen : Bytes} (hmem : b ∈ seen)
    (more : Bytes) : ShowsNoMore (seen ++ more) seen := by
  obtain ⟨front, back, rfl⟩ := List.append_of_mem hmem
  rw [List.append_assoc]
  exact behind (showsNoMore_cons hb _ _) front

theorem head (h : ShowsNoMore after' after) {c : UInt8} (hc : after'.head? = some c)
    (hvisible : Byte.isVisible c = true) : after.head? = some c := by
  obtain ⟨rest', rfl⟩ := List.head?_eq_some_iff.1 hc
  obtain ⟨rest, rfl⟩ := h [c] (by simpa [Visible] using hvisible) ⟨rest', rfl⟩
  rfl

end ShowsNoMore

/-! ## Lexemes in front of other bytes -/

theorem Digits.visible {d : Bytes} (h : Digits d) : Visible d := by
  intro b hb
  exact Byte.isVisible_of_isDigit (h.2 b hb)

theorem Mantissa.visible {m : Bytes} (h : Mantissa m) : Visible m := by
  have hpoint : Byte.isVisible Byte.point = true := by decide
  rcases h with hw | ⟨hw, hf⟩ | hf
  · exact hw.visible
  · exact hw.visible.append (hf.visible.cons hpoint)
  · exact hf.visible.cons hpoint

theorem Power.visible {x : Bytes} (h : Power x) : Visible x := by
  have hletter {e : UInt8} (he : Exponent.isLetter e = true) : Byte.isVisible e = true := by
    grind [Exponent.isLetter, Byte.isVisible]
  have hsign {s : UInt8} (hs : Byte.isSign s = true) : Byte.isVisible s = true := by
    grind [Byte.isSign, Byte.plus, Byte.minus, Byte.isVisible]
  rcases h with ⟨he, hd⟩ | ⟨he, hs, hd⟩
  · exact hd.visible.cons (hletter he)
  · exact (hd.visible.cons (hsign hs)).cons (hletter he)

/-- Numbers are made of visible bytes, so a blank ends them. -/
theorem Number.visible {n : Bytes} (h : Number n) : Visible n := by
  rcases h with hm | ⟨hm, hx⟩
  · exact hm.visible
  · exact hm.visible.append hx.visible

/-- Only quotes and backslashes need protection in a literal. -/
theorem LiteralBody.plain_append {run p : Bytes} (hp : LiteralBody p)
    (hrun : ∀ b ∈ run, b ≠ Byte.quote ∧ b ≠ Byte.backslash) : LiteralBody (run ++ p) := by
  induction run with
  | nil => exact hp
  | cons b run ih =>
    obtain ⟨hquote, hbackslash⟩ := hrun b (by simp)
    exact .plain hquote hbackslash (ih fun c hc => hrun c (List.mem_cons_of_mem b hc))

theorem LiteralBody.outside_append {run p : Bytes} (hp : LiteralBody p)
    (hrun : ∀ b ∈ run, Byte.isAscii b = false) : LiteralBody (run ++ p) := by
  have hne {b c : UInt8} (hb : b ∈ run) (hc : Byte.isAscii c = true) : b ≠ c := by
    rintro rfl
    simp [hrun b hb] at hc
  exact hp.plain_append fun b hb => ⟨hne hb Byte.isAscii_quote, hne hb Byte.isAscii_backslash⟩

/-- A literal is the only one at its place, whatever stands behind it. -/
theorem Literal.sole {raw : Bytes} (h : Literal raw) (after : Bytes) :
    Sole Literal raw (raw ++ after) := by
  obtain ⟨hp⟩ := h
  rw [List.cons_append, List.append_assoc]
  exact Piece.literal_sole (Piece.literal_append hp after)

/-- A lexeme stays what it is in front of bytes that show no more. -/
theorem Spelled.of_showsNoMore {category : Category} {raw after after' : Bytes}
    (h : Spelled category raw after) (hs : ShowsNoMore after' after) :
    Spelled category raw after' := by
  -- every byte that would make a lexeme longer is visible, so it stood in `after` already
  have hhead {p : UInt8 → Bool} (hp : ∀ c, p c = true → Byte.isVisible c = true)
      (hnot : ∀ c, after.head? = some c → p c = false) :
      ∀ c, after'.head? = some c → p c = false := by
    intro c hc
    by_contra hpc
    have hpc' : p c = true := by simpa using hpc
    exact hpc (hnot c (hs.head hc (hp c hpc')))
  have hne {c : UInt8} (hc : Byte.isVisible c = true) (hnot : after.head? ≠ some c) :
      after'.head? ≠ some c := fun h' => hnot (hs.head h' hc)
  cases category with
  | word => exact ⟨h.1, hhead (fun c => Byte.isVisible_of_isWordByte) h.2⟩
  | number =>
    refine ⟨h.1, List.prefix_append _ _, fun q hq hpre => ?_⟩
    exact h.2.2 q hq (hs.behind raw q hq.visible hpre)
  | string => exact h.1.sole after'
  | symbol =>
    rcases h with hb | ⟨hb, hequals, hslash, hpoint⟩
    · exact .relation hb
    · refine .single hb (fun hmem => hne (by decide) (hequals hmem)) (fun heq => ?_) fun heq => ?_
      · exact ⟨hne (by decide) (hslash heq).1, hne (by decide) (hslash heq).2⟩
      · exact hhead (fun c => Byte.isVisible_of_isDigit) (hpoint heq)

theorem Longest.eq {L : Bytes → Prop} {p q bytes : Bytes} (hp : Longest L p bytes)
    (hq : Longest L q bytes) : p = q := by
  have hle := hp.2.2 q hq.1 hq.2.1
  have hge := hq.2.2 p hp.1 hp.2.1
  exact (List.prefix_of_prefix_length_le hp.2.1 hq.2.1 hge).eq_of_length_le hle

end Grammar

/-! ## Cutting what the grammar spells -/

namespace Piece

theorem not_mark {b : UInt8} (hb : b ≠ 0xEF) (atStart : Bool) (rest : Bytes) :
    ¬(atStart && mark.isPrefixOf (b :: rest)) = true := by
  simp [mark, List.isPrefixOf, Ne.symm hb]

theorem cut_blank {b : UInt8} (hb : Byte.isBlank b = true) (nested atStart : Bool)
    (rest : Bytes) : cut nested atStart b rest = ⟨.blank, [b]⟩ := by
  have hmark : b ≠ 0xEF := by grind [Byte.isBlank]
  rw [cut, if_neg (not_mark hmark atStart rest), if_pos hb]

theorem cut_opening (nested atStart : Bool) (rest : Bytes) :
    cut nested atStart Byte.slash (Byte.star :: rest) =
      blockComment nested (Byte.star :: rest) := by
  have hstar : ¬(Byte.slash = Byte.slash ∧ (Byte.star :: rest).head? = some Byte.slash) := by
    simp [Byte.star, Byte.slash]
  rw [cut, if_neg (not_mark (by decide) _ _), if_neg (by decide), if_neg hstar, if_pos ⟨rfl, rfl⟩]

/-- What is cut at a visible byte that begins no comment. -/
theorem cut_of_isVisible {b : UInt8} (hb : Byte.isVisible b = true) {rest : Bytes}
    (nested atStart : Bool)
    (hslash : b = Byte.slash → rest.head? ≠ some Byte.slash ∧ rest.head? ≠ some Byte.star) :
    cut nested atStart b rest =
      if Byte.isWordStart b then ⟨.lexeme .word, b :: rest.takeWhile Byte.isWordByte⟩
      else if startsNumber b rest then ⟨.lexeme .number, number (b :: rest)⟩
      else if b = Byte.quote then stringLiteral rest
      else if b ∈ comparisons ∧ rest.head? = some Byte.equals then
        ⟨.lexeme .symbol, [b, Byte.equals]⟩
      else ⟨.lexeme .symbol, [b]⟩ := by
  have hmark : b ≠ 0xEF := by grind [Byte.isVisible]
  have hblank : ¬Byte.isBlank b = true := by grind [Byte.isVisible, Byte.isBlank]
  simp only [cut]
  rw [if_neg (not_mark hmark atStart rest), if_neg hblank, if_neg fun h => (hslash h.1).1 h.2,
    if_neg fun h => (hslash h.1).2 h.2, if_pos hb]
  simp only [opensRelation_iff]

theorem cut_of_isWordStart {b : UInt8} (hb : Byte.isWordStart b = true) (nested atStart : Bool)
    (rest : Bytes) :
    cut nested atStart b rest = ⟨.lexeme .word, b :: rest.takeWhile Byte.isWordByte⟩ := by
  have hvisible : Byte.isVisible b = true :=
    Byte.isVisible_of_isWordByte (by grind [Byte.isWordStart, Byte.isWordByte])
  have hslash : b ≠ Byte.slash := by
    grind [Byte.isWordStart, Byte.isLetter, Byte.underscore, Byte.slash]
  rw [cut_of_isVisible hvisible nested atStart fun h => absurd h hslash, if_pos hb]

theorem cut_of_startsNumber {b : UInt8} {rest : Bytes} (h : startsNumber b rest = true)
    (nested atStart : Bool) :
    cut nested atStart b rest = ⟨.lexeme .number, number (b :: rest)⟩ := by
  have hb := (startsNumber_iff.1 h).imp_right And.left
  have hvisible : Byte.isVisible b = true := by
    rcases hb with hb | rfl
    · exact Byte.isVisible_of_isDigit hb
    · decide
  have hslash : b ≠ Byte.slash := by
    grind [Byte.isDigit, Byte.point, Byte.slash]
  have hword : ¬Byte.isWordStart b = true := by
    grind [Byte.isDigit, Byte.point, Byte.isWordStart, Byte.isLetter, Byte.underscore]
  rw [cut_of_isVisible hvisible nested atStart fun h => absurd h hslash, if_neg hword, if_pos h]

theorem cut_quote (nested atStart : Bool) (rest : Bytes) :
    cut nested atStart Byte.quote rest = stringLiteral rest := by
  have hslash : Byte.quote ≠ Byte.slash := by decide
  have hpoint : Byte.quote ≠ Byte.point := by decide
  have hnumber : ¬startsNumber Byte.quote rest = true := by
    intro h
    exact (startsNumber_iff.1 h).elim (by decide) fun h => hpoint h.1
  rw [cut_of_isVisible (by decide) nested atStart fun h => absurd h hslash, if_neg (by decide),
    if_neg hnumber, if_pos rfl]

/-- Punctuation that opens neither a comment nor a number is a symbol, with the equals sign behind
it if that makes a comparison. -/
theorem cut_of_punctuation {b : UInt8} (hb : Punctuation b) {rest : Bytes} (nested atStart : Bool)
    (hslash : b = Byte.slash → rest.head? ≠ some Byte.slash ∧ rest.head? ≠ some Byte.star)
    (hpoint : b = Byte.point → ∀ c, rest.head? = some c → Byte.isDigit c = false) :
    cut nested atStart b rest =
      if b ∈ comparisons ∧ rest.head? = some Byte.equals then ⟨.lexeme .symbol, [b, Byte.equals]⟩
      else ⟨.lexeme .symbol, [b]⟩ := by
  have hword : ¬Byte.isWordStart b = true := by
    simp [Byte.isWordStart, hb.not_letter, hb.not_underscore]
  have hnumber : ¬startsNumber b rest = true := by
    intro h
    rcases startsNumber_iff.1 h with hdigit | ⟨heq, c, tail, rfl, hc⟩
    · simp [hb.not_digit] at hdigit
    · simp [hpoint heq c rfl] at hc
  rw [cut_of_isVisible hb.visible nested atStart hslash, if_neg hword, if_neg hnumber,
    if_neg hb.not_quote]

theorem punctuation_of_mem_comparisons {b : UInt8} (h : b ∈ comparisons) :
    Punctuation b ∧ b ≠ Byte.slash ∧ b ≠ Byte.point := by
  simp only [comparisons, List.mem_cons, List.not_mem_nil, or_false] at h
  rcases h with rfl | rfl | rfl <;> exact ⟨by constructor <;> decide, by decide, by decide⟩

/-- What the grammar spells as a lexeme is cut as that lexeme. -/
theorem cut_of_spelled {category : Category} {raw after : Bytes}
    (h : Spelled category raw after) : ∃ b rest, raw ++ after = b :: rest ∧
      ∀ nested atStart, cut nested atStart b rest = ⟨.lexeme category, raw⟩ := by
  cases category with
  | word =>
    obtain ⟨⟨hb, hrun⟩, hafter⟩ := h
    refine ⟨_, _, List.cons_append, fun nested atStart => ?_⟩
    have hstop : after.takeWhile Byte.isWordByte = [] := by
      cases after with
      | nil => rfl
      | cons c after => exact List.takeWhile_cons_of_neg (by simp [hafter c rfl])
    rw [cut_of_isWordStart hb, List.takeWhile_append_of_pos hrun, hstop, List.append_nil]
  | number =>
    obtain ⟨b, raw, rfl, hstart⟩ := h.1.startsNumber
    have hstart' : startsNumber b (raw ++ after) = true := by
      rcases startsNumber_iff.1 hstart with hb | ⟨rfl, c, tail, rfl, hc⟩
      · exact startsNumber_iff.2 (Or.inl hb)
      · exact startsNumber_iff.2 (Or.inr ⟨rfl, c, tail ++ after, rfl, hc⟩)
    refine ⟨b, raw ++ after, rfl, fun nested atStart => ?_⟩
    rw [cut_of_startsNumber hstart', (number_longest hstart').eq h]
  | string =>
    obtain ⟨hp⟩ := h.1
    refine ⟨_, _, List.cons_append, fun nested atStart => ?_⟩
    rw [cut_quote, stringLiteral, List.append_assoc, List.singleton_append,
      literal_append hp after]
  | symbol =>
    rcases h with hb | ⟨hb, hequals, hslash, hpoint⟩
    · obtain ⟨hpunctuation, hslash, hpoint⟩ := punctuation_of_mem_comparisons hb
      refine ⟨_, _, rfl, fun nested atStart => ?_⟩
      rw [cut_of_punctuation hpunctuation nested atStart (fun h => absurd h hslash)
        (fun h => absurd h hpoint), if_pos ⟨hb, rfl⟩]
    · refine ⟨_, _, List.singleton_append, fun nested atStart => ?_⟩
      rw [cut_of_punctuation hb nested atStart hslash hpoint, if_neg fun h => hequals h.1 h.2]

end Piece

/-! ## Lexemes laid out with blanks -/

/-- Whether an event reports a construct that was opened and not closed, or nested too deep. -/
def Event.isUnclosed : Event → Bool
  | .stringUnclosed .. | .commentUnclosed .. | .commentTooDeep .. => true
  | _ => false

/-- Of a lexeme it is never reported that it is unclosed. -/
theorem Piece.isUnclosed_of_lexeme {category : Category} {raw : Bytes} {encoding : Encoding}
    {source : String} {position : Position} {e : Event}
    (h : e ∈ (Piece.mk (.lexeme category) raw).events encoding source position) :
    e.isUnclosed = false := by
  cases category <;> simp only [events, List.not_mem_nil] at h
  split at h
  · rw [List.mem_singleton.1 h]
    rfl
  · cases h

namespace Reader

/-- Blanks are passed over and reported to nobody. -/
theorem scan_blanks {gap : Bytes} (hgap : Blanks gap) (settings : Settings) (source : String)
    (position : Position) (bytes : Bytes) :
    scan settings source position (gap ++ bytes) =
      scan settings source (position.advance gap) bytes := by
  induction gap generalizing position with
  | nil => rfl
  | cons b gap ih =>
    have hcut := Piece.cut_blank (hgap b (by simp)) settings.nested (position.offset == 0)
      (gap ++ bytes)
    have hgap' : Blanks gap := fun c hc => hgap c (List.mem_cons_of_mem b hc)
    rw [List.cons_append, scan, hcut, Position.advance_cons]
    exact ih hgap' (position.step b)

/-- In front of a lexeme as the grammar spells it, a scan ends with that lexeme. -/
theorem scan_spelled {category : Category} {raw after : Bytes} (h : Spelled category raw after)
    (settings : Settings) (source : String) (position : Position) :
    scan settings source position (raw ++ after) =
      let piece : Piece := ⟨.lexeme category, raw⟩
      ⟨some ⟨category, piece.text settings.encoding, position⟩, position.advance raw,
        piece.events settings.encoding source position⟩ := by
  obtain ⟨b, rest, hbytes, hcut⟩ := Piece.cut_of_spelled h
  rw [hbytes, scan, hcut]
  rfl

theorem next_eq_scan {r : Reader} {c : Cursor} (hc : r.cursor = some c) : r.next =
    let found := scan r.settings c.handle.name c.position c.rest
    ⟨found.value, { r with cursor := some ⟨c.handle, found.state⟩ }, found.events⟩ := by
  simp only [next, hc]

theorem next_of_blanks {r : Reader} {c : Cursor} (hc : r.cursor = some c) (h : Blanks c.rest) :
    r.next = ⟨none, { r with cursor := some ⟨c.handle, c.position.advance c.rest⟩ }, []⟩ := by
  have hscan := scan_blanks h r.settings c.handle.name c.position []
  rw [List.append_nil, scan] at hscan
  rw [next_eq_scan hc, hscan]

/-- A lexeme behind blanks is what is read next. -/
theorem next_of_spelled {r : Reader} {c : Cursor} {l : Lexeme} {gap raw after : Bytes}
    (hc : r.cursor = some c) (hrest : c.rest = gap ++ (raw ++ after)) (hgap : Blanks gap)
    (h : Spelled l.category raw after)
    (htext : l.text = if l.category = .string then r.settings.encoding.transcodeAll raw else raw)
    (hstart : l.position = c.position.advance gap) : r.next.value = some l ∧
      r.next.state = { r with cursor := some ⟨c.handle, l.position.advance raw⟩ } ∧
      ∀ e ∈ r.next.events, e.isUnclosed = false := by
  have htext' : (Piece.mk (.lexeme l.category) raw).text r.settings.encoding = l.text := by
    simp [Piece.text, htext]
  rw [next_eq_scan hc, hrest, scan_blanks hgap, scan_spelled h]
  dsimp only
  rw [htext', ← hstart]
  exact ⟨rfl, rfl, fun e he => Piece.isUnclosed_of_lexeme he⟩

/-- The lexemes `ls` laid out in `bytes`, which start at `position`, with nothing but blanks
before, between and behind them. -/
inductive Spaced (encoding : Encoding) : Position → List Lexeme → Bytes → Prop
  | nil {position : Position} {gap : Bytes} : Blanks gap → Spaced encoding position [] gap
  | cons {position : Position} {l : Lexeme} {ls : List Lexeme} {gap raw after : Bytes} :
      Blanks gap → Spelled l.category raw after →
      l.text = (if l.category = .string then encoding.transcodeAll raw else raw) →
      l.position = position.advance gap → Spaced encoding (l.position.advance raw) ls after →
      Spaced encoding position (l :: ls) (gap ++ (raw ++ after))

/-- A reader reads what is laid out before it. -/
theorem drain_of_spaced {encoding : Encoding} {position : Position} {ls : List Lexeme}
    {bytes : Bytes} (h : Spaced encoding position ls bytes) :
    ∀ {r : Reader} {c : Cursor}, r.settings.encoding = encoding → r.cursor = some c →
      c.position = position → c.rest = bytes → (Scanner.drain r).value = ls ∧
        ∀ e ∈ (Scanner.drain r).events, e.isUnclosed = false := by
  induction h with
  | @nil position gap hgap =>
    rintro r c - hc - rfl
    have hnext : Scanner.next r = _ := next_of_blanks hc hgap
    have hnone : (Scanner.next r).value = none := by rw [hnext]
    rw [Scanner.drain_of_none hnone, hnext]
    exact ⟨rfl, by simp⟩
  | @cons position l ls gap raw after hgap hspelled htext hstart hmore ih =>
    rintro r c rfl hc rfl hrest
    obtain ⟨hl, hstate, hevents⟩ := next_of_spelled hc hrest hgap hspelled htext hstart
    have hafter : (Cursor.mk c.handle (l.position.advance raw)).rest = after := by
      rw [hstart]
      exact Cursor.rest_advance (Cursor.rest_advance hrest)
    obtain ⟨hmore, hevents'⟩ := ih (r := r.next.state) (by rw [hstate]) (by rw [hstate]) rfl hafter
    rw [Scanner.drain_of_some hl]
    refine ⟨congrArg (l :: ·) hmore, fun e he => ?_⟩
    exact (List.mem_append.1 he).elim (hevents e) (hevents' e)

end Reader

end SceneTokens
