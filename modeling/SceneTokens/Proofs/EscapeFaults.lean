import SceneTokens.Proofs.Contract
import SceneTokens.Proofs.Escapes
import SceneTokens.Proofs.Placement

/-!
# Where malformed escapes are reported

A malformed escape is found in the text of a lexeme, where it stands at another offset than in the
source, and possibly in other company: the digits of an escape may be followed by bytes that
transcoding has changed. `Grammar.FirstMalformed` says in terms of the source what it is to be the
first malformed escape of a literal, and `Lexeme.exists_firstMalformed` that decoding the
transcoded payload finds exactly this one.

Its place is found again by counting backslashes (`Lexeme.escapePosition_eq`). The reader stands
where it should, so the line and the column are right too (`Session.invalidEscape_place`).
-/

namespace SceneTokens

namespace Grammar

/-! ## The first malformed escape of a literal -/

/-- A literal of which the escapes in `front` are well formed, and the one that follows is not.
`back` are the bytes from its letter up to the closing quote. -/
structure FirstMalformed (raw front back : Bytes) : Prop where
  split : raw = Byte.quote :: (front ++ Byte.backslash :: (back ++ [Byte.quote]))
  before : WellEscaped front
  letter : back ≠ []
  malformed : ∀ e c, Escape e c → ¬e <+: Byte.backslash :: back

theorem LiteralBody.tail {b : UInt8} {p : Bytes} (h : LiteralBody (b :: p))
    (hb : b ≠ Byte.backslash) : LiteralBody p := by
  generalize hx : b :: p = x at h
  cases h with
  | nil => cases hx
  | plain _ _ hp =>
    obtain ⟨-, rfl⟩ := List.cons.inj hx
    exact hp
  | guarded => exact absurd (List.cons.inj hx).1 hb

theorem LiteralBody.of_hexDigits {d q : Bytes} (hd : HexDigits d) (h : LiteralBody (d ++ q)) :
    LiteralBody q := by
  induction d with
  | nil => exact h
  | cons b d ih =>
    obtain ⟨-, -, hb⟩ := hd.isAscii b (by simp)
    exact ih (fun x hx => hd x (by simp [hx])) (h.tail hb)

/-- Both readings of a literal pair a backslash with the same byte. -/
theorem WellEscaped.literalBody {p q : Bytes} (hp : WellEscaped p) (h : LiteralBody (p ++ q)) :
    LiteralBody q := by
  induction hp with
  | nil => exact h
  | plain hb _ ih => exact ih (h.tail hb)
  | escape he _ ih =>
    obtain ⟨b, d, rfl, -, hd⟩ := he.shape
    rw [List.append_assoc, List.cons_append, List.cons_append] at h
    cases h with
    | plain _ hb => exact absurd rfl hb
    | guarded hrest => exact ih (hrest.of_hexDigits hd)

theorem isPrefix_of_not_mem {d p q : Bytes} {c : UInt8} (h : d <+: p ++ c :: q) (hc : c ∉ d) :
    d <+: p := by
  have hclosed : p ++ [c] <+: p ++ c :: q := ⟨q, by simp⟩
  rcases List.prefix_or_prefix_of_prefix h hclosed with hd | hd
  · rcases List.prefix_concat_iff.1 hd with rfl | hd
    · simp at hc
    · exact hd
  · exact absurd (hd.subset (by simp)) hc

/-- No escape reaches over the closing quote of its literal. -/
theorem Escape.isPrefix_within {e back after : Bytes} {c : Char} (he : Escape e c)
    (hback : back ≠ []) (h : e <+: Byte.backslash :: (back ++ Byte.quote :: after)) :
    e <+: Byte.backslash :: back := by
  obtain ⟨b, d, rfl, -, hd⟩ := he.shape
  obtain ⟨b', back, rfl⟩ := List.exists_cons_of_ne_nil hback
  simp only [List.cons_append, List.cons_prefix_cons, true_and] at h ⊢
  refine ⟨h.1, isPrefix_of_not_mem h.2 fun hquote => ?_⟩
  exact (hd.isAscii _ hquote).2.1 rfl

end Grammar

open Grammar

namespace Lexeme

theorem payload_quoted (t : Bytes) : payload (Byte.quote :: (t ++ [Byte.quote])) = t := by
  simp [payload]

/-- Decoding the transcoded payload of a literal fails at its first malformed escape. -/
theorem exists_firstMalformed {raw : Bytes} {encoding : Encoding} {fault : EscapeFault}
    (hraw : Literal raw)
    (h : Payload.decode (payload (encoding.transcodeAll raw)) = .error fault) :
    ∃ front back, FirstMalformed raw front back ∧
      fault.offset = (encoding.transcodeAll front).length ∧
      fault.text <+: Byte.backslash :: encoding.transcodeAll back ∧ 2 ≤ fault.text.length := by
  obtain ⟨hbody⟩ := hraw
  rw [Encoding.transcodeAll_literal, payload_quoted] at h
  unfold Payload.decode at h
  dsimp only at h
  split at h
  · cases h
  · rename_i p text hstuck
    obtain rfl := Except.error.inj h
    obtain ⟨front, back, hp, hsize, hfront, hback⟩ := Payload.split_stuck hstuck
    obtain ⟨front, back, rfl, rfl, rfl⟩ :=
      Encoding.transcodeAll_eq_append_cons Byte.isAscii_backslash hp
    have hwell : WellEscaped front := hfront.of_transcodeAll
    have hletter : back ≠ [] := by
      have hrest := hwell.literalBody hbody
      rintro rfl
      cases hrest with
      | plain _ hb => exact absurd rfl hb
    obtain ⟨htext, hlength⟩ := Payload.text_of_escape_error hback
    refine ⟨front, back, ⟨by simp, hwell, hletter, fun e c he hpre => ?_⟩, hsize, htext,
      hlength fun hnil => hletter (Encoding.eq_nil_of_transcodeAll hnil)⟩
    obtain ⟨after, hafter⟩ := hpre
    refine Payload.not_isPrefix_of_escape_error hback he ⟨encoding.transcodeAll after, ?_⟩
    rw [← Encoding.transcodeAll_cons_of_isAscii encoding Byte.isAscii_backslash, ← hafter,
      Encoding.transcodeAll_append, Encoding.transcodeAll_of_isAscii encoding he.isAscii]

/-! ## Finding the place again -/

/-- A backslash is found again by the number of those before it. -/
theorem beforeBackslash?_count (p q : Bytes) :
    beforeBackslash? (p.count Byte.backslash) (p ++ Byte.backslash :: q) = some p := by
  induction p with
  | nil => simp [beforeBackslash?]
  | cons b p ih =>
    by_cases hb : b = Byte.backslash
    · subst hb
      rw [List.count_cons_self, List.cons_append, beforeBackslash?, if_pos rfl, ih]
      rfl
    · rw [List.count_cons_of_ne hb, List.cons_append]
      unfold beforeBackslash?
      rw [if_neg hb, ih]
      rfl

/-- The first malformed escape of a literal is found in the source from its place in the lexeme. -/
theorem escapePosition_eq {h : Handle} {l : Lexeme} {encoding : Encoding}
    {raw front back after : Bytes} (hfirst : FirstMalformed raw front back)
    (hsource : h.content.drop l.position.offset = raw ++ after)
    (htext : l.text = encoding.transcodeAll raw) :
    l.escapePosition (some h) (encoding.transcodeAll front).length =
      l.position.advance (Byte.quote :: front) := by
  rw [hfirst.split, List.cons_append, List.append_assoc, List.cons_append] at hsource
  rw [hfirst.split, Encoding.transcodeAll_cons_of_isAscii _ Byte.isAscii_quote,
    Encoding.transcodeAll_append] at htext
  have hbefore : l.text.take (1 + (encoding.transcodeAll front).length) =
      Byte.quote :: encoding.transcodeAll front := by
    rw [htext, Nat.add_comm, List.take_succ_cons, List.take_left]
  have hcount : (Byte.quote :: encoding.transcodeAll front).count Byte.backslash =
      (Byte.quote :: front).count Byte.backslash := by
    rw [List.count_cons, List.count_cons,
      Encoding.count_transcodeAll encoding Byte.isAscii_backslash]
  have hquoted : quotedInput? (some h) l = some (h.content.drop l.position.offset) := by
    simp [quotedInput?, hsource]
  have hrange : l.position.offset + (Byte.quote :: front).length < Position.offsetRange := by
    have hfits := h.source.fits
    have hlength := congrArg List.length hsource
    simp only [Handle.content, List.length_drop, List.length_cons, List.length_append] at hlength ⊢
    omega
  unfold escapePosition
  dsimp only
  rw [hbefore, hcount, hquoted, hsource, Option.bind_some, ← List.cons_append,
    beforeBackslash?_count, Option.getD_some, Position.reach_eq_advance hrange]

end Lexeme

/-! ## Reports -/

/-- In `content`, the literal from offset `start` up to `stop` has its first malformed escape at
`position`, and `text` shows that escape as it is after transcoding. -/
structure Grammar.ReportedAt (encoding : Encoding) (content : Bytes) (start stop : Nat)
    (position : Position) (text : Bytes) : Prop where
  after_start : start < position.offset
  before_stop : position.offset + 1 < stop
  backslash : content[position.offset]? = some Byte.backslash
  walked : position = Position.start.advance (content.take position.offset)
  before : WellEscaped (Reader.Reading.slice content (start + 1) position.offset)
  malformed : ∀ e c, Escape e c → ¬e <+: content.drop position.offset
  two_le : 2 ≤ text.length
  shown : text <+: encoding.transcodeAll (content.drop position.offset)
  shown_utf8 : encoding = .utf8 → text <+: content.drop position.offset

/-- What was said of the literal alone, said of the content that it stands in. -/
theorem Grammar.FirstMalformed.reportedAt {content raw front back after text : Bytes}
    {p : Position} {encoding : Encoding} (h : FirstMalformed raw front back)
    (hp : p.In content) (hsource : content.drop p.offset = raw ++ after)
    (htext : text <+: Byte.backslash :: encoding.transcodeAll back) (hlength : 2 ≤ text.length) :
    ReportedAt encoding content p.offset (p.advance raw).offset
      (p.advance (Byte.quote :: front)) text := by
  have hcut : content.drop p.offset =
      [Byte.quote] ++ (front ++ Byte.backslash :: (back ++ Byte.quote :: after)) := by
    rw [hsource, h.split]
    simp
  have hplace : (p.advance (Byte.quote :: front)).In content := hp.advance hcut
  have hoffset : (p.advance (Byte.quote :: front)).offset = p.offset + 1 + front.length := by
    rw [Position.advance_offset, List.length_cons]
    omega
  obtain ⟨-, hquote⟩ := Reader.Reading.slice_of_drop hcut
  obtain ⟨hfront, hdrop⟩ := Reader.Reading.slice_of_drop hquote
  rw [List.length_singleton] at hfront hdrop
  rw [← hoffset] at hfront hdrop
  have hshown : text <+: encoding.transcodeAll
      (content.drop (p.advance (Byte.quote :: front)).offset) := by
    rw [hdrop, Encoding.transcodeAll_cons_of_isAscii encoding Byte.isAscii_backslash,
      Encoding.transcodeAll_append]
    exact htext.trans (List.prefix_append _ _)
  have hback := List.length_pos_iff.2 h.letter
  refine ⟨by omega, ?_, ?_, hplace.2, hfront.symm ▸ h.before, ?_, hlength, hshown, ?_⟩
  · rw [hoffset, Position.advance_offset, h.split]
    simp only [List.length_cons, List.length_append]
    omega
  · rw [← List.head?_drop, hdrop]
    rfl
  · intro e c he hpre
    rw [hdrop] at hpre
    exact h.malformed e c he (he.isPrefix_within h.letter hpre)
  · rintro rfl
    rwa [Encoding.transcodeAll_utf8] at hshown

/-- What is reported of a literal that cannot be decoded. -/
theorem Lexeme.reportedAt {h : Handle} {l : Lexeme} {encoding : Encoding} {raw after : Bytes}
    {fault : EscapeFault} (hraw : Literal raw) (hl : l.position.In h.content)
    (hsource : h.content.drop l.position.offset = raw ++ after)
    (htext : l.text = encoding.transcodeAll raw)
    (hdecode : Payload.decode (payload l.text) = .error fault) :
    ReportedAt encoding h.content l.position.offset (l.position.advance raw).offset
      (l.escapePosition (some h) fault.offset) fault.text := by
  rw [htext] at hdecode
  obtain ⟨front, back, hfirst, hoffset, hshown, hlength⟩ := exists_firstMalformed hraw hdecode
  rw [hoffset, escapePosition_eq hfirst hsource htext]
  exact hfirst.reportedAt hl hsource hshown hlength

/-- A malformed escape is reported in any course of a session with its input, at its place there,
and it is the first one of the literal just read. -/
theorem Session.invalidEscape_place {s : Session Reader} (hs : s.Reachable)
    {input : Option Handle} {position : Position} {text : Bytes}
    (h : s.tokenizer.next.value = some (.error (.invalidEscape input position text))) :
    ∃ source l, input = some source ∧ Scanner.input? s.scanner = some source ∧
      (Scanner.next s.scanner).value = some l ∧ l.category = .string ∧
      ReportedAt s.scanner.settings.encoding source.content l.position.offset
        s.scanner.next.state.position.offset position text := by
  obtain ⟨l, hl, hfails⟩ := Tokenizer.next_fails h
  cases hfails with
  | @escape fault hc hdecode =>
    obtain ⟨c, hcursor⟩ : ∃ c, s.scanner.cursor = some c := Reader.cursor_of_next hl
    obtain ⟨stop, gap, raw, after, hfound, hstate⟩ := Reader.next_found hcursor hl
    have hsource : s.scanner.input? = some c.handle := by simp [Reader.input?, hcursor]
    have hinput : Scanner.input? (Scanner.next s.tokenizer.scanner).state = some c.handle :=
      s.scanner.next_input?.trans hsource
    have hstop : s.scanner.next.state.position = l.position.advance raw := by
      rw [hstate]
      exact hfound.stop
    have hraw : Literal raw := by
      have hspelled := hfound.spelled
      rw [hc] at hspelled
      exact hspelled.1
    have htext : l.text = s.scanner.settings.encoding.transcodeAll raw := by
      rw [hfound.text, if_pos hc]
    obtain ⟨hstart, hrest⟩ : l.position.In c.handle.content ∧
        c.handle.content.drop l.position.offset = raw ++ after := by
      rw [hfound.start, Position.advance_offset]
      exact ⟨(hs.placed.standing c hcursor).advance hfound.split,
        (Reader.Reading.slice_of_drop hfound.split).2⟩
    refine ⟨c.handle, l, hinput, hsource, hl, hc, ?_⟩
    rw [hinput, hstop]
    exact Lexeme.reportedAt hraw hstart hrest htext hdecode

/-- A literal with a Latin-1 letter, an escape of a newline, and a malformed escape. -/
def Session.latin1Literal : Handle :=
  ⟨0, ⟨"main", [34, 0xE9, 92, 110, 92, 113, 34], by decide⟩⟩

/-- A session in front of that literal. -/
def Session.latin1Start : Session Reader :=
  (Session.start Reader.empty []).after [.attach latin1Literal, .setEncoding .latin1]

/-- The letter takes two bytes in the lexeme. The place is that in the source, where it takes
one. -/
theorem Session.invalidEscape_latin1Start :
    latin1Start.Reachable ∧
      latin1Start.tokenizer.next.value =
        some (.error (.invalidEscape (some latin1Literal) ⟨4, 1, 5⟩ [92, 113])) ∧
      ∃ source l, some latin1Literal = some source ∧
        Scanner.input? latin1Start.scanner = some source ∧
        (Scanner.next latin1Start.scanner).value = some l ∧ l.category = .string ∧
        ReportedAt latin1Start.scanner.settings.encoding source.content l.position.offset
          latin1Start.scanner.next.state.position.offset ⟨4, 1, 5⟩ [92, 113] := by
  have hreachable : latin1Start.Reachable :=
    ⟨[], [.attach latin1Literal, .setEncoding .latin1], rfl⟩
  have hfault : latin1Start.tokenizer.next.value =
      some (.error (.invalidEscape (some latin1Literal) ⟨4, 1, 5⟩ [92, 113])) := by
    decide +kernel
  exact ⟨hreachable, hfault, invalidEscape_place hreachable hfault⟩

end SceneTokens
