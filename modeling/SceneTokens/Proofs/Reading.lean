import SceneTokens.Lexing.Reader
import SceneTokens.Proofs.Pieces

/-!
# What a reader reads

`Reader.scan` cuts pieces until one is a lexeme. `Reader.scan_found` says what it means that it
finds one: a gap was passed over, the bytes behind the gap are the lexeme as the grammar spells it
there, and the reader stands right behind them (`Reader.Found`). `Reader.scan_remainder` says what
it means that it finds none: all that is left is a gap, or a gap and a construct that is not
closed, and the reader stands at the end.

`Reader.readings` lists the lexemes up to the end, each with the offset right behind it. Their
spans and the gaps between them make up the whole content (`Reader.readings_partition`).
-/

namespace SceneTokens

open Grammar

namespace Grammar

/-- No lexeme is empty. -/
theorem Spelled.ne_nil {category : Category} {raw after : Bytes}
    (h : Spelled category raw after) : raw ≠ [] := by
  cases category with
  | word => cases h.1 with | mk => simp
  | number =>
    obtain ⟨b, rest, rfl, -⟩ := h.1.startsNumber
    simp
  | string => cases h.1 with | mk => simp
  | symbol => cases h <;> simp

theorem Spelled.literal {category : Category} {raw after : Bytes}
    (h : Spelled category raw after) (hc : category = .string) : Literal raw := by
  subst hc
  exact h.1

end Grammar

namespace Scanner

variable {σ : Type} [Scanner σ]

theorem drain_of_none {s : σ} (h : (next s).value = none) :
    drain s = ⟨[], (next s).state, (next s).events⟩ := by
  rw [drain]
  split
  · rfl
  · simp_all

theorem drain_of_some {s : σ} {l : Lexeme} (h : (next s).value = some l) :
    drain s = ⟨l :: (drain (next s).state).value, (drain (next s).state).state,
      (next s).events ++ (drain (next s).state).events⟩ := by
  rw [drain]
  split
  · simp_all
  · simp_all

end Scanner

namespace Piece

theorem drop_cut {nested atStart : Bool} {b : UInt8} {rest after : Bytes}
    (h : (cut nested atStart b rest).raw ++ after = b :: rest) :
    (b :: rest).drop (cut nested atStart b rest).raw.length = after := by
  rw [← h]
  exact List.drop_left

/-- A piece that is a lexeme is spelled as the grammar has it, and its text is transcoded if it is a
literal. -/
theorem fits_of_lexeme? {nested : Bool} {offset : Nat} {p : Piece} {after : Bytes}
    {encoding : Encoding} {position : Position} {l : Lexeme} (hp : p.Fits nested offset after)
    (h : p.lexeme? encoding position = some l) : Spelled l.category p.raw after ∧
      l.text = (if l.category = .string then encoding.transcodeAll p.raw else p.raw) ∧
      l.position = position := by
  obtain ⟨kind, raw⟩ := p
  cases kind <;> simp only [lexeme?, Option.some.injEq, reduceCtorEq] at h
  subst h
  exact ⟨hp, by simp [text], rfl⟩

/-- Any other piece may stand between lexemes, or is open and takes all that is left. -/
theorem fits_of_lexeme?_eq_none {nested : Bool} {offset : Nat} {p : Piece} {after : Bytes}
    {encoding : Encoding} {position : Position} (hp : p.Fits nested offset after)
    (h : p.lexeme? encoding position = none) :
    Trivia nested offset p.raw after ∨ after = [] ∧ Unclosed nested p.raw := by
  obtain ⟨kind, raw⟩ := p
  cases kind <;> simp only [lexeme?, reduceCtorEq] at h
  case unclosedComment | deepComment | unclosedString => exact Or.inr hp
  all_goals exact Or.inl hp

end Piece

/-- Behind the bytes that were walked over, the others are left. -/
theorem Cursor.rest_advance {h : Handle} {p : Position} {front after : Bytes}
    (hrest : (Cursor.mk h p).rest = front ++ after) :
    (Cursor.mk h (p.advance front)).rest = after := by
  simp only [rest, Position.advance_offset] at hrest ⊢
  rw [← List.drop_drop, hrest, List.drop_left]

namespace Reader

/-! ## One lexeme -/

/-- The lexeme `l` was read from `bytes`, which start at `position`: `gap` was passed over, `raw`
are its own bytes, `after` is left, and the reader stands at `stop`. -/
structure Found (settings : Settings) (position : Position) (bytes : Bytes) (l : Lexeme)
    (stop : Position) (gap raw after : Bytes) : Prop where
  split : bytes = gap ++ (raw ++ after)
  skipped : Gap settings.nested position.offset gap (raw ++ after)
  spelled : Spelled l.category raw after
  text : l.text = if l.category = .string then settings.encoding.transcodeAll raw else raw
  start : l.position = position.advance gap
  stop : stop = l.position.advance raw

/-- A lexeme found behind a piece is found behind that piece's bytes too. -/
theorem Found.behind {settings : Settings} {position stop : Position} {l : Lexeme}
    {raw bytes gap raw' after : Bytes} (hraw : Trivia settings.nested position.offset raw bytes)
    (h : Found settings (position.advance raw) bytes l stop gap raw' after) :
    Found settings position (raw ++ bytes) l stop (raw ++ gap) raw' after where
  split := by rw [h.split, List.append_assoc]
  skipped := by
    refine .cons (h.split ▸ hraw) ?_
    simpa using h.skipped
  spelled := h.spelled
  text := h.text
  start := by rw [h.start, Position.advance_append]
  stop := h.stop

section Found

variable {settings : Settings} {position stop : Position} {c : Cursor} {l : Lexeme}
variable {bytes gap raw after : Bytes}

theorem Found.start_offset (h : Found settings position bytes l stop gap raw after) :
    l.position.offset = position.offset + gap.length := by
  rw [h.start, Position.advance_offset]

theorem Found.stop_offset (h : Found settings position bytes l stop gap raw after) :
    stop.offset = l.position.offset + raw.length := by
  rw [h.stop, Position.advance_offset]

theorem Found.start_rest (h : Found settings c.position c.rest l stop gap raw after) :
    (Cursor.mk c.handle l.position).rest = raw ++ after := by
  rw [h.start]
  exact Cursor.rest_advance h.split

theorem Found.stop_rest (h : Found settings c.position c.rest l stop gap raw after) :
    (Cursor.mk c.handle stop).rest = after := by
  rw [h.stop]
  exact Cursor.rest_advance h.start_rest

/-- A lexeme ends within the content. -/
theorem Found.stop_le (h : Found settings c.position c.rest l stop gap raw after)
    (hle : c.position.offset ≤ c.handle.content.length) :
    stop.offset ≤ c.handle.content.length := by
  have hstart := h.start_offset
  have hstop := h.stop_offset
  have hlength := congrArg List.length h.split
  simp only [Cursor.rest, List.length_drop, List.length_append] at hlength
  omega

end Found

/-- What a scan that finds a lexeme has done. The induction is on the pieces it cuts, each of which
in front of the lexeme becomes part of the gap. -/
theorem scan_found {settings : Settings} {source : String} {position : Position} {bytes : Bytes}
    {l : Lexeme} (h : (scan settings source position bytes).value = some l) :
    ∃ gap raw after, Found settings position bytes l
      (scan settings source position bytes).state gap raw after := by
  fun_induction scan settings source position bytes with
  | case1 => cases h
  | case2 position b rest piece events stop lexeme hpiece =>
    obtain ⟨after, hafter, hfits⟩ := Piece.cut_fits settings.nested position.offset b rest
    obtain rfl := Option.some.inj h
    obtain ⟨hspelled, htext, hpos⟩ := Piece.fits_of_lexeme? hfits hpiece
    exact ⟨[], piece.raw, after, hafter.symm, .nil, hspelled, htext, hpos, by rw [hpos]⟩
  | case3 position b rest piece events stop hpiece more ih =>
    obtain ⟨after, hafter, hfits⟩ := Piece.cut_fits settings.nested position.offset b rest
    have hdrop : (b :: rest).drop piece.raw.length = after := Piece.drop_cut hafter
    have hmore : more = scan settings source stop after := by simp only [more, hdrop]
    obtain ⟨gap, raw, after', hfound⟩ := ih h
    rw [hdrop, ← hmore] at hfound
    rcases Piece.fits_of_lexeme?_eq_none hfits hpiece with htrivia | ⟨rfl, -⟩
    · rw [← hafter]
      exact ⟨_, raw, after', hfound.behind htrivia⟩
    · exact absurd hfound.split.symm (by simp [hfound.spelled.ne_nil])

/-- What a scan that finds none has done: it is at the end, and the grammar has no lexeme in what it
passed over. -/
theorem scan_remainder {settings : Settings} {source : String} {position : Position}
    {bytes : Bytes} (h : (scan settings source position bytes).value = none) :
    Remainder settings.nested position.offset bytes ∧
      (scan settings source position bytes).state = position.advance bytes := by
  fun_induction scan settings source position bytes with
  | case1 => exact ⟨.closed .nil, rfl⟩
  | case2 => cases h
  | case3 position b rest piece events stop hpiece more ih =>
    obtain ⟨after, hafter, hfits⟩ := Piece.cut_fits settings.nested position.offset b rest
    have hdrop : (b :: rest).drop piece.raw.length = after := Piece.drop_cut hafter
    have hmore : more = scan settings source stop after := by simp only [more, hdrop]
    obtain ⟨hrest, hstate⟩ := ih h
    rw [hdrop] at hrest hstate
    rw [← hmore] at hstate
    have hoffset : stop.offset = position.offset + piece.raw.length := by simp [stop]
    rw [hoffset] at hrest
    refine ⟨?_, ?_⟩
    · rcases Piece.fits_of_lexeme?_eq_none hfits hpiece with htrivia | ⟨rfl, hopen⟩
      · rw [← hafter]
        cases hrest with
        | closed hgap => exact .closed (.cons (by simpa using htrivia) hgap)
        | opened hgap hopen =>
          have := Remainder.opened (.cons htrivia hgap) hopen
          rwa [List.append_assoc] at this
      · rw [← hafter, List.append_nil]
        exact .opened .nil hopen
    · show more.state = _
      rw [hstate, ← hafter, Position.advance_append]

/-- What came of asking a reader with an input for a lexeme. -/
theorem next_found {r : Reader} {c : Cursor} {l : Lexeme} (hc : r.cursor = some c)
    (h : r.next.value = some l) :
    ∃ stop gap raw after, Found r.settings c.position c.rest l stop gap raw after ∧
      r.next.state = { r with cursor := some ⟨c.handle, stop⟩ } := by
  simp only [next, hc] at h ⊢
  obtain ⟨gap, raw, after, hfound⟩ := scan_found h
  exact ⟨_, gap, raw, after, hfound, rfl⟩

/-- What a reader that finds none has done. -/
theorem next_remainder {r : Reader} {c : Cursor} (hc : r.cursor = some c)
    (h : r.next.value = none) :
    Remainder r.settings.nested c.position.offset c.rest ∧
      r.next.state = { r with cursor := some ⟨c.handle, c.position.advance c.rest⟩ } := by
  simp only [next, hc] at h ⊢
  obtain ⟨hrest, hstate⟩ := scan_remainder h
  exact ⟨hrest, by rw [hstate]⟩

/-! ## All lexemes -/

/-- Draining a reader leads it to the end of its input. -/
theorem drain_cursor (r : Reader) : ∀ c, r.cursor = some c →
    (Scanner.drain r).state.cursor = some ⟨c.handle, c.position.advance c.rest⟩ := by
  fun_induction Scanner.drain r with
  | case1 r step hnone =>
    intro c hc
    have hstate : step.state = _ := (next_remainder hc hnone).2
    rw [hstate]
  | case2 r step lexeme hsome more ih =>
    intro c hc
    obtain ⟨stop, gap, raw, after, hfound, hstate⟩ := next_found hc hsome
    have hcursor : step.state.cursor = some ⟨c.handle, stop⟩ := congrArg cursor hstate
    rw [ih _ hcursor, hfound.stop_rest, hfound.split, Position.advance_append,
      Position.advance_append, hfound.stop, hfound.start]

/-- A lexeme that was read, and the offset right behind it. -/
structure Reading where
  lexeme : Lexeme
  stop : Nat

namespace Reading

/-- The offset of the first byte. -/
def start (x : Reading) : Nat :=
  x.lexeme.position.offset

/-- The bytes of a content from one offset up to another. -/
def slice (content : Bytes) (start stop : Nat) : Bytes :=
  (content.drop start).take (stop - start)

/-- A reading is spelled by the bytes between its offsets, in front of what follows them, and its
text is these bytes, those of a string literal transcoded. -/
def Spelled (encoding : Encoding) (content : Bytes) (x : Reading) : Prop :=
  Grammar.Spelled x.lexeme.category (slice content x.start x.stop) (content.drop x.stop) ∧
    x.lexeme.text = if x.lexeme.category = .string
      then encoding.transcodeAll (slice content x.start x.stop)
      else slice content x.start x.stop

/-- Readings that lie one behind another in a content from `offset` on, with gaps between them,
and nothing but a remainder behind the last. -/
def Partition (settings : Settings) (content : Bytes) : Nat → List Reading → Prop
  | offset, [] =>
    offset ≤ content.length ∧ Remainder settings.nested offset (content.drop offset)
  | offset, x :: xs =>
    offset ≤ x.start ∧ x.start < x.stop ∧
      Gap settings.nested offset (slice content offset x.start) (content.drop x.start) ∧
      x.Spelled settings.encoding content ∧ Partition settings content x.stop xs

theorem slice_of_drop {content front after : Bytes} {offset : Nat}
    (h : content.drop offset = front ++ after) :
    slice content offset (offset + front.length) = front ∧
      content.drop (offset + front.length) = after := by
  constructor
  · rw [slice, Nat.add_sub_cancel_left, h, List.take_left]
  · rw [← List.drop_drop, h, List.drop_left]

end Reading

/-- The lexemes up to the end, each with the offset the reader stands at after it. -/
def readings (r : Reader) : List Reading :=
  match _h : r.next.value with
  | none => []
  | some lexeme => ⟨lexeme, r.next.state.position.offset⟩ :: readings r.next.state
termination_by r.remaining
decreasing_by exact next_remaining r (Option.isSome_of_eq_some _h)

/-- The readings are the lexemes that draining returns, each with its end. -/
theorem map_lexeme_readings (r : Reader) :
    r.readings.map Reading.lexeme = (Scanner.drain r).value := by
  fun_induction readings r with
  | case1 r h => rw [Scanner.drain_of_none h, List.map_nil]
  | case2 r lexeme h ih => rw [Scanner.drain_of_some h, List.map_cons, ih]; rfl

/-- From where the reader stands to the end, gaps and lexemes take turns. The induction is on the
readings, and each starts where the one before it ended. -/
theorem partition_readings {r : Reader} {c : Cursor} (hc : r.cursor = some c)
    (hle : c.position.offset ≤ c.handle.content.length) :
    Reading.Partition r.settings c.handle.content c.position.offset r.readings := by
  fun_induction readings r generalizing c with
  | case1 r h => exact ⟨hle, (next_remainder hc h).1⟩
  | case2 r lexeme h ih =>
    obtain ⟨stop, gap, raw, after, hfound, hstate⟩ := next_found hc h
    have hcursor : r.next.state.cursor = some ⟨c.handle, stop⟩ := by rw [hstate]
    have hstop : r.next.state.position.offset = stop.offset := by rw [hstate]; rfl
    have hsettings : r.next.state.settings = r.settings := by rw [hstate]
    obtain ⟨hgap, hdrop⟩ := Reading.slice_of_drop hfound.split
    have hstart := hfound.start_offset
    rw [← hstart] at hgap hdrop
    obtain ⟨hraw, hafter⟩ := Reading.slice_of_drop hdrop
    have hend := hfound.stop_offset
    rw [← hend] at hraw hafter
    have hpos := List.length_pos_iff.2 hfound.spelled.ne_nil
    have ih' := ih hcursor (hfound.stop_le hle)
    rw [hsettings] at ih'
    refine ⟨by simp only [Reading.start]; omega, by simp only [Reading.start]; omega, ?_, ?_, ?_⟩
    · simp only [Reading.start]
      rw [hgap, hdrop]
      exact hfound.skipped
    · simp only [Reading.Spelled, Reading.start]
      rw [hstop, hraw, hafter]
      exact ⟨hfound.spelled, hfound.text⟩
    · dsimp only
      rw [hstop]
      exact ih'

/-- Draining a reader that starts on a content cuts the content into lexemes and gaps. -/
theorem readings_partition (h : Handle) (settings : Settings) :
    let r := Scanner.configure (Reader.ofHandle h) settings
    r.readings.map Reading.lexeme = (Scanner.drain r).value ∧
      Reading.Partition settings h.content 0 r.readings := by
  intro r
  have hc : r.cursor = some (.ofHandle h) := rfl
  exact ⟨map_lexeme_readings r, partition_readings hc (Nat.zero_le _)⟩

end Reader

end SceneTokens
