import SceneTokens.Proofs.Tiling

/-!
# What is reported of a scene

Reading a scene loses no byte without a word. Of every tile of a scene at most one thing is
reported, at the position of the tile (`Cut.Reports`): that a byte was skipped, that bytes of a
literal were replaced, or that a construct is not closed or nests too deep. As the tiles lie one
behind another, the reports come in order of their positions, and one of the last kind comes last.

`Warnings` says from the content alone which reports there are, and that every byte is in a tile
that is as it should be or is accounted for by a report. Draining a reader gives exactly these
(`Reader.drain_warnings`).
-/

namespace SceneTokens

open Grammar

/-- The position an event is reported at, if it has one. -/
def Event.position? : Event → Option Position
  | .byteSkipped _ _ position | .stringUnclosed _ position | .bytesReplaced _ position
  | .commentUnclosed position | .commentTooDeep position => some position
  | .tokenRead _ lexeme | .numberMalformed lexeme | .contractBroken lexeme => some lexeme.position
  | .minted .. | .sequenceReplaced .. | .restoreFailed .. => none

namespace PieceKind

/-- Whether other bytes can stand inside a piece: a lexeme, a comment, a mark, or a construct that
is not closed. -/
def encloses : PieceKind → Bool
  | .blank | .rejected _ => false
  | _ => true

/-- Whether a piece is a lexeme or may stand between lexemes. -/
def isRegular : PieceKind → Bool
  | .byteOrderMark | .blank | .lineComment | .blockComment | .lexeme _ => true
  | _ => false

end PieceKind

/-! ## One tile -/

/-- The event is reported of the piece, in a source of the given name. -/
inductive Cut.Reports (encoding : Encoding) (source : String) : Cut → Event → Prop
  | skipped {position : Position} {b : UInt8} {raw : Bytes} :
      Reports encoding source ⟨position, ⟨.rejected b, raw⟩⟩ (.byteSkipped b source position)
  | replaced {position : Position} {raw : Bytes} : encoding = .ascii → (∃ b ∈ raw, 0x80 ≤ b) →
      Reports encoding source ⟨position, ⟨.lexeme .string, raw⟩⟩ (.bytesReplaced source position)
  | stringUnclosed {position : Position} {raw : Bytes} :
      Reports encoding source ⟨position, ⟨.unclosedString, raw⟩⟩ (.stringUnclosed source position)
  | commentUnclosed {position : Position} {raw : Bytes} :
      Reports encoding source ⟨position, ⟨.unclosedComment, raw⟩⟩ (.commentUnclosed position)
  | commentTooDeep {position : Position} {raw : Bytes} :
      Reports encoding source ⟨position, ⟨.deepComment, raw⟩⟩ (.commentTooDeep position)

theorem Encoding.substitutes_iff (encoding : Encoding) (bytes : Bytes) :
    encoding.substitutes bytes = true ↔ encoding = .ascii ∧ ∃ b ∈ bytes, 0x80 ≤ b := by
  simp [substitutes, Byte.isAscii]

namespace Cut

variable {encoding : Encoding} {source : String} {x : Cut} {e : Event}

/-- No more than one thing is reported of a piece. -/
theorem Reports.events_eq (h : x.Reports encoding source e) :
    x.piece.events encoding source x.position = [e] := by
  cases h with
  | replaced hascii hbyte =>
    simp only [Piece.events]
    rw [if_pos ((encoding.substitutes_iff _).2 ⟨hascii, hbyte⟩)]
  | _ => rfl

/-- The events of a piece are those that are to be reported of it. -/
theorem mem_events_iff :
    e ∈ x.piece.events encoding source x.position ↔ x.Reports encoding source e := by
  constructor
  · obtain ⟨position, kind, raw⟩ := x
    intro h
    cases kind with
    | rejected b =>
      obtain rfl := List.mem_singleton.1 h
      exact .skipped
    | unclosedString =>
      obtain rfl := List.mem_singleton.1 h
      exact .stringUnclosed
    | unclosedComment =>
      obtain rfl := List.mem_singleton.1 h
      exact .commentUnclosed
    | deepComment =>
      obtain rfl := List.mem_singleton.1 h
      exact .commentTooDeep
    | lexeme category =>
      cases category with
      | string =>
        simp only [Piece.events] at h
        split at h
        · rename_i hsubstitutes
          obtain ⟨hascii, hbyte⟩ := (encoding.substitutes_iff raw).1 hsubstitutes
          obtain rfl := List.mem_singleton.1 h
          exact .replaced hascii hbyte
        · cases h
      | _ => simp [Piece.events] at h
    | _ => simp [Piece.events] at h
  · intro h
    rw [h.events_eq, List.mem_singleton]

theorem Reports.position? (h : x.Reports encoding source e) :
    e.position? = some x.position := by
  cases h <;> rfl

theorem Reports.level (h : x.Reports encoding source e) : e.level = .warn := by
  cases h <;> rfl

theorem Reports.isUnclosed (h : x.Reports encoding source e) :
    e.isUnclosed = x.piece.kind.isOpen := by
  cases h <;> rfl

/-- Of a piece that is neither a lexeme nor trivia something is reported. -/
theorem exists_reports (encoding : Encoding) (source : String) (x : Cut) :
    x.piece.kind.isRegular = true ∨
      (∃ b, x.piece.kind = .rejected b ∧
        x.Reports encoding source (.byteSkipped b source x.position)) ∨
      ∃ e, x.Reports encoding source e ∧ e.isUnclosed = true := by
  obtain ⟨position, kind, raw⟩ := x
  cases kind with
  | rejected b => exact Or.inr (Or.inl ⟨b, rfl, .skipped⟩)
  | unclosedString => exact Or.inr (Or.inr ⟨_, .stringUnclosed, rfl⟩)
  | unclosedComment => exact Or.inr (Or.inr ⟨_, .commentUnclosed, rfl⟩)
  | deepComment => exact Or.inr (Or.inr ⟨_, .commentTooDeep, rfl⟩)
  | _ => exact Or.inl rfl

end Cut

/-! ## A row of tiles -/

/-- The events say of a scene, in order of position, what is amiss with it: which bytes were
skipped, which literals were changed, and whether a construct was left open. `tiles` are the tiles
of the content. -/
structure Warnings (encoding : Encoding) (source : String) (content : Bytes) (tiles : List Cut)
    (events : List Event) : Prop where
  level : ∀ e ∈ events, e.level = .warn
  /-- No two events have one position, so each of them stands for one thing. -/
  ordered : events.Pairwise fun e e' => ∃ p p', e.position? = some p ∧ e'.position? = some p' ∧
    p.offset < p'.offset
  skipped : ∀ b s p, .byteSkipped b s p ∈ events ↔ s = source ∧ p.In content ∧
    content[p.offset]? = some b ∧ Unexpected b ∧
    ∀ x ∈ tiles, x.Covers p.offset → x.piece.kind.encloses = false
  replaced : ∀ s p, .bytesReplaced s p ∈ events ↔ s = source ∧ encoding = .ascii ∧
    ∃ x ∈ tiles, x.position = p ∧ x.piece.kind = .lexeme .string ∧ ∃ b ∈ x.piece.raw, 0x80 ≤ b
  stringUnclosed : ∀ s p, .stringUnclosed s p ∈ events ↔ s = source ∧
    ∃ x ∈ tiles, x.position = p ∧ x.piece.kind = .unclosedString
  commentUnclosed : ∀ p, .commentUnclosed p ∈ events ↔
    ∃ x ∈ tiles, x.position = p ∧ x.piece.kind = .unclosedComment
  commentTooDeep : ∀ p, .commentTooDeep p ∈ events ↔
    ∃ x ∈ tiles, x.position = p ∧ x.piece.kind = .deepComment
  last : ∀ e ∈ events, e.isUnclosed = true → events.getLast? = some e
  /-- A byte is in a tile that is as it should be, or was skipped, or an open construct has it. -/
  accounted : ∀ i < content.length, (∃ x ∈ tiles, x.Covers i ∧ x.piece.kind.isRegular = true) ∨
    (∃ b s p, .byteSkipped b s p ∈ events ∧ p.offset = i) ∨
    ∃ e ∈ events, e.isUnclosed = true ∧ ∃ p, e.position? = some p ∧ p.offset ≤ i

namespace Grammar

variable {nested : Bool} {encoding : Encoding} {source : String} {content : Bytes}
variable {tiles : List Cut}

/-- What is reported of a row of tiles. -/
def reports (encoding : Encoding) (source : String) (tiles : List Cut) : List Event :=
  tiles.flatMap fun x => x.piece.events encoding source x.position

theorem mem_reports_iff {e : Event} :
    e ∈ reports encoding source tiles ↔ ∃ x ∈ tiles, x.Reports encoding source e := by
  simp only [reports, List.mem_flatMap, Cut.mem_events_iff]

/-- A tile in which nothing can stand is one byte. -/
theorem Tile.raw_eq {offset : Nat} {p : Piece} {after : Bytes} (h : Tile nested offset p after)
    (hkind : p.kind.encloses = false) : ∃ b, p.raw = [b] ∧
      (Unexpected b → p.kind = .rejected b) := by
  cases h with
  | @blank _ b _ hb =>
    refine ⟨b, rfl, fun hunexpected => ?_⟩
    cases hb.symm.trans hunexpected.1
  | @rejected _ b => exact ⟨b, rfl, fun _ => rfl⟩
  | _ => cases hkind

theorem Tile.of_rejected {offset : Nat} {p : Piece} {after : Bytes} {b : UInt8}
    (h : Tile nested offset p after) (hkind : p.kind = .rejected b) :
    p.raw = [b] ∧ Unexpected b := by
  cases h <;> cases hkind
  exact ⟨rfl, ‹_›⟩

end Grammar

/-- A place of a content is known by its offset. -/
theorem Position.In.eq {content : Bytes} {p q : Position} (hp : p.In content) (hq : q.In content)
    (h : p.offset = q.offset) : p = q := by
  rw [hp.2, hq.2, h]

theorem Cut.Within.covers {content : Bytes} {x : Cut} (h : x.Within content) :
    x.Covers x.position.offset := by
  have hpos := List.length_pos_iff.2 h.nonempty
  exact ⟨Nat.le_refl _, by unfold stop; omega⟩

namespace Grammar

section Row

variable {nested : Bool} {encoding : Encoding} {source : String} {content : Bytes}
variable {tiles : List Cut} (h : Tiled nested .start content tiles)
include h

theorem Tiled.all_within : ∀ x ∈ tiles, x.Within content :=
  h.within (Position.start_in content) rfl

theorem Tiled.all_tile : ∀ x ∈ tiles, ∃ after,
    content.drop x.position.offset = x.piece.raw ++ after ∧
      Tile nested x.position.offset x.piece after :=
  h.exists_tile rfl

/-- The bytes that are reported as skipped are the unexpected ones that stand in nothing. -/
theorem Tiled.mem_reports_skipped (b : UInt8) (s : String) (p : Position) :
    .byteSkipped b s p ∈ reports encoding source tiles ↔ s = source ∧ p.In content ∧
      content[p.offset]? = some b ∧ Unexpected b ∧
      ∀ x ∈ tiles, x.Covers p.offset → x.piece.kind.encloses = false := by
  rw [mem_reports_iff]
  constructor
  · rintro ⟨x, hx, hreports⟩
    cases hreports with
    | @skipped _ _ raw =>
      have hwithin := h.all_within _ hx
      obtain ⟨after, hdrop, htile⟩ := h.all_tile _ hx
      obtain ⟨hraw, hb⟩ := htile.of_rejected rfl
      refine ⟨rfl, hwithin.position_in, ?_, hb, fun y hy hcovers => ?_⟩
      · rw [← List.head?_drop, hdrop, hraw]
        rfl
      · rw [← h.eq_of_covers hx hy hwithin.covers hcovers]
        rfl
  · rintro ⟨rfl, hp, hbyte, hb, houtside⟩
    have hlt : p.offset < content.length := (List.getElem?_eq_some_iff.1 hbyte).1
    obtain ⟨x, hx, hcovers⟩ := h.exists_covers (i := p.offset) (Nat.zero_le _) (by
      rw [Nat.add_comm]
      exact hlt)
    obtain ⟨after, hdrop, htile⟩ := h.all_tile x hx
    -- nothing can stand inside the tile that has the byte, so the tile is the byte
    obtain ⟨c, hraw, hkind⟩ := htile.raw_eq (houtside x hx hcovers)
    have hoffset : x.position.offset = p.offset := by
      have hstop := hcovers.2
      rw [Cut.stop, hraw, List.length_singleton] at hstop
      have hstart := hcovers.1
      omega
    have hc : c = b := by
      rw [← hoffset, ← List.head?_drop, hdrop, hraw] at hbyte
      exact Option.some.inj hbyte
    subst hc
    have hposition := (h.all_within x hx).position_in.eq hp hoffset
    obtain ⟨position, kind, raw⟩ := x
    obtain rfl : kind = .rejected c := hkind hb
    obtain rfl : position = p := hposition
    exact ⟨_, hx, .skipped⟩

/-- A tile reports at most one event, at its start, so events have the order of the tiles. -/
theorem Tiled.pairwise_reports : (reports encoding source tiles).Pairwise fun e e' =>
    ∃ p p', e.position? = some p ∧ e'.position? = some p' ∧ p.offset < p'.offset := by
  refine List.pairwise_flatMap.2 ⟨fun x _ => ?_, ?_⟩
  · cases hevents : x.piece.events encoding source x.position with
    | nil => exact .nil
    | cons e more =>
      have hreports : x.Reports encoding source e := Cut.mem_events_iff.1 (by simp [hevents])
      rw [← hevents, hreports.events_eq]
      exact List.pairwise_singleton _ _
  · refine h.pairwise.imp_of_mem fun {x y} hx _ hle e he e' he' => ?_
    have hlt := (h.all_within x hx).covers.2
    exact ⟨_, _, (Cut.mem_events_iff.1 he).position?, (Cut.mem_events_iff.1 he').position?,
      Nat.lt_of_lt_of_le hlt hle⟩

/-- A construct that is not closed is the last that is reported. -/
theorem Tiled.getLast?_reports {e : Event} (he : e ∈ reports encoding source tiles)
    (hunclosed : e.isUnclosed = true) : (reports encoding source tiles).getLast? = some e := by
  obtain ⟨x, hx, hreports⟩ := mem_reports_iff.1 he
  have hlast := h.getLast?_of_isOpen hx (hreports.isUnclosed ▸ hunclosed)
  obtain ⟨front, hfront⟩ := List.getLast?_eq_some_iff.1 hlast
  rw [hfront, reports, List.flatMap_append, List.flatMap_singleton, hreports.events_eq,
    List.getLast?_append, List.getLast?_singleton, Option.some_or]

/-- Every byte is in a tile that is as it should be, or is accounted for by a report. -/
theorem Tiled.accounted {i : Nat} (hi : i < content.length) :
    (∃ x ∈ tiles, x.Covers i ∧ x.piece.kind.isRegular = true) ∨
      (∃ b s p, .byteSkipped b s p ∈ reports encoding source tiles ∧ p.offset = i) ∨
      ∃ e ∈ reports encoding source tiles, e.isUnclosed = true ∧
        ∃ p, e.position? = some p ∧ p.offset ≤ i := by
  obtain ⟨x, hx, hcovers⟩ := h.exists_covers (Nat.zero_le i) (by
    rw [Nat.add_comm]
    exact hi)
  rcases x.exists_reports encoding source with hregular | ⟨b, hkind, hreports⟩ |
    ⟨e, hreports, hunclosed⟩
  · exact Or.inl ⟨x, hx, hcovers, hregular⟩
  · refine Or.inr (Or.inl ⟨b, source, x.position, mem_reports_iff.2 ⟨x, hx, hreports⟩, ?_⟩)
    obtain ⟨after, -, htile⟩ := h.all_tile x hx
    have hstop := hcovers.2
    rw [Cut.stop, (htile.of_rejected hkind).1, List.length_singleton] at hstop
    have hstart := hcovers.1
    omega
  · exact Or.inr (Or.inr ⟨e, mem_reports_iff.2 ⟨x, hx, hreports⟩, hunclosed, _,
      hreports.position?, hcovers.1⟩)

/-- What is reported of a tiling is what is to be said of the scene, part by part. -/
theorem Tiled.warnings :
    Warnings encoding source content tiles (reports encoding source tiles) where
  level e he := by
    obtain ⟨x, -, hreports⟩ := mem_reports_iff.1 he
    exact hreports.level
  ordered := h.pairwise_reports
  skipped := h.mem_reports_skipped
  replaced s p := by
    rw [mem_reports_iff]
    constructor
    · rintro ⟨x, hx, hreports⟩
      cases hreports with
      | replaced hascii hbyte => exact ⟨rfl, hascii, _, hx, rfl, rfl, hbyte⟩
    · rintro ⟨rfl, hascii, ⟨position, kind, raw⟩, hx, rfl, rfl, hbyte⟩
      exact ⟨_, hx, .replaced hascii hbyte⟩
  stringUnclosed s p := by
    rw [mem_reports_iff]
    constructor
    · rintro ⟨x, hx, ⟨⟩⟩
      exact ⟨rfl, _, hx, rfl, rfl⟩
    · rintro ⟨rfl, ⟨position, kind, raw⟩, hx, rfl, rfl⟩
      exact ⟨_, hx, .stringUnclosed⟩
  commentUnclosed p := by
    rw [mem_reports_iff]
    constructor
    · rintro ⟨x, hx, ⟨⟩⟩
      exact ⟨_, hx, rfl, rfl⟩
    · rintro ⟨⟨position, kind, raw⟩, hx, rfl, rfl⟩
      exact ⟨_, hx, .commentUnclosed⟩
  commentTooDeep p := by
    rw [mem_reports_iff]
    constructor
    · rintro ⟨x, hx, ⟨⟩⟩
      exact ⟨_, hx, rfl, rfl⟩
    · rintro ⟨⟨position, kind, raw⟩, hx, rfl, rfl⟩
      exact ⟨_, hx, .commentTooDeep⟩
  last e he := h.getLast?_reports he
  accounted i hi := h.accounted hi

end Row

end Grammar

/-- A content is tiled in one way. Draining a reader that starts on it returns the lexemes among the
tiles, and reports of the other bytes exactly what is amiss with them. -/
theorem Reader.drain_warnings (r : Reader) (h : Handle) :
    let drained := Scanner.drain (r.attach h)
    ∃ tiles, (∀ xs, Tiled r.settings.nested .start h.content xs ↔ xs = tiles) ∧
      drained.value =
        tiles.filterMap (fun x => x.piece.lexeme? r.settings.encoding x.position) ∧
      Warnings r.settings.encoding h.name h.content tiles drained.events := by
  intro drained
  have htiles : (r.attach h).tiles = tilesFrom r.settings.nested .start h.content := rfl
  obtain ⟨hvalue, hevents⟩ := drain_eq_tiles (r := r.attach h) (h := h) rfl
  rw [htiles] at hvalue hevents
  refine ⟨_, fun xs => tiled_iff, hvalue, ?_⟩
  have hreports : drained.events = _ := hevents
  rw [hreports]
  exact (tiled_tilesFrom _ _ _).warnings

end SceneTokens
