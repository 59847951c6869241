import SceneTokens.Proofs.Contract
import SceneTokens.Proofs.Placement

/-!
# The way to the next lexeme

Between two requests a reader stands at a place of its input. On the way from one such place to the
next it takes many more positions, at every piece it cuts and within the pieces. `Reader.cuts` lists
the pieces with the positions they are cut at, and `Reader.scan_eq_cuts` says that this list is all
there is to reading: the lexeme, the position reached and the events are read off it.

No position on the way leaves the content, and none has a wrong line or column (`Cut.Within`). In
particular what is left of the input is never cut behind its end, and the bytes of a lexeme are
those between two positions of which the first does not come after the second. Together with the
invariant of sessions that makes every position a session ever shows the right one
(`Session.positions_in`).
-/

namespace SceneTokens

/-- A piece and the position it is cut at. -/
structure Cut where
  position : Position
  piece : Piece

namespace Cut

/-- A piece of which the bytes stand in the content where it was cut, and every position from its
first byte to right behind its last is a place of the content. -/
structure Within (content : Bytes) (x : Cut) : Prop where
  nonempty : x.piece.raw ≠ []
  bytes : Reader.Reading.slice content x.position.offset
    (x.position.advance x.piece.raw).offset = x.piece.raw
  places : ∀ k, (x.position.advance (x.piece.raw.take k)).In content

theorem Within.position_in {content : Bytes} {x : Cut} (h : x.Within content) :
    x.position.In content := by
  simpa using h.places 0

theorem Within.lt_length {content : Bytes} {x : Cut} (h : x.Within content) :
    x.position.offset < content.length := by
  have hend := (h.places x.piece.raw.length).1
  have hpos := List.length_pos_iff.2 h.nonempty
  rw [List.take_length, Position.advance_offset] at hend
  omega

end Cut

namespace Reader

/-! ## Reading as a row of cuts -/

/-- The pieces cut from `bytes`, which start at `position`, up to and including the first lexeme. -/
def cutsFrom (settings : Settings) (position : Position) : Bytes → List Cut
  | [] => []
  | b :: rest =>
    let piece := Piece.cut settings.nested (position.offset == 0) b rest
    match piece.lexeme? settings.encoding position with
    | some _ => [⟨position, piece⟩]
    | none => ⟨position, piece⟩ ::
      cutsFrom settings (position.advance piece.raw) ((b :: rest).drop piece.raw.length)
termination_by bytes => bytes.length
decreasing_by
  have := List.length_pos_iff.2 (Piece.cut_raw_ne_nil settings.nested (position.offset == 0) b rest)
  simp only [List.length_drop, List.length_cons]
  omega

/-- The pieces a reader cuts on the way to its next lexeme. -/
def cuts (r : Reader) : List Cut :=
  match r.cursor with
  | none => []
  | some c => cutsFrom r.settings c.position c.rest

/-- Reading comes down to the pieces that are cut: only the last of them can be a lexeme. -/
theorem scan_eq_cuts (settings : Settings) (source : String) (position : Position)
    (bytes : Bytes) :
    let xs := cutsFrom settings position bytes
    scan settings source position bytes =
      ⟨xs.getLast?.bind fun x => x.piece.lexeme? settings.encoding x.position,
        position.advance (xs.flatMap fun x => x.piece.raw),
        xs.flatMap fun x => x.piece.events settings.encoding source x.position⟩ := by
  fun_induction scan settings source position bytes with
  | case1 position => simp [cutsFrom]
  | case2 position b rest piece events stop lexeme hpiece =>
    rw [cutsFrom]
    dsimp only
    rw [hpiece]
    simp [hpiece, stop, events, piece]
  | case3 position b rest piece events stop hpiece more ih =>
    rw [cutsFrom]
    dsimp only
    rw [hpiece]
    dsimp only at ih ⊢
    generalize hxs : cutsFrom settings stop ((b :: rest).drop piece.raw.length) = xs at ih
    have hmore : more = _ := ih
    have hlast : (xs.getLast?.bind fun x => x.piece.lexeme? settings.encoding x.position) =
        (Cut.mk position piece :: xs).getLast?.bind fun x =>
          x.piece.lexeme? settings.encoding x.position := by
      rw [List.getLast?_cons]
      cases xs.getLast? with
      | none => exact hpiece.symm
      | some x => rfl
    rw [hmore, List.flatMap_cons, List.flatMap_cons, Position.advance_append]
    exact congrArg (Step.mk · _ _) hlast

/-- The lexeme that is read is the last piece that is cut, if that is one. -/
theorem next_eq_cuts {r : Reader} {c : Cursor} (hc : r.cursor = some c) :
    r.next.value = (r.cuts.getLast?.bind fun x =>
      x.piece.lexeme? r.settings.encoding x.position) := by
  simp only [next, cuts, hc, scan_eq_cuts]

/-! ## Positions on the way -/

/-- A piece that is cut at a place of the content lies within the content. -/
theorem cut_within {nested : Bool} {content : Bytes} {position : Position} {b : UInt8}
    {rest : Bytes} (hp : position.In content)
    (hrest : content.drop position.offset = b :: rest) :
    Cut.Within content ⟨position, Piece.cut nested (position.offset == 0) b rest⟩ := by
  obtain ⟨after, hafter, -⟩ := Piece.cut_fits nested position.offset b rest
  rw [← hafter] at hrest
  refine ⟨Piece.cut_raw_ne_nil nested _ b rest, ?_, fun k => ?_⟩
  · rw [Position.advance_offset]
    exact (Reading.slice_of_drop hrest).1
  · have hsplit : content.drop position.offset =
        (Piece.cut nested (position.offset == 0) b rest).raw.take k ++
          ((Piece.cut nested (position.offset == 0) b rest).raw.drop k ++ after) := by
      rw [hrest, ← List.append_assoc, List.take_append_drop]
    exact hp.advance hsplit

/-- From a place of the content on, every cut is within the content. -/
theorem cutsFrom_within {settings : Settings} {content : Bytes} {position : Position}
    {bytes : Bytes} (hp : position.In content) (hbytes : content.drop position.offset = bytes) :
    ∀ x ∈ cutsFrom settings position bytes, x.Within content := by
  fun_induction cutsFrom settings position bytes with
  | case1 => simp
  | case2 position b rest piece lexeme hpiece =>
    intro x hx
    obtain rfl := List.mem_singleton.1 hx
    exact cut_within hp hbytes
  | case3 position b rest piece hpiece ih =>
    intro x hx
    have hfirst : Cut.Within content ⟨position, piece⟩ := cut_within hp hbytes
    rcases List.mem_cons.1 hx with rfl | hx
    · exact hfirst
    · have hnext : (position.advance piece.raw).In content := by
        simpa using hfirst.places piece.raw.length
      refine ih hnext ?_ x hx
      rw [Position.advance_offset, ← List.drop_drop, hbytes]

/-- All pieces on the way to a lexeme lie within the input. -/
theorem Standing.cuts_within {r : Reader} (h : r.Standing) {c : Cursor} (hc : r.cursor = some c) :
    ∀ x ∈ r.cuts, x.Within c.handle.content := by
  simp only [cuts, hc]
  exact cutsFrom_within (h c hc) rfl

/-- The position of a lexeme is where its piece was cut. -/
theorem Standing.lexeme_in {r : Reader} (h : r.Standing) {l : Lexeme}
    (hl : r.next.value = some l) : ∃ source, r.input? = some source ∧
      l.position.In source.content ∧ l.position.offset < source.content.length := by
  obtain ⟨c, hc⟩ := cursor_of_next hl
  rw [next_eq_cuts hc, Option.bind_eq_some_iff] at hl
  obtain ⟨x, hx, hlexeme⟩ := hl
  have hposition : l.position = x.position := by
    unfold Piece.lexeme? at hlexeme
    split at hlexeme
    · rw [← Option.some.inj hlexeme]
    · cases hlexeme
  have hwithin := h.cuts_within hc x (List.mem_of_getLast? hx)
  refine ⟨c.handle, by rw [input?, hc, Option.map_some], ?_⟩
  rw [hposition]
  exact ⟨hwithin.position_in, hwithin.lt_length⟩

/-- So does a directive. Each lexeme passed over leaves the reader at a place of its input. -/
theorem Standing.directive_in {r : Reader} (h : r.Standing) {l : Lexeme}
    (hl : r.nextDirective.value = some l) : ∃ source, r.input? = some source ∧
      l.position.In source.content ∧ l.position.offset < source.content.length := by
  fun_induction Reader.nextDirective r with
  | case1 r step hnone => cases hnone.symm.trans hl
  | case2 r step lexeme hsome hash => exact h.lexeme_in hl
  | case3 r step lexeme hsome hash more ih =>
    obtain ⟨source, hsource, hplace⟩ := ih h.next hl
    exact ⟨source, r.next_input?.symm.trans hsource, hplace⟩

end Reader

/-- Wherever a session has led its reader, the reader stands at a place of its input, it goes on
to the next lexeme over places of the input only, and the lexemes it returns carry the places of
their first bytes. -/
theorem Session.positions_in {s : Session Reader} (hs : s.Reachable) :
    (∀ c, s.scanner.cursor = some c → c.position.In c.handle.content ∧
        ∀ x ∈ s.scanner.cuts, x.Within c.handle.content) ∧
      ∀ l, s.scanner.next.value = some l ∨ s.scanner.nextDirective.value = some l →
        ∃ source, s.scanner.input? = some source ∧ l.position.In source.content ∧
          l.position.offset < source.content.length := by
  have hstanding := hs.placed.standing
  refine ⟨fun c hc => ⟨hstanding c hc, hstanding.cuts_within hc⟩, fun l hl => ?_⟩
  rcases hl with hl | hl
  · exact hstanding.lexeme_in hl
  · exact hstanding.directive_in hl

/-- A session that read the word behind a byte order mark, twice. In front of the second word there
is a newline and a comment over two lines. -/
def Session.rereadWord : Session Reader :=
  (Session.start Reader.empty []).after
    [.attach ⟨0, ⟨"main", [0xEF, 0xBB, 0xBF, 97, 10, 47, 42, 10, 42, 47, 98], by decide⟩⟩,
      .saveHot "m", .next, .goHot "m", .next]

/-- The pieces in front of the second word are the newline, the comment and the word. -/
theorem Session.positions_in_rereadWord :
    rereadWord.Reachable ∧ rereadWord.scanner.cuts.length = 3 ∧
      (∀ x ∈ rereadWord.scanner.cuts, ∃ source, rereadWord.scanner.input? = some source ∧
        x.Within source.content) ∧
      rereadWord.scanner.next.value = some ⟨.word, [98], ⟨10, 3, 3⟩⟩ ∧
      ∃ source, rereadWord.scanner.input? = some source ∧
        (Position.mk 10 3 3).In source.content ∧ 10 < source.content.length := by
  have hreachable : rereadWord.Reachable := ⟨[], _, rfl⟩
  have hcuts : rereadWord.scanner.cuts.length = 3 := by decide +kernel
  have hnext : rereadWord.scanner.next.value = some ⟨.word, [98], ⟨10, 3, 3⟩⟩ := by
    decide +kernel
  obtain ⟨hcursor, hlexemes⟩ := positions_in hreachable
  obtain ⟨c, hc⟩ := Reader.cursor_of_next hnext
  have hinput : rereadWord.scanner.input? = some c.handle := by
    rw [Reader.input?, hc, Option.map_some]
  exact ⟨hreachable, hcuts, fun x hx => ⟨c.handle, hinput, (hcursor c hc).2 x hx⟩, hnext,
    hlexemes _ (Or.inl hnext)⟩

end SceneTokens
