import SceneTokens.Proofs.Cuts
import SceneTokens.Proofs.Nesting
import SceneTokens.Proofs.Seams

/-!
# Scenes as rows of tiles

Draining a reader cuts its input into pieces from end to end. `Grammar.Tile` says of every kind of
piece what the grammar asks of it, at its place and in front of what follows, and `Grammar.Tiled`
lays such pieces one behind another. The grammar leaves no choice: every byte string has exactly one
row of tiles, and it is the row that is cut (`Reader.tiled_iff`).

So all that draining a reader returns and reports is read off the tiles of its input
(`Reader.drain_eq_tiles`). They lie within the content, each right behind the one before, and only
the last can be a construct that is not closed.
-/

namespace SceneTokens

open Grammar

/-! ## Tiles -/

namespace Grammar

/-- A byte that starts nothing: a control byte other than a blank, the delete byte, or a byte
outside ASCII. -/
def Unexpected (b : UInt8) : Prop :=
  Byte.isBlank b = false ∧ (b < 0x20 ∨ b = 0x7F ∨ 0x80 ≤ b)

theorem unexpected_iff (b : UInt8) :
    Unexpected b ↔ Byte.isBlank b = false ∧ Byte.isVisible b = false := by
  unfold Unexpected
  exact Byte.forall_of_lt (P := fun b =>
    (Byte.isBlank b = false ∧ (b < 0x20 ∨ b = 0x7F ∨ 0x80 ≤ b) ↔
      Byte.isBlank b = false ∧ Byte.isVisible b = false)) (by decide +kernel) b

/-- What a piece of each kind is that starts at `offset` and stands in front of `after`. -/
inductive Tile (nested : Bool) : Nat → Piece → Bytes → Prop
  | mark {after : Bytes} : Tile nested 0 ⟨.byteOrderMark, Piece.mark⟩ after
  | blank {offset : Nat} {b : UInt8} {after : Bytes} : Byte.isBlank b = true →
      Tile nested offset ⟨.blank, [b]⟩ after
  | lineComment {offset : Nat} {body after : Bytes} : Byte.newline ∉ body →
      (∀ c, after.head? = some c → c = Byte.newline) →
      Tile nested offset ⟨.lineComment, Byte.slash :: Byte.slash :: body⟩ after
  | blockComment {offset : Nat} {raw after : Bytes} : BlockComment nested raw →
      Tile nested offset ⟨.blockComment, raw⟩ after
  | unclosedComment {offset : Nat} {raw : Bytes} : [Byte.slash, Byte.star] <+: raw →
      (∀ q, BlockComment nested q → ¬q <+: raw) → ¬TooDeep nested raw →
      Tile nested offset ⟨.unclosedComment, raw⟩ []
  | deepComment {offset : Nat} {raw : Bytes} : TooDeep nested raw →
      Tile nested offset ⟨.deepComment, raw⟩ []
  | unclosedString {offset : Nat} {raw : Bytes} : raw.head? = some Byte.quote →
      (∀ q, Literal q → ¬q <+: raw) → Tile nested offset ⟨.unclosedString, raw⟩ []
  | rejected {offset : Nat} {b : UInt8} {after : Bytes} : Unexpected b →
      ¬(offset = 0 ∧ Piece.mark <+: b :: after) → Tile nested offset ⟨.rejected b, [b]⟩ after
  | lexeme {offset : Nat} {category : Category} {raw after : Bytes} :
      Spelled category raw after → Tile nested offset ⟨.lexeme category, raw⟩ after

/-- The bytes from `position` on as a row of tiles. -/
inductive Tiled (nested : Bool) : Position → Bytes → List Cut → Prop
  | nil {position : Position} : Tiled nested position [] []
  | cons {position : Position} {p : Piece} {after : Bytes} {xs : List Cut} :
      Tile nested position.offset p after → Tiled nested (position.advance p.raw) after xs →
      Tiled nested position (p.raw ++ after) (⟨position, p⟩ :: xs)

end Grammar

namespace Piece

/-! ## Tiles are what is cut -/

/-- A comment that is not closed and not too deep takes all that is left. -/
theorem blockComment_of_not_closed {nested : Bool} {rest : Bytes}
    (hnone : ∀ q, BlockComment nested q → ¬q <+: Byte.slash :: Byte.star :: rest)
    (hdeep : ¬TooDeep nested (Byte.slash :: Byte.star :: rest)) :
    blockComment nested (Byte.star :: rest) =
      ⟨.unclosedComment, Byte.slash :: Byte.star :: rest⟩ := by
  rw [← body_eq_tooDeep_iff] at hdeep
  unfold blockComment
  rw [List.tail_cons]
  cases hbody : Comment.body nested 0 rest with
  | closed w =>
    obtain ⟨hw, hpre⟩ := closes_of_body hbody
    exact absurd (by simpa using hpre) (hnone _ (.mk hw))
  | unclosed => rfl
  | tooDeep => exact absurd hbody hdeep

/-- So does a literal that is not closed. -/
theorem stringLiteral_of_not_closed {rest : Bytes}
    (hnone : ∀ q, Literal q → ¬q <+: Byte.quote :: rest) :
    stringLiteral rest = ⟨.unclosedString, Byte.quote :: rest⟩ := by
  unfold stringLiteral
  cases hbody : literal rest with
  | some body =>
    have hsole := literal_sole hbody
    exact absurd hsole.2.1 (hnone _ hsole.1)
  | none => rfl

/-- What the grammar has as a tile is what is cut there. -/
theorem cut_of_tile {nested : Bool} {offset : Nat} {p : Piece} {after : Bytes}
    (h : Tile nested offset p after) : ∃ b rest, p.raw ++ after = b :: rest ∧
      cut nested (offset == 0) b rest = p := by
  cases h with
  | mark => exact ⟨_, _, List.cons_append, cut_mark nested ⟨after, rfl⟩⟩
  | blank hb => exact ⟨_, after, rfl, cut_blank hb nested _ after⟩
  | lineComment hbody hstop =>
    exact ⟨_, _, List.cons_append, cut_lineComment hbody hstop nested _⟩
  | blockComment hraw =>
    obtain ⟨hw⟩ := hraw
    exact ⟨_, _, List.cons_append, cut_blockComment hw _ after⟩
  | unclosedComment hopen hnone hdeep =>
    obtain ⟨rest, rfl⟩ := hopen
    refine ⟨_, _, List.append_nil _, ?_⟩
    exact (cut_opening nested _ rest).trans (blockComment_of_not_closed hnone hdeep)
  | deepComment hdeep =>
    have hdeep' := hdeep
    obtain @⟨rest, hn, hrest⟩ := hdeep'
    refine ⟨_, _, List.append_nil _, ?_⟩
    rw [cut_opening, blockComment, List.tail_cons, (body_eq_tooDeep_iff nested rest).2 hdeep]
  | unclosedString hhead hnone =>
    obtain ⟨rest, rfl⟩ := List.head?_eq_some_iff.1 hhead
    refine ⟨_, _, List.append_nil _, ?_⟩
    rw [cut_quote, stringLiteral_of_not_closed hnone]
  | @rejected _ b _ hb hmark =>
    obtain ⟨hblank, hvisible⟩ := (unexpected_iff b).1 hb
    exact ⟨b, after, rfl, cut_rejected hblank hvisible nested (by simpa using hmark)⟩
  | lexeme hspelled =>
    obtain ⟨b, rest, hsplit, hcut⟩ := cut_of_spelled hspelled
    exact ⟨b, rest, hsplit, hcut nested _⟩

/-- What fits the grammar is a tile of some kind. -/
theorem exists_tile {nested : Bool} {offset : Nat} {p : Piece} {after : Bytes}
    (h : p.Fits nested offset after) (hmark : offset = 0 → mark <+: p.raw ++ after → p.raw = mark) :
    ∃ kind, Tile nested offset ⟨kind, p.raw⟩ after := by
  cases hl : p.lexeme? .standard .start with
  | some l => exact ⟨_, .lexeme (fits_of_lexeme? h hl).1⟩
  | none =>
    rcases fits_of_lexeme?_eq_none h hl with htrivia | ⟨rfl, hopen | ⟨hopen, hnone⟩⟩
    · generalize p.raw = raw at htrivia hmark
      cases htrivia with
      | mark => exact ⟨_, .mark⟩
      | blank hb => exact ⟨_, .blank hb⟩
      | lineComment hbody hstop => exact ⟨_, .lineComment hbody hstop⟩
      | blockComment hraw => exact ⟨_, .blockComment hraw⟩
      | @rejected _ b _ hblank hvisible =>
        refine ⟨_, .rejected ((unexpected_iff b).2 ⟨hblank, hvisible⟩) ?_⟩
        rintro ⟨hoffset, hpre⟩
        have hraw := hmark hoffset hpre
        simp [mark] at hraw
    · exact ⟨_, .unclosedString hopen ‹_›⟩
    · by_cases hdeep : TooDeep nested p.raw
      · exact ⟨_, .deepComment hdeep⟩
      · exact ⟨_, .unclosedComment hopen hnone hdeep⟩

/-- The piece that is cut is a tile. -/
theorem cut_tile (nested : Bool) (offset : Nat) (b : UInt8) (rest : Bytes) :
    ∃ after, (cut nested (offset == 0) b rest).raw ++ after = b :: rest ∧
      Tile nested offset (cut nested (offset == 0) b rest) after := by
  obtain ⟨after, hafter, hfits⟩ := cut_fits nested offset b rest
  obtain ⟨kind, htile⟩ := exists_tile hfits (by
    rintro rfl hpre
    rw [hafter] at hpre
    rw [beq_self_eq_true, cut_mark nested hpre])
  -- the same bytes are cut as a tile of that kind, so the kinds agree
  obtain ⟨b', rest', hsplit, hcut⟩ := cut_of_tile htile
  obtain ⟨rfl, rfl⟩ := List.cons.inj (hsplit.symm.trans hafter)
  rw [← hcut] at htile
  exact ⟨after, hafter, htile⟩

end Piece

namespace Reader

/-! ## The tiles of a byte string -/

/-- The pieces of `bytes`, which start at `position`. -/
def tilesFrom (nested : Bool) (position : Position) : Bytes → List Cut
  | [] => []
  | b :: rest =>
    let piece := Piece.cut nested (position.offset == 0) b rest
    ⟨position, piece⟩ ::
      tilesFrom nested (position.advance piece.raw) ((b :: rest).drop piece.raw.length)
termination_by bytes => bytes.length
decreasing_by
  have := List.length_pos_iff.2 (Piece.cut_raw_ne_nil nested (position.offset == 0) b rest)
  simp only [List.length_drop, List.length_cons]
  omega

/-- The pieces that are cut one after another tile the bytes. -/
theorem tiled_tilesFrom (nested : Bool) (position : Position) (bytes : Bytes) :
    Tiled nested position bytes (tilesFrom nested position bytes) := by
  fun_induction tilesFrom nested position bytes with
  | case1 => exact .nil
  | case2 position b rest piece ih =>
    obtain ⟨after, hafter, htile⟩ := Piece.cut_tile nested position.offset b rest
    have hdrop : (b :: rest).drop piece.raw.length = after := Piece.drop_cut hafter
    rw [hdrop] at ih ⊢
    rw [← hafter]
    exact .cons htile ih

/-- There is one row of tiles for every byte string. -/
theorem tiled_iff {nested : Bool} {position : Position} {bytes : Bytes} {xs : List Cut} :
    Tiled nested position bytes xs ↔ xs = tilesFrom nested position bytes := by
  constructor
  · intro h
    induction h with
    | nil => rw [tilesFrom]
    | @cons position p after xs htile hmore ih =>
      obtain ⟨b, rest, hsplit, hcut⟩ := Piece.cut_of_tile htile
      rw [ih, hsplit, tilesFrom, hcut, ← hsplit, List.drop_left]
  · rintro rfl
    exact tiled_tilesFrom nested position bytes

/-! ## Draining reads off the tiles -/

/-- The pieces of what a reader has still to read. -/
def tiles (r : Reader) : List Cut :=
  match r.cursor with
  | none => []
  | some c => tilesFrom r.settings.nested c.position c.rest

/-- The tiles are the pieces cut on the way to a lexeme, and then the tiles of what is left. -/
theorem tilesFrom_eq_cutsFrom (settings : Settings) (position : Position) (bytes : Bytes) :
    let xs := cutsFrom settings position bytes
    let front := xs.flatMap fun x => x.piece.raw
    tilesFrom settings.nested position bytes =
      xs ++ tilesFrom settings.nested (position.advance front) (bytes.drop front.length) := by
  fun_induction cutsFrom settings position bytes with
  | case1 position => simp [tilesFrom]
  | case2 position b rest piece lexeme hpiece =>
    rw [tilesFrom]
    simp [piece]
  | case3 position b rest piece hpiece ih =>
    rw [tilesFrom]
    dsimp only at ih ⊢
    rw [ih, List.drop_drop, List.flatMap_cons, Position.advance_append, List.length_append,
      List.cons_append]

/-- The tiles of a reader are those it cuts for the next lexeme and those it has left then. -/
theorem tiles_eq_cuts (r : Reader) : r.tiles = r.cuts ++ r.next.state.tiles := by
  cases hc : r.cursor with
  | none => simp [tiles, cuts, next, hc]
  | some c =>
    have hsplit := tilesFrom_eq_cutsFrom r.settings c.position c.rest
    simp only [tiles, cuts, next, hc, scan_eq_cuts]
    rw [hsplit]
    simp only [Cursor.rest, List.drop_drop, Position.advance_offset]

theorem cutsFrom_lexemes (settings : Settings) (position : Position) (bytes : Bytes) :
    let xs := cutsFrom settings position bytes
    (xs.filterMap fun x => x.piece.lexeme? settings.encoding x.position) =
      (xs.getLast?.bind fun x => x.piece.lexeme? settings.encoding x.position).toList := by
  fun_induction cutsFrom settings position bytes with
  | case1 => rfl
  | case2 position b rest piece lexeme hpiece => simp [hpiece]
  | case3 position b rest piece hpiece ih =>
    dsimp only at ih ⊢
    rw [List.filterMap_cons, hpiece]
    dsimp only
    rw [ih, List.getLast?_cons]
    cases (cutsFrom settings (position.advance piece.raw)
      ((b :: rest).drop piece.raw.length)).getLast? with
    | none => simp [hpiece]
    | some x => rfl

/-- The lexemes among the tiles that are cut for the next lexeme are that lexeme. -/
theorem cuts_lexemes (r : Reader) :
    (r.cuts.filterMap fun x => x.piece.lexeme? r.settings.encoding x.position) =
      r.next.value.toList := by
  cases hc : r.cursor with
  | none => simp [cuts, next, hc]
  | some c =>
    rw [next_eq_cuts hc]
    simp only [cuts, hc]
    exact cutsFrom_lexemes r.settings c.position c.rest

/-- What is reported on the way to a lexeme is what is reported of the pieces. -/
theorem cuts_events {r : Reader} {h : Handle} (hr : r.input? = some h) :
    (r.cuts.flatMap fun x => x.piece.events r.settings.encoding h.name x.position) =
      r.next.events := by
  obtain ⟨c, hc, rfl⟩ := Option.map_eq_some_iff.1 hr
  simp only [cuts, next, hc, scan_eq_cuts]

theorem next_settings (r : Reader) : r.next.state.settings = r.settings := by
  unfold next
  split <;> rfl

/-- At the end nothing is left to cut. -/
theorem tiles_of_next {r : Reader} (h : r.next.value = none) : r.next.state.tiles = [] := by
  cases hc : r.cursor with
  | none => simp [tiles, next, hc]
  | some c =>
    obtain ⟨-, hstate⟩ := next_remainder hc h
    have hrest : (Cursor.mk c.handle (c.position.advance c.rest)).rest = [] :=
      Cursor.rest_advance (List.append_nil _).symm
    rw [hstate]
    simp [tiles, hrest, tilesFrom]

/-- What draining a reader returns and reports is read off the tiles of its input. -/
theorem drain_eq_tiles {r : Reader} {h : Handle} (hr : r.input? = some h) :
    (Scanner.drain r).value =
        r.tiles.filterMap (fun x => x.piece.lexeme? r.settings.encoding x.position) ∧
      (Scanner.drain r).events =
        r.tiles.flatMap (fun x => x.piece.events r.settings.encoding h.name x.position) := by
  fun_induction Scanner.drain r with
  | case1 r step hnone =>
    have hnone' : r.next.value = none := hnone
    rw [tiles_eq_cuts, tiles_of_next hnone, List.append_nil, cuts_lexemes, cuts_events hr, hnone']
    exact ⟨rfl, rfl⟩
  | case2 r step lexeme hsome more ih =>
    have hsome' : r.next.value = some lexeme := hsome
    obtain ⟨hvalue, hevents⟩ := ih (r.next_input?.trans hr)
    rw [tiles_eq_cuts, List.filterMap_append, List.flatMap_append, cuts_lexemes, cuts_events hr,
      hsome']
    have hsettings : step.state.settings = r.settings := r.next_settings
    rw [hsettings] at hvalue hevents
    exact ⟨congrArg (lexeme :: ·) hvalue, congrArg (step.events ++ ·) hevents⟩

end Reader

/-! ## Where tiles lie -/

/-- The offset right behind a piece. -/
def Cut.stop (x : Cut) : Nat :=
  x.position.offset + x.piece.raw.length

/-- A piece has the byte at offset `i`. -/
def Cut.Covers (x : Cut) (i : Nat) : Prop :=
  x.position.offset ≤ i ∧ i < x.stop

namespace Grammar

variable {nested : Bool} {position : Position} {content bytes : Bytes} {xs : List Cut}

/-- Every piece of a row is a tile at its place in the content. -/
theorem Tiled.exists_tile (h : Tiled nested position bytes xs)
    (hbytes : content.drop position.offset = bytes) : ∀ x ∈ xs, ∃ after,
      content.drop x.position.offset = x.piece.raw ++ after ∧
        Tile nested x.position.offset x.piece after := by
  induction h with
  | nil => exact nofun
  | @cons position p after xs htile _ ih =>
    intro x hx
    rcases List.mem_cons.1 hx with rfl | hx
    · exact ⟨after, hbytes, htile⟩
    · refine ih ?_ x hx
      rw [Position.advance_offset, ← List.drop_drop, hbytes, List.drop_left]

/-- The tiles of what is left of a content lie within it. -/
theorem Tiled.within (h : Tiled nested position bytes xs) (hp : position.In content)
    (hbytes : content.drop position.offset = bytes) : ∀ x ∈ xs, x.Within content := by
  induction h with
  | nil => exact nofun
  | @cons position p after xs htile _ ih =>
    intro x hx
    obtain ⟨b, rest, hsplit, hcut⟩ := Piece.cut_of_tile htile
    have hfirst : Cut.Within content ⟨position, p⟩ := by
      rw [← hcut]
      exact Reader.cut_within hp (hbytes.trans hsplit)
    rcases List.mem_cons.1 hx with rfl | hx
    · exact hfirst
    · refine ih (hp.advance hbytes) ?_ x hx
      rw [Position.advance_offset, ← List.drop_drop, hbytes, List.drop_left]

theorem Tiled.le_offset (h : Tiled nested position bytes xs) :
    ∀ x ∈ xs, position.offset ≤ x.position.offset := by
  induction h with
  | nil => exact nofun
  | @cons position p after xs _ _ ih =>
    intro x hx
    rcases List.mem_cons.1 hx with rfl | hx
    · exact Nat.le_refl _
    · have hle := ih x hx
      rw [Position.advance_offset] at hle
      exact Nat.le_of_add_right_le hle

/-- No piece starts before the end of one that comes earlier. -/
theorem Tiled.pairwise (h : Tiled nested position bytes xs) :
    xs.Pairwise fun x y => x.stop ≤ y.position.offset := by
  induction h with
  | nil => exact .nil
  | @cons position p after xs _ hmore ih =>
    refine .cons (fun y hy => ?_) ih
    have hle := hmore.le_offset y hy
    rwa [Position.advance_offset] at hle

/-- Every byte lies in a piece. -/
theorem Tiled.exists_covers (h : Tiled nested position bytes xs) {i : Nat}
    (hge : position.offset ≤ i) (hlt : i < position.offset + bytes.length) :
    ∃ x ∈ xs, x.Covers i := by
  induction h with
  | nil =>
    rw [List.length_nil] at hlt
    omega
  | @cons position p after xs _ _ ih =>
    by_cases hi : i < position.offset + p.raw.length
    · exact ⟨_, List.mem_cons_self, hge, hi⟩
    · rw [List.length_append] at hlt
      obtain ⟨x, hx, hcovers⟩ := ih (by rw [Position.advance_offset]; omega)
        (by rw [Position.advance_offset]; omega)
      exact ⟨x, List.mem_cons_of_mem _ hx, hcovers⟩

/-- And in one piece only. -/
theorem Tiled.eq_of_covers (h : Tiled nested position bytes xs) {x y : Cut} (hx : x ∈ xs)
    (hy : y ∈ xs) {i : Nat} (hxi : x.Covers i) (hyi : y.Covers i) : x = y := by
  have hapart {x y : Cut} (hle : x.stop ≤ y.position.offset) (hxi : x.Covers i) :
      ¬y.Covers i := by
    intro hyi
    exact absurd (hxi.2.trans_le hle) (Nat.not_lt.2 hyi.1)
  exact List.Pairwise.forall_of_forall_of_flip
    (R := fun x y : Cut => x.Covers i → y.Covers i → x = y) (fun _ _ _ _ => rfl)
    (h.pairwise.imp fun hle hxi hyi => absurd hyi (hapart hle hxi))
    (h.pairwise.imp fun hle hyi hxi => absurd hyi (hapart hle hxi)) hx hy hxi hyi

end Grammar

/-- Whether a piece is a construct that is not closed or nests too deep. -/
def PieceKind.isOpen : PieceKind → Bool
  | .unclosedComment | .deepComment | .unclosedString => true
  | _ => false

namespace Grammar

variable {nested : Bool} {position : Position} {bytes : Bytes} {xs : List Cut}

/-- What is not closed takes all that is left. -/
theorem Tile.eq_nil {offset : Nat} {p : Piece} {after : Bytes} (h : Tile nested offset p after)
    (hopen : p.kind.isOpen = true) : after = [] := by
  cases h with
  | unclosedComment | deepComment | unclosedString => rfl
  | _ => cases hopen

/-- Nothing comes behind a piece that is not closed. -/
theorem Tiled.getLast?_of_isOpen (h : Tiled nested position bytes xs) {x : Cut} (hx : x ∈ xs)
    (hopen : x.piece.kind.isOpen = true) : xs.getLast? = some x := by
  induction h with
  | nil => cases hx
  | @cons position p after xs htile hmore ih =>
    rcases List.mem_cons.1 hx with rfl | hx
    · obtain rfl := htile.eq_nil hopen
      rw [Reader.tiled_iff.1 hmore, Reader.tilesFrom, List.getLast?_singleton]
    · rw [List.getLast?_cons, ih hx, Option.getD_some]

end Grammar

end SceneTokens
