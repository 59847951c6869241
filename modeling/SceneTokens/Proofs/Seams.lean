import Mathlib.Data.List.Basic
import SceneTokens.Proofs.Delimited
import SceneTokens.Proofs.EscapeFaults

/-!
# Reading over a seam

A scene that ends with a newline, and leaves nothing open, can be followed by another one. No
lexeme and no piece of trivia of the first is cut differently because of what follows
(`Reader.scan_append`): each of them ends before the last newline, or is that newline.

What follows the seam is read as if it stood alone, only at other positions
(`Reader.scan_behind`). The two differ in one point, which is no lexeme: a byte order mark counts
only at the start of a source, and behind the seam it is three bytes that start nothing.
-/

namespace SceneTokens

open Grammar

/-! ## Positions behind a text -/

namespace Position

/-- The position in a text that begins with `front`, of what has position `p` behind it, if `front`
ends its last line. -/
def behind (front : Bytes) (p : Position) : Position :=
  ⟨p.offset + front.length, p.line + front.count Byte.newline, p.column⟩

theorem step_behind (front : Bytes) (p : Position) (b : UInt8) :
    (p.behind front).step b = (p.step b).behind front := by
  unfold step behind
  split
  · simp only [mk.injEq, and_true]
    omega
  · simp only [mk.injEq, and_true]
    omega

/-- Behind `front`, a walk moves a position as it does without it. -/
theorem advance_behind (front : Bytes) (p : Position) (bytes : Bytes) :
    (p.behind front).advance bytes = (p.advance bytes).behind front := by
  induction bytes generalizing p with
  | nil => rfl
  | cons b bytes ih => rw [advance_cons, advance_cons, step_behind, ih]

theorem advance_line (p : Position) (bytes : Bytes) :
    (p.advance bytes).line = p.line + bytes.count Byte.newline := by
  induction bytes generalizing p with
  | nil => rfl
  | cons b bytes ih =>
    rw [advance_cons, ih, List.count_cons, step]
    split
    · simp_all only [beq_self_eq_true, if_true]
      omega
    · simp_all

/-- Behind a text that ends with a newline a new line starts. -/
theorem start_behind {front : Bytes} (h : front.getLast? = some Byte.newline) :
    start.advance front = start.behind front := by
  obtain ⟨lines, rfl⟩ := List.getLast?_eq_some_iff.1 h
  rw [advance_append, advance_cons, advance_nil, step, if_pos rfl, advance_line, advance_offset]
  simp only [behind, mk.injEq, and_true, start, List.length_append, List.length_singleton,
    List.count_append, List.count_singleton_self]
  omega

end Position

/-! ## Texts that end with a newline -/

namespace Grammar

/-- Bytes of which the last, if there is one, is a newline. -/
def Ended (bytes : Bytes) : Prop :=
  ∀ b, bytes.getLast? = some b → b = Byte.newline

theorem Ended.of_append {raw after : Bytes} (h : Ended (raw ++ after)) : Ended after := by
  intro b hb
  exact h b (by rw [List.getLast?_append, hb, Option.some_or])

theorem Ended.of_getLast? {bytes : Bytes} (h : bytes.getLast? = some Byte.newline) :
    Ended bytes := by
  intro b hb
  exact Option.some.inj (hb.symm.trans h)

theorem Ended.drop {bytes : Bytes} (h : Ended bytes) (n : Nat) : Ended (bytes.drop n) := by
  rw [← List.take_append_drop n bytes] at h
  exact h.of_append

theorem Ended.newline_mem {bytes : Bytes} (h : Ended bytes) (hne : bytes ≠ []) :
    Byte.newline ∈ bytes := by
  obtain ⟨lines, b, rfl⟩ := (List.eq_nil_or_concat' bytes).resolve_left hne
  rw [h b (by simp)]
  simp

theorem Word.visible {w : Bytes} (h : Word w) : Visible w := by
  obtain ⟨hb, hrest⟩ := h
  refine Visible.cons (Byte.isVisible_of_isWordByte ?_) fun c hc =>
    Byte.isVisible_of_isWordByte (hrest c hc)
  grind [Byte.isWordStart, Byte.isWordByte]

theorem Sign.visible {raw after : Bytes} (h : Sign raw after) : Visible raw := by
  rcases h with hb | ⟨hb, -⟩
  · have hpunctuation := (Piece.punctuation_of_mem_comparisons hb).1
    exact Visible.cons hpunctuation.visible (Visible.cons (by decide) nofun)
  · exact Visible.cons hb.visible nofun

theorem Visible.exists_concat {q : Bytes} (h : Visible q) (hne : q ≠ []) :
    ∃ front c, q = front ++ [c] ∧ Byte.isVisible c = true := by
  obtain ⟨front, c, rfl⟩ := (List.eq_nil_or_concat' q).resolve_left hne
  exact ⟨front, c, rfl, h c (by simp)⟩

/-- A lexeme ends with a visible byte. -/
theorem Spelled.exists_concat {category : Category} {raw after : Bytes}
    (h : Spelled category raw after) : ∃ front c, raw = front ++ [c] ∧ Byte.isVisible c = true := by
  have hne := h.ne_nil
  cases category with
  | word => exact h.1.visible.exists_concat hne
  | number => exact h.1.visible.exists_concat hne
  | string =>
    obtain ⟨hp⟩ := h.1
    exact ⟨_, _, List.cons_append.symm, by decide⟩
  | symbol => exact Sign.visible h |>.exists_concat hne

/-- So what follows a text that ends with a newline does not change its lexemes. -/
theorem Spelled.append {category : Category} {raw after : Bytes}
    (h : Spelled category raw after) (hend : Ended (raw ++ after)) (more : Bytes) :
    Spelled category raw (after ++ more) := by
  obtain ⟨front, c, rfl, hc⟩ := h.exists_concat
  have hvisible : Byte.isVisible Byte.newline = false := by decide
  have hne : Byte.newline ≠ c := by
    rintro rfl
    simp [hvisible] at hc
  rw [List.append_assoc] at hend
  have hmem := hend.of_append.newline_mem (by simp)
  exact h.of_showsNoMore (.append hvisible ((List.mem_cons.1 hmem).resolve_left hne) more)

/-- Nor does it change what stands between them. -/
theorem Trivia.append {nested : Bool} {offset : Nat} {raw after : Bytes}
    (h : Trivia nested offset raw after) (hend : Ended (raw ++ after)) (more : Bytes) :
    Trivia nested offset raw (after ++ more) := by
  cases h with
  | mark => exact .mark
  | blank hb => exact .blank hb
  | @lineComment _ body _ hbody hstop =>
    refine .lineComment hbody fun c hc => ?_
    cases after with
    | nil =>
      have hslash : Byte.newline ≠ Byte.slash := by decide
      have hmem := hend.newline_mem (by simp)
      simp [hslash, hbody] at hmem
    | cons d after => exact hstop c hc
  | blockComment hraw => exact .blockComment hraw
  | rejected hblank hvisible => exact .rejected hblank hvisible

end Grammar

/-! ## Cutting trivia -/

namespace Piece

theorem cut_mark (nested : Bool) {b : UInt8} {rest : Bytes} (h : mark <+: b :: rest) :
    cut nested true b rest = ⟨.byteOrderMark, mark⟩ := by
  rw [cut, if_pos]
  simpa using h

/-- The start of a source is a place like any other if no mark stands there. -/
theorem cut_of_unmarked {nested atStart : Bool} {b : UInt8} {rest : Bytes}
    (h : ¬(atStart = true ∧ mark <+: b :: rest)) :
    cut nested atStart b rest = cut nested false b rest := by
  simp [cut, h]

theorem cut_rejected {b : UInt8} (hblank : Byte.isBlank b = false)
    (hvisible : Byte.isVisible b = false) (nested : Bool) {atStart : Bool} {rest : Bytes}
    (hmark : ¬(atStart = true ∧ mark <+: b :: rest)) :
    cut nested atStart b rest = ⟨.rejected b, [b]⟩ := by
  have hslash : b ≠ Byte.slash := by grind [Byte.isVisible, Byte.slash]
  have hquote : b ≠ Byte.quote := by grind [Byte.isVisible, Byte.quote]
  have hword : ¬Byte.isWordStart b = true := by
    grind [Byte.isVisible, Byte.isWordStart, Byte.isLetter, Byte.underscore]
  have hnumber : ¬startsNumber b rest = true := by
    intro h
    have := (startsNumber_iff.1 h).imp_right And.left
    grind [Byte.isVisible, Byte.isDigit, Byte.point]
  have hrelation : b ∉ comparisons := by
    intro h
    simp [(punctuation_of_mem_comparisons h).1.visible] at hvisible
  simp [cut, hmark, hblank, hslash, hquote, hword, hnumber, hvisible, opensRelation_iff, hrelation]

/-- A line comment is cut off up to the newline, which it leaves. -/
theorem cut_lineComment {body after : Bytes} (hbody : Byte.newline ∉ body)
    (hstop : ∀ c, after.head? = some c → c = Byte.newline) (nested atStart : Bool) :
    cut nested atStart Byte.slash (Byte.slash :: (body ++ after)) =
      ⟨.lineComment, Byte.slash :: Byte.slash :: body⟩ := by
  have hrun : ∀ b ∈ Byte.slash :: body, (b != Byte.newline) = true := by
    intro b hb
    rcases List.mem_cons.1 hb with rfl | hb
    · decide
    · exact bne_iff_ne.2 fun heq => hbody (heq ▸ hb)
  have htail : after.takeWhile (· != Byte.newline) = [] := by
    cases after with
    | nil => rfl
    | cons c after => simp [hstop c rfl]
  rw [cut, if_neg (not_mark (by decide) _ _), if_neg (by decide), if_pos ⟨rfl, rfl⟩,
    ← List.cons_append, List.takeWhile_append_of_pos hrun, htail, List.append_nil]

/-- A block comment is cut off up to its closing sign, whatever follows. -/
theorem cut_blockComment {nested : Bool} {w : Bytes}
    (hw : CommentBody nested (Comment.maxDepth - 1) w) (atStart : Bool) (after : Bytes) :
    cut nested atStart Byte.slash (Byte.star :: (w ++ after)) =
      ⟨.blockComment, Byte.slash :: Byte.star :: w⟩ := by
  have hbody : Comment.body nested 0 (w ++ after) = .closed w := body_append hw 0 after rfl
  rw [cut_opening, blockComment, List.tail_cons, hbody]

/-- What the grammar has as trivia is cut off whole, and is no lexeme. -/
theorem cut_of_trivia {nested : Bool} {offset : Nat} {raw after : Bytes}
    (h : Trivia nested offset raw after)
    (hmark : offset = 0 → mark <+: raw ++ after → raw = mark) :
    ∃ b rest kind, raw ++ after = b :: rest ∧ cut nested (offset == 0) b rest = ⟨kind, raw⟩ ∧
      ∀ category, kind ≠ .lexeme category := by
  cases h with
  | mark => exact ⟨_, _, .byteOrderMark, List.cons_append, cut_mark nested ⟨after, rfl⟩, nofun⟩
  | blank hb => exact ⟨_, after, .blank, rfl, cut_blank hb nested _ after, nofun⟩
  | lineComment hbody hstop =>
    exact ⟨_, _, .lineComment, List.cons_append, cut_lineComment hbody hstop nested _, nofun⟩
  | blockComment hraw =>
    obtain ⟨hw⟩ := hraw
    exact ⟨_, _, .blockComment, List.cons_append, cut_blockComment hw _ after, nofun⟩
  | @rejected _ b _ hblank hvisible =>
    refine ⟨b, after, .rejected b, rfl, cut_rejected hblank hvisible nested ?_, nofun⟩
    rintro ⟨hoffset, hpre⟩
    have hraw := hmark (by simpa using hoffset) hpre
    simp [mark] at hraw

theorem lexeme?_of_ne {p : Piece} (h : ∀ category, p.kind ≠ .lexeme category)
    (encoding : Encoding) (position : Position) : p.lexeme? encoding position = none := by
  unfold lexeme?
  split
  · exact absurd ‹_› (h _)
  · rfl

/-- A lexeme determines the kind of the piece that it comes from. -/
theorem eq_of_lexeme? {p : Piece} {encoding : Encoding} {position : Position} {l : Lexeme}
    (h : p.lexeme? encoding position = some l) :
    p = ⟨.lexeme l.category, p.raw⟩ ∧ l = ⟨l.category, p.text encoding, position⟩ := by
  obtain ⟨kind, raw⟩ := p
  cases kind <;> simp only [lexeme?, Option.some.injEq, reduceCtorEq] at h
  subst h
  exact ⟨rfl, rfl⟩

/-- A mark that is found in a longer text is not completed by what follows a newline. -/
theorem mark_isPrefix {bytes more : Bytes} (hmem : Byte.newline ∈ bytes)
    (h : mark <+: bytes ++ more) : mark <+: bytes := by
  obtain ⟨front, back, rfl⟩ := List.append_of_mem hmem
  rw [List.append_assoc, List.cons_append] at h
  exact (isPrefix_of_not_mem h (by decide)).trans (List.prefix_append _ _)

/-- A piece that is no lexeme, and of which nothing is reported as unclosed, is trivia. -/
theorem Fits.trivia {nested : Bool} {p : Piece} {after : Bytes} {encoding : Encoding}
    {source : String} {position : Position} (h : p.Fits nested position.offset after)
    (hlexeme : p.lexeme? encoding position = none)
    (hclosed : ∀ e ∈ p.events encoding source position, e.isUnclosed = false) :
    Trivia nested position.offset p.raw after := by
  obtain ⟨kind, raw⟩ := p
  cases kind <;> simp only [lexeme?, reduceCtorEq] at hlexeme
  case unclosedComment | deepComment | unclosedString => simp [events, Event.isUnclosed] at hclosed
  all_goals exact h

end Piece

/-! ## Reading on -/

/-- The lexeme at another position. -/
def Lexeme.moved (f : Position → Position) (l : Lexeme) : Lexeme :=
  { l with position := f l.position }

theorem Piece.lexeme?_moved (p : Piece) (f : Position → Position) (encoding : Encoding)
    (position : Position) :
    p.lexeme? encoding (f position) = (p.lexeme? encoding position).map (Lexeme.moved f) := by
  unfold lexeme?
  split <;> rfl

/-- What a step answers and where it leads, whatever is reported on the way. -/
def Step.outcome {σ α : Type} (s : Step σ α) : α × σ :=
  (s.value, s.state)

namespace Reader

/-- What may stand between lexemes is passed over as one piece. At the start of a source, a byte
order mark is cut off before all else. -/
theorem scan_trivia {settings : Settings} {position : Position} {raw after : Bytes}
    (h : Trivia settings.nested position.offset raw after)
    (hmark : position.offset = 0 → Piece.mark <+: raw ++ after → raw = Piece.mark)
    (source : String) :
    (scan settings source position (raw ++ after)).outcome =
      (scan settings source (position.advance raw) after).outcome := by
  obtain ⟨b, rest, kind, hbytes, hcut, hkind⟩ := Piece.cut_of_trivia h hmark
  have hlexeme := Piece.lexeme?_of_ne (p := ⟨kind, raw⟩) hkind settings.encoding position
  rw [hbytes, scan, hcut]
  dsimp only
  rw [hlexeme, ← hbytes, List.drop_left]
  rfl

/-- What follows a text that ends with a newline and leaves nothing open does not change how it is
read: the lexeme found is the same, or there is none and reading goes on behind the text. -/
theorem scan_append {settings : Settings} {source : String} {position : Position} {bytes : Bytes}
    (hend : Ended bytes)
    (hclosed : ∀ e ∈ (scan settings source position bytes).events, e.isUnclosed = false)
    (source' : String) (more : Bytes) :
    (scan settings source' position (bytes ++ more)).outcome =
      if (scan settings source position bytes).value.isSome
      then (scan settings source position bytes).outcome
      else (scan settings source' (position.advance bytes) more).outcome := by
  fun_induction scan settings source position bytes with
  | case1 position => rfl
  | case2 position b rest piece events stop lexeme hpiece =>
    obtain ⟨after, hafter, hfits⟩ := Piece.cut_fits settings.nested position.offset b rest
    obtain ⟨hspelled, -, -⟩ := Piece.fits_of_lexeme? hfits hpiece
    obtain ⟨hkind, hlexeme⟩ := Piece.eq_of_lexeme? hpiece
    have hspelled' := hspelled.append (hafter ▸ hend) more
    rw [← hafter, List.append_assoc, scan_spelled hspelled', ← hkind]
    exact congrArg (fun l => (some l, stop)) hlexeme.symm
  | case3 position b rest piece events stop hpiece more' ih =>
    obtain ⟨after, hafter, hfits⟩ := Piece.cut_fits settings.nested position.offset b rest
    have hdrop : (b :: rest).drop piece.raw.length = after := Piece.drop_cut hafter
    have htrivia : Trivia settings.nested position.offset piece.raw after :=
      hfits.trivia hpiece fun e he => hclosed e (List.mem_append_left _ he)
    have hend' : Ended (piece.raw ++ after) := hafter ▸ hend
    have hmark : position.offset = 0 → Piece.mark <+: piece.raw ++ (after ++ more) →
        piece.raw = Piece.mark := by
      intro hoffset hpre
      rw [← List.append_assoc, hafter] at hpre
      have hcut := Piece.cut_mark settings.nested
        (Piece.mark_isPrefix (hend.newline_mem (by simp)) hpre)
      simp only [piece, hoffset, beq_self_eq_true, hcut]
    have hscan : more' = scan settings source stop after := by simp only [more', hdrop]
    have hmore := ih (hdrop ▸ hend'.of_append) fun e he => hclosed e (List.mem_append_right _ he)
    rw [hdrop, ← hscan] at hmore
    rw [← hafter, List.append_assoc, scan_trivia (htrivia.append hend' more) hmark source', hmore,
      Position.advance_append]
    rfl

/-! ## Reading behind the seam -/

/-- Bytes that start nothing are passed over. Only at the start of a source they may be a mark. -/
theorem scan_rejected {run : Bytes}
    (hrun : ∀ b ∈ run, Byte.isBlank b = false ∧ Byte.isVisible b = false) (settings : Settings)
    (source : String) {position : Position} (hposition : position.offset ≠ 0) (bytes : Bytes) :
    (scan settings source position (run ++ bytes)).outcome =
      (scan settings source (position.advance run) bytes).outcome := by
  induction run generalizing position with
  | nil => rfl
  | cons b run ih =>
    obtain ⟨hblank, hvisible⟩ := hrun b (by simp)
    have hb : Trivia settings.nested position.offset [b] (run ++ bytes) :=
      .rejected hblank hvisible
    have hfirst := scan_trivia hb (fun h => absurd h hposition) source
    have hstep : (position.step b).offset ≠ 0 := by simp
    exact hfirst.trans (ih (fun c hc => hrun c (List.mem_cons_of_mem b hc)) hstep)

/-- Behind a text that is not empty, bytes are read as at the start of a source, only at other
positions. -/
theorem scan_behind {front : Bytes} (hfront : front ≠ []) (settings : Settings)
    (source source' : String) (position : Position) (bytes : Bytes) :
    (scan settings source' (position.behind front) bytes).outcome =
      ((scan settings source position bytes).value.map (Lexeme.moved (.behind front)),
        (scan settings source position bytes).state.behind front) := by
  have hlength := List.length_pos_iff.2 hfront
  have hoffset (p : Position) : (p.behind front).offset ≠ 0 := by
    simp only [Position.behind]
    omega
  fun_induction scan settings source position bytes with
  | case1 position =>
    rw [scan]
    rfl
  | case2 position b rest piece events stop lexeme hpiece =>
    have hunmarked : ¬((position.offset == 0) = true ∧ Piece.mark <+: b :: rest) := by
      rintro ⟨hstart, hmark⟩
      simp [piece, hstart, Piece.cut_mark settings.nested hmark, Piece.lexeme?] at hpiece
    rw [scan, beq_false_of_ne (hoffset position), ← Piece.cut_of_unmarked hunmarked]
    dsimp only
    rw [Piece.lexeme?_moved, hpiece, Position.advance_behind]
    rfl
  | case3 position b rest piece events stop hpiece more ih =>
    by_cases hmarked : (position.offset == 0) = true ∧ Piece.mark <+: b :: rest
    · obtain ⟨hstart, after, hafter⟩ := hmarked
      have hraw : piece.raw = Piece.mark := by
        simp only [piece, hstart, Piece.cut_mark settings.nested ⟨after, hafter⟩]
      have hdrop : (b :: rest).drop piece.raw.length = after := by
        rw [hraw, ← hafter]
        exact List.drop_left
      have hstop : stop = position.advance Piece.mark := by simp only [stop, hraw]
      have hmark : ∀ b ∈ Piece.mark, Byte.isBlank b = false ∧ Byte.isVisible b = false := by
        simp [Piece.mark, Byte.isBlank, Byte.isVisible]
      rw [← hafter, scan_rejected hmark settings source' (hoffset position) after,
        Position.advance_behind, ← hstop, ← hdrop]
      exact ih
    · rw [scan, beq_false_of_ne (hoffset position), ← Piece.cut_of_unmarked hmarked]
      dsimp only
      rw [Piece.lexeme?_moved, hpiece, Position.advance_behind]
      exact ih

end Reader

end SceneTokens
