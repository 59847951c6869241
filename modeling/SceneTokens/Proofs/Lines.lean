import Mathlib.Data.List.Induction
import Mathlib.Data.Prod.Lex
import SceneTokens.Proofs.EscapeFaults
import SceneTokens.Proofs.Seams

/-!
# Lines and positions

A position counts lines and columns byte by byte, and a source tells its lines by cutting its
content at the newlines. Walking over the front of a content leaves some lines complete and one
open, and the position says how many and how long (`Source.exists_lines`). So the byte that follows
is found again from the line and the column, unless it belongs to the line break
(`Source.shows_of_in`), and a byte that comes later has a later line and column
(`Position.lineColumn_lt_advance`).

What a reader reports is at places of its input, and starts there with a byte of its own. So an
author who looks at the line and the column of a lexeme or of a malformed escape finds the lexeme
or the backslash there (`Session.lines_show_positions`).
-/

namespace SceneTokens

open Grammar

namespace Position

/-! ## The order of lines and columns -/

/-- Line and column, ordered by line first. -/
def lineColumn (p : Position) : ℕ ×ₗ ℕ :=
  toLex (p.line, p.column)

/-- One byte further is further on in the text, in the next line or in the next column. -/
theorem lineColumn_lt_step (p : Position) (b : UInt8) : p.lineColumn < (p.step b).lineColumn := by
  unfold step
  split
  · exact Prod.Lex.toLex_lt_toLex.2 (Or.inl (Nat.lt_succ_self _))
  · exact Prod.Lex.toLex_lt_toLex.2 (Or.inr ⟨rfl, Nat.lt_succ_self _⟩)

theorem lineColumn_le_advance (p : Position) (bytes : Bytes) :
    p.lineColumn ≤ (p.advance bytes).lineColumn := by
  induction bytes generalizing p with
  | nil => exact le_refl _
  | cons b bytes ih => exact (p.lineColumn_lt_step b).le.trans (ih _)

theorem lineColumn_lt_advance (p : Position) {bytes : Bytes} (h : bytes ≠ []) :
    p.lineColumn < (p.advance bytes).lineColumn := by
  obtain ⟨b, rest, rfl⟩ := List.exists_cons_of_ne_nil h
  exact (p.lineColumn_lt_step b).trans_le (lineColumn_le_advance _ rest)

end Position

namespace Source

/-! ## Lines of a content -/

theorem exists_lines_eq_cons (content : Bytes) : ∃ line more, lines content = line :: more := by
  cases content with
  | nil => exact ⟨_, _, rfl⟩
  | cons b rest =>
    rw [lines]
    repeat' split
    all_goals exact ⟨_, _, rfl⟩

theorem lines_newline (rest : Bytes) : lines (Byte.newline :: rest) = [] :: lines rest := by
  rw [lines, if_pos rfl]

theorem lines_cons {b : UInt8} (hb : b ≠ Byte.newline) {rest line : Bytes} {more : List Bytes}
    (h : lines rest = line :: more) : lines (b :: rest) = (b :: line) :: more := by
  rw [lines, if_neg hb, h]

/-- There is one line more than there are newlines. -/
theorem length_lines (content : Bytes) :
    (lines content).length = content.count Byte.newline + 1 := by
  induction content with
  | nil => rfl
  | cons b rest ih =>
    by_cases hb : b = Byte.newline
    · subst hb
      rw [lines_newline, List.length_cons, ih, List.count_cons_self]
    · obtain ⟨line, more, hlines⟩ := exists_lines_eq_cons rest
      rw [lines_cons hb hlines, List.count_cons_of_ne hb, ← ih, hlines]
      rfl

/-- Walking over `front` completes the lines `whole` and leaves `last` open, which the first line of
what follows goes on with. -/
theorem exists_lines (front : Bytes) : ∃ whole last,
    (∀ back line more, lines back = line :: more →
      lines (front ++ back) = whole ++ (last ++ line) :: more) ∧
    Position.start.advance front = ⟨front.length, whole.length + 1, last.length + 1⟩ := by
  induction front using List.reverseRecOn with
  | nil => exact ⟨[], [], fun _ _ _ h => h, rfl⟩
  | append_singleton front b ih =>
    obtain ⟨whole, last, hlines, hplace⟩ := ih
    have hstep : Position.start.advance (front ++ [b]) =
        Position.step ⟨front.length, whole.length + 1, last.length + 1⟩ b := by
      rw [Position.advance_append, hplace]
      rfl
    by_cases hb : b = Byte.newline
    · subst hb
      refine ⟨whole ++ [last], [], fun back line more hback => ?_, ?_⟩
      · have hall := hlines (Byte.newline :: back) [] (line :: more) (by rw [lines_newline, hback])
        simpa using hall
      · rw [hstep, Position.step, if_pos rfl]
        simp
    · refine ⟨whole, last ++ [b], fun back line more hback => ?_, ?_⟩
      · have hall := hlines (b :: back) (b :: line) more (lines_cons hb hback)
        simpa using hall
      · rw [hstep, Position.step, if_neg hb]
        simp

/-! ## The line of a place -/

/-- The place that walking over the first `offset` bytes leads to. -/
def place (s : Source) (offset : Nat) : Position :=
  Position.start.advance (s.content.take offset)

/-- The line and the column of `p` lead to the byte `b`. -/
def Shows (s : Source) (p : Position) (b : UInt8) : Prop :=
  ∃ bytes i, s.line? p.line = some bytes ∧ p.column = i + 1 ∧ bytes[i]? = some b

/-- The lines are numbered from 1 without a gap. -/
theorem line?_isSome_iff (s : Source) (n : Nat) :
    (s.line? n).isSome = true ↔ 1 ≤ n ∧ n ≤ 1 + s.content.count Byte.newline := by
  cases n with
  | zero => simp [line?]
  | succ n =>
    rw [line?, Option.isSome_map, Option.isSome_iff_ne_none, ne_eq, List.getElem?_eq_none_iff,
      length_lines]
    omega

/-- Taking the carriage return off a line takes no byte that anything but the return follows. -/
theorem getElem?_withoutReturn {front back : Bytes} {b : UInt8}
    (h : back = [] → b ≠ Byte.carriageReturn) :
    (withoutReturn (front ++ b :: back))[front.length]? = some b := by
  unfold withoutReturn
  split
  · rename_i hlast
    have hback : back ≠ [] := by
      rintro rfl
      rw [List.getLast?_append, List.getLast?_singleton] at hlast
      exact h rfl (Option.some.inj hlast)
    rw [List.dropLast_append_of_ne_nil (by simp), List.dropLast_cons_of_ne_nil hback]
    simp
  · simp

theorem line_eq_nil {rest : Bytes} {more : List Bytes} (h : lines rest = [] :: more) :
    rest = [] ∨ rest.head? = some Byte.newline := by
  cases rest with
  | nil => exact Or.inl rfl
  | cons b rest =>
    by_cases hb : b = Byte.newline
    · exact Or.inr (by rw [hb]; rfl)
    · obtain ⟨line, more', hlines⟩ := exists_lines_eq_cons rest
      rw [lines_cons hb hlines] at h
      cases h

/-- A byte that is no part of a line break is found by the line and the column of its place. -/
theorem shows_of_in {s : Source} {p : Position} (hp : p.In s.content) {b : UInt8} {rest : Bytes}
    (hdrop : s.content.drop p.offset = b :: rest) (hb : b ≠ Byte.newline)
    (hreturn : b = Byte.carriageReturn → rest ≠ [] ∧ rest.head? ≠ some Byte.newline) :
    s.Shows p b := by
  obtain ⟨whole, last, hlines, hplace⟩ := exists_lines (s.content.take p.offset)
  obtain ⟨line, more, hrest⟩ := exists_lines_eq_cons rest
  have hcontent := hlines _ _ _ (lines_cons hb hrest)
  rw [← hdrop, List.take_append_drop] at hcontent
  rw [← hp.2] at hplace
  have hline : p.line = whole.length + 1 := congrArg Position.line hplace
  have hcolumn : p.column = last.length + 1 := congrArg Position.column hplace
  refine ⟨withoutReturn (last ++ b :: line), last.length, ?_, hcolumn, getElem?_withoutReturn ?_⟩
  · rw [hline, line?, hcontent, List.getElem?_append_right (Nat.le_refl _), Nat.sub_self]
    rfl
  · rintro rfl hcr
    obtain ⟨hne, hhead⟩ := hreturn hcr
    exact (line_eq_nil hrest).elim hne hhead

/-- What the lines of a source and the places of its bytes have to do with each other. -/
structure LinesAgree (s : Source) : Prop where
  /-- There is one line more than there are newlines. -/
  lines_exact : ∀ n, (s.line? n).isSome = true ↔ 1 ≤ n ∧ n ≤ 1 + s.content.count Byte.newline
  /-- Every place, the end included, is in a line. -/
  line_isSome : ∀ o ≤ s.content.length, (s.line? (s.place o).line).isSome = true
  /-- A byte is found in its line, unless it is a newline or a return right before a newline or the
  end. -/
  shows : ∀ o b, s.content[o]? = some b → b ≠ Byte.newline →
    ¬(b = Byte.carriageReturn ∧
      (s.content[o + 1]? = none ∨ s.content[o + 1]? = some Byte.newline)) →
    s.Shows (s.place o) b
  /-- Later places have a later line, or a later column of the same line. -/
  increasing : ∀ o₁ o₂, o₁ < o₂ → o₂ ≤ s.content.length →
    (s.place o₁).line < (s.place o₂).line ∨
      (s.place o₁).line = (s.place o₂).line ∧ (s.place o₁).column < (s.place o₂).column

theorem place_in (s : Source) {o : Nat} (h : o ≤ s.content.length) :
    (s.place o).In s.content ∧ (s.place o).offset = o := by
  have hoffset : (s.place o).offset = o := by
    simp [place, Position.advance_offset, Position.start, h]
  exact ⟨⟨by omega, by rw [hoffset, place]⟩, hoffset⟩

/-- Lines that are counted while walking are the lines that the content is divided into. -/
theorem linesAgree (s : Source) : s.LinesAgree where
  lines_exact := s.line?_isSome_iff
  line_isSome o ho := by
    have hcount : (s.content.take o).count Byte.newline ≤ s.content.count Byte.newline :=
      (List.take_sublist o s.content).count_le _
    rw [line?_isSome_iff, place, Position.advance_line]
    simp only [Position.start]
    omega
  shows o b hb hnewline hreturn := by
    obtain ⟨hlt, rfl⟩ := List.getElem?_eq_some_iff.1 hb
    obtain ⟨hin, hoffset⟩ := s.place_in (Nat.le_of_lt hlt)
    have hdrop : s.content.drop (s.place o).offset = s.content[o] :: s.content.drop (o + 1) := by
      rw [hoffset, List.drop_eq_getElem_cons hlt]
    refine shows_of_in hin hdrop hnewline fun hcr => ?_
    · simp only [hcr, true_and, not_or] at hreturn
      rw [← List.head?_drop] at hreturn
      exact ⟨fun hnil => hreturn.1 (by rw [hnil]; rfl), hreturn.2⟩
  increasing o₁ o₂ hlt hle := by
    have hsplit : s.content.take o₂ =
        s.content.take o₁ ++ (s.content.take o₂).drop o₁ := by
      conv_lhs => rw [← List.take_append_drop o₁ (s.content.take o₂)]
      rw [List.take_take, Nat.min_eq_left hlt.le]
    have hne : (s.content.take o₂).drop o₁ ≠ [] := by
      rw [← List.length_pos_iff, List.length_drop, List.length_take]
      omega
    have hlater := Position.lineColumn_lt_advance (s.place o₁) hne
    rw [place, ← Position.advance_append, ← hsplit] at hlater
    exact Prod.Lex.toLex_lt_toLex.1 hlater

end Source

/-! ## What a reader reports -/

/-- A lexeme starts with a visible byte. -/
theorem Grammar.Spelled.exists_cons {category : Category} {raw after : Bytes}
    (h : Spelled category raw after) : ∃ b rest, raw = b :: rest ∧ Byte.isVisible b = true := by
  obtain ⟨b, rest, rfl⟩ := List.exists_cons_of_ne_nil h.ne_nil
  refine ⟨b, rest, rfl, ?_⟩
  cases category with
  | word => exact h.1.visible b List.mem_cons_self
  | number => exact h.1.visible b List.mem_cons_self
  | string =>
    generalize hraw : b :: rest = raw at h
    obtain ⟨hp⟩ := h.1
    obtain ⟨rfl, -⟩ := List.cons.inj hraw
    decide
  | symbol => exact Sign.visible h b List.mem_cons_self

/-- A visible byte is no line break, so it is found in its line. -/
theorem Source.shows_of_isVisible {s : Source} {p : Position} (hp : p.In s.content) {b : UInt8}
    {rest : Bytes} (hdrop : s.content.drop p.offset = b :: rest) (hb : Byte.isVisible b = true) :
    s.Shows p b := by
  refine shows_of_in hp hdrop ?_ ?_
  · rintro rfl
    cases hb
  · rintro rfl
    cases hb

namespace Reader

/-- The reported position leads to the byte `b` of the input. -/
def Showing (r : Reader) (p : Position) (b : UInt8) : Prop :=
  ∃ input, r.input? = some input ∧ input.source.Shows p b

/-- A lexeme is found at a place of the input. -/
theorem Standing.start_in {r : Reader} (h : r.Standing) {c : Cursor} (hc : r.cursor = some c)
    {l : Lexeme} {stop : Position} {gap raw after : Bytes}
    (hfound : Found r.settings c.position c.rest l stop gap raw after) :
    l.position.In c.handle.content := by
  rw [hfound.start]
  exact (h c hc).advance hfound.split

/-- The line and the column of a lexeme lead to its first byte. -/
theorem Standing.lexeme_shown {r : Reader} (h : r.Standing) {l : Lexeme}
    (hl : r.next.value = some l) : ∃ b, l.text.head? = some b ∧ r.Showing l.position b := by
  obtain ⟨c, hc⟩ := cursor_of_next hl
  obtain ⟨stop, gap, raw, after, hfound, -⟩ := next_found hc hl
  have hrest : c.handle.content.drop l.position.offset = raw ++ after := hfound.start_rest
  obtain ⟨b, rest, rfl, hb⟩ := hfound.spelled.exists_cons
  have hascii : Byte.isAscii b = true := by grind [Byte.isVisible, Byte.isAscii]
  refine ⟨b, ?_, c.handle, by rw [input?, hc, Option.map_some],
    Source.shows_of_isVisible (h.start_in hc hfound) hrest hb⟩
  rw [hfound.text]
  split
  · rw [Encoding.transcodeAll_cons_of_isAscii _ hascii]
    rfl
  · rfl

/-- The position of a directive leads to its sign. -/
theorem Standing.directive_shown {r : Reader} (h : r.Standing) {l : Lexeme}
    (hl : r.nextDirective.value = some l) :
    ∃ b, l.text.head? = some b ∧ r.Showing l.position b := by
  fun_induction Reader.nextDirective r with
  | case1 r step hnone => cases hnone.symm.trans hl
  | case2 r step lexeme hsome hash => exact h.lexeme_shown hl
  | case3 r step lexeme hsome hash more ih =>
    obtain ⟨b, hhead, input, hinput, hshown⟩ := ih h.next hl
    exact ⟨b, hhead, input, r.next_input?.symm.trans hinput, hshown⟩

/-- The line and the column of a malformed escape lead to its backslash. -/
theorem Standing.escape_shown {r : Reader} (h : r.Standing) {l : Lexeme} {fault : EscapeFault}
    (hl : r.next.value = some l) (hstring : l.category = .string)
    (hdecode : Payload.decode (Lexeme.payload l.text) = .error fault) :
    r.Showing (l.escapePosition r.input? fault.offset) Byte.backslash := by
  obtain ⟨c, hc⟩ := cursor_of_next hl
  obtain ⟨stop, gap, raw, after, hfound, -⟩ := next_found hc hl
  have hinput : r.input? = some c.handle := by rw [input?, hc, Option.map_some]
  have htext : l.text = r.settings.encoding.transcodeAll raw := by
    rw [hfound.text, if_pos hstring]
  have hreport := Lexeme.reportedAt (hfound.spelled.literal hstring) (h.start_in hc hfound)
    hfound.start_rest htext hdecode
  obtain ⟨hlt, hbyte⟩ := List.getElem?_eq_some_iff.1 hreport.backslash
  have hdrop := List.drop_eq_getElem_cons hlt
  rw [hbyte] at hdrop
  rw [hinput]
  exact ⟨c.handle, hinput,
    Source.shows_of_isVisible ⟨hlt.le, hreport.walked⟩ hdrop (by decide)⟩

end Reader

/-- In every source lines and places agree. In any course of a session the line and the column of a
lexeme lead to its first byte, and those of a malformed escape to its backslash. -/
theorem Session.lines_show_positions : (∀ source : Source, source.LinesAgree) ∧
    ∀ s : Session Reader, s.Reachable →
      (∀ l, s.scanner.next.value = some l ∨ s.scanner.nextDirective.value = some l →
        ∃ b, l.text.head? = some b ∧ s.scanner.Showing l.position b) ∧
      ∀ input position text,
        s.tokenizer.next.value = some (.error (.invalidEscape input position text)) →
          input = s.scanner.input? ∧ s.scanner.Showing position Byte.backslash := by
  refine ⟨Source.linesAgree, fun s hs => ⟨fun l hl => ?_, fun input position text hfault => ?_⟩⟩
  · exact hl.elim hs.placed.standing.lexeme_shown hs.placed.standing.directive_shown
  · obtain ⟨l, hl, hfails⟩ := Tokenizer.next_fails hfault
    have hinput : Scanner.input? (Scanner.next s.tokenizer.scanner).state = s.scanner.input? :=
      s.scanner.next_input?
    rw [hinput] at hfails
    cases hfails with
    | escape hstring hdecode => exact ⟨rfl, hs.placed.standing.escape_shown hl hstring hdecode⟩

/-- Two lines, of which the first ends with a carriage return and the second holds a literal with a
malformed escape. -/
def Session.twoLines : Handle :=
  ⟨0, ⟨"main", [97, 13, 10, 32, 34, 98, 92, 113, 34], by decide⟩⟩

/-- A session in front of that literal. -/
def Session.secondLine : Session Reader :=
  (Session.start Reader.empty []).after [.attach twoLines, .lexeme]

/-- The carriage return belongs to the line break and counts for no column of the second line. -/
theorem Session.lines_show_positions_secondLine :
    secondLine.Reachable ∧
      secondLine.scanner.next.value =
        some ⟨.string, [34, 98, 92, 113, 34], ⟨4, 2, 2⟩⟩ ∧
      secondLine.tokenizer.next.value =
        some (.error (.invalidEscape (some twoLines) ⟨6, 2, 4⟩ [92, 113])) ∧
      twoLines.source.LinesAgree ∧ secondLine.scanner.Showing ⟨4, 2, 2⟩ Byte.quote ∧
      secondLine.scanner.Showing ⟨6, 2, 4⟩ Byte.backslash := by
  have hreachable : secondLine.Reachable := ⟨[], [.attach twoLines, .lexeme], rfl⟩
  have hlexeme : secondLine.scanner.next.value =
      some ⟨.string, [34, 98, 92, 113, 34], ⟨4, 2, 2⟩⟩ := by
    decide +kernel
  have hfault : secondLine.tokenizer.next.value =
      some (.error (.invalidEscape (some twoLines) ⟨6, 2, 4⟩ [92, 113])) := by
    decide +kernel
  obtain ⟨hagree, hshown⟩ := lines_show_positions
  obtain ⟨hlexemes, hfaults⟩ := hshown secondLine hreachable
  obtain ⟨b, hhead, hquote⟩ := hlexemes _ (Or.inl hlexeme)
  obtain rfl : Byte.quote = b := Option.some.inj hhead
  exact ⟨hreachable, hlexeme, hfault, hagree _, hquote, (hfaults _ _ _ hfault).2⟩

end SceneTokens
