import SceneTokens.Proofs.Contract
import SceneTokens.Proofs.Delimited

/-!
# Printing lexemes and reading them again

The text of a lexeme is all that is needed to read the lexeme once more, if a blank or nothing
follows it (`Lexeme.SelfDelimiting`). For words, numbers and symbols this is so because their text
is what stood in the source, and no blank can make it longer. The text of a string literal may be
transcoded, so that its bytes were never in the source; it is a literal all the same
(`Grammar.Literal.transcodeAll`).

So the lexemes of any scene can be printed with blanks between them, and reading what is printed
gives them back (`Reader.drain_printed`).
-/

namespace SceneTokens

open Grammar

/-! ## Transcoded literals -/

namespace Grammar

/-- Transcoding brings in no quote and no backslash, so what is inside a literal stays so. -/
theorem LiteralBody.transcodeAll (e : Encoding) {p : Bytes} (hp : LiteralBody p) :
    LiteralBody (e.transcodeAll p) := by
  induction hp with
  | nil => exact .nil
  | @plain b p hq hb _ ih =>
    rw [Encoding.transcodeAll_cons]
    rcases e.transcode_cases b with ⟨-, hself⟩ | ⟨-, hrun⟩
    · rw [hself]
      exact .plain hq hb ih
    · exact ih.outside_append hrun
  | @guarded c p _ ih =>
    rw [Encoding.transcodeAll_cons_of_isAscii e Byte.isAscii_backslash, Encoding.transcodeAll_cons]
    obtain ⟨x, run, hx⟩ := List.exists_cons_of_ne_nil (e.transcode_ne_nil c)
    have hrun : ∀ y ∈ run, Byte.isAscii y = false := by
      rcases e.transcode_cases c with ⟨-, hself⟩ | ⟨-, hrun⟩
      · rw [hx, List.cons.injEq] at hself
        simp [hself.2]
      · intro y hy
        exact hrun y (by simp [hx, hy])
    rw [hx]
    exact .guarded (ih.outside_append hrun)

theorem Literal.transcodeAll (e : Encoding) {raw : Bytes} (h : Literal raw) :
    Literal (e.transcodeAll raw) := by
  obtain ⟨hp⟩ := h
  rw [Encoding.transcodeAll_literal]
  exact .mk (hp.transcodeAll e)

end Grammar

/-! ## Texts that spell their lexemes -/

/-- The text of a lexeme spells it wherever a blank or nothing stands behind. -/
def Lexeme.SelfDelimiting (l : Lexeme) : Prop :=
  ∀ after, ShowsNoMore after [] → Spelled l.category l.text after

/-- However a lexeme was spelled in its source, its text spells it in front of any blank. -/
theorem Grammar.Spelled.selfDelimiting {l : Lexeme} {raw after : Bytes} {encoding : Encoding}
    (h : Spelled l.category raw after)
    (htext : l.text = if l.category = .string then encoding.transcodeAll raw else raw) :
    l.SelfDelimiting := by
  intro after' hs
  by_cases hc : l.category = .string
  · rw [htext, if_pos hc, hc]
    exact ((h.literal hc).transcodeAll encoding).sole after'
  · rw [htext, if_neg hc]
    exact h.of_showsNoMore fun q hq hpre => (hs q hq hpre).trans List.nil_prefix

/-- Every lexeme that is read spells itself in front of a blank. -/
theorem Reader.drain_selfDelimiting (r : Reader) :
    ∀ l ∈ (Scanner.drain r).value, l.SelfDelimiting := by
  fun_induction Scanner.drain r with
  | case1 r step hnone => simp
  | case2 r step lexeme hsome more ih =>
    intro l hl
    rcases List.mem_cons.1 hl with rfl | hl
    · obtain ⟨c, hc⟩ := cursor_of_next hsome
      obtain ⟨stop, gap, raw, after, hfound, -⟩ := next_found hc hsome
      exact hfound.spelled.selfDelimiting hfound.text
    · exact ih l hl

/-! ## Printing -/

/-- The bytes give the texts of the lexemes one after another, with a separator of blanks between
any two. -/
inductive Printed : List Lexeme → Bytes → Prop
  | nil : Printed [] []
  | last (l : Lexeme) : Printed [l] l.text
  | cons (l : Lexeme) {l' : Lexeme} {ls : List Lexeme} (separator : Bytes) {text : Bytes} :
      separator ≠ [] → Blanks separator → Printed (l' :: ls) text →
      Printed (l :: l' :: ls) (l.text ++ (separator ++ text))

/-- What a lexeme is, wherever it stands. -/
def Lexeme.shape (l : Lexeme) : Category × Bytes :=
  (l.category, l.text)

/-- One more lexeme in front of spaced ones, at the position that its gap leads to. -/
theorem Reader.Spaced.cons_selfDelimiting {l : Lexeme} (hl : l.SelfDelimiting)
    {gap after : Bytes} (hgap : Blanks gap) (hafter : ShowsNoMore after []) {position : Position}
    {ls : List Lexeme}
    (h : Spaced .utf8 ((position.advance gap).advance l.text) ls after) :
    Spaced .utf8 position ({ l with position := position.advance gap } :: ls)
      (gap ++ (l.text ++ after)) :=
  .cons hgap (hl after hafter) (by rw [Encoding.transcodeAll_utf8, ite_self]) rfl h

/-- What is printed is laid out with blanks. -/
theorem Printed.spaced {ls : List Lexeme} {text : Bytes} (h : Printed ls text)
    (hls : ∀ l ∈ ls, l.SelfDelimiting) : ∀ gap : Bytes, Blanks gap → ∀ position : Position,
      ∃ ls', Reader.Spaced .utf8 position ls' (gap ++ text) ∧
        ls'.map Lexeme.shape = ls.map Lexeme.shape := by
  induction h with
  | nil =>
    intro gap hgap position
    exact ⟨[], .nil (by simpa using hgap), rfl⟩
  | last l =>
    intro gap hgap position
    have hl := hls l (by simp)
    have hend : Reader.Spaced .utf8 ((position.advance gap).advance l.text) [] [] := .nil nofun
    have hlast := hend.cons_selfDelimiting hl hgap (showsNoMore_nil [])
    rw [List.append_nil] at hlast
    exact ⟨_, hlast, rfl⟩
  | @cons l _ ls separator text hne hblanks _ ih =>
    intro gap hgap position
    obtain ⟨b, separator, rfl⟩ := List.exists_cons_of_ne_nil hne
    have hafter : ShowsNoMore (b :: separator ++ text) [] :=
      showsNoMore_cons (Byte.isVisible_of_isBlank (hblanks b (by simp))) _ _
    obtain ⟨ls', hspaced, hshape⟩ := ih (fun l hl => hls l (List.mem_cons_of_mem _ hl)) _ hblanks
      ((position.advance gap).advance l.text)
    refine ⟨_, hspaced.cons_selfDelimiting (hls l (by simp)) hgap hafter, ?_⟩
    rw [List.map_cons, List.map_cons, hshape]
    rfl

/-- The lexemes of a scene, printed with blanks between them, are read again with the same
categories and texts, to the end of what is printed, and nothing is reported as unclosed. -/
theorem Reader.drain_printed (h printed : Handle) (settings : Settings) (nested : Bool)
    (hprinted : Printed
      (Scanner.drain (Scanner.configure (Reader.ofHandle h) settings)).value printed.content) :
    let first := Scanner.drain (Scanner.configure (Reader.ofHandle h) settings)
    let again := Scanner.drain (Scanner.configure (Reader.ofHandle printed) ⟨.utf8, nested⟩)
    again.value.map Lexeme.shape = first.value.map Lexeme.shape ∧
      again.state.position.offset = printed.content.length ∧
      ∀ e ∈ again.events, e.isUnclosed = false := by
  intro first again
  have hcursor : (Scanner.configure (Reader.ofHandle printed) ⟨.utf8, nested⟩ : Reader).cursor =
      some (.ofHandle printed) := rfl
  obtain ⟨ls', hspaced, hshape⟩ := hprinted.spaced (drain_selfDelimiting _) [] nofun .start
  obtain ⟨hvalue, hevents⟩ := drain_of_spaced hspaced rfl hcursor rfl rfl
  have hend : again.state.cursor = _ := drain_cursor _ _ hcursor
  refine ⟨(congrArg (List.map Lexeme.shape) hvalue).trans hshape, ?_, hevents⟩
  rw [position, hend]
  simp [Cursor.ofHandle, Cursor.rest, Position.start]

/-- A scene in Latin-1 of which the lexemes touch: `1./*x*/.5<="\é"/a`. -/
def Reader.crowded : Handle :=
  ⟨0, ⟨"main", [49, 46, 47, 42, 120, 42, 47, 46, 53, 60, 61, 34, 92, 0xE9, 34, 47, 97], by decide⟩⟩

/-- Its lexemes in UTF-8, with blanks between them. -/
def Reader.crowdedPrinted : Handle :=
  ⟨1, ⟨"out", [49, 32, 46, 10, 46, 53, 9, 32, 60, 61, 13, 34, 92, 0xC3, 0xA9, 34, 12, 47, 32, 97],
    by decide⟩⟩

/-- Printed apart, the lexemes that touched are read again, and the comment between two of them is
gone. -/
theorem Reader.drain_crowdedPrinted :
    let again := Scanner.drain (Scanner.configure (Reader.ofHandle crowdedPrinted) ⟨.utf8, true⟩)
    Printed (Scanner.drain (Scanner.configure (Reader.ofHandle crowded) ⟨.latin1, false⟩)).value
        crowdedPrinted.content ∧
      again.value.map Lexeme.shape =
        [(.number, [49]), (.symbol, [46]), (.number, [46, 53]), (.symbol, [60, 61]),
          (.string, [34, 92, 0xC3, 0xA9, 34]), (.symbol, [47]), (.word, [97])] ∧
      again.state.position.offset = 20 ∧ ∀ e ∈ again.events, e.isUnclosed = false := by
  intro again
  have hfirst : (Scanner.drain (Scanner.configure (Reader.ofHandle crowded)
      ⟨.latin1, false⟩)).value =
        [⟨.number, [49], ⟨0, 1, 1⟩⟩, ⟨.symbol, [46], ⟨1, 1, 2⟩⟩, ⟨.number, [46, 53], ⟨7, 1, 8⟩⟩,
          ⟨.symbol, [60, 61], ⟨9, 1, 10⟩⟩, ⟨.string, [34, 92, 0xC3, 0xA9, 34], ⟨11, 1, 12⟩⟩,
          ⟨.symbol, [47], ⟨15, 1, 16⟩⟩, ⟨.word, [97], ⟨16, 1, 17⟩⟩] := by
    decide +kernel
  have hprinted : Printed (Scanner.drain (Scanner.configure (Reader.ofHandle crowded)
      ⟨.latin1, false⟩)).value crowdedPrinted.content := by
    rw [hfirst]
    exact .cons _ [32] (by simp) (by decide) <| .cons _ [10] (by simp) (by decide) <|
      .cons _ [9, 32] (by simp) (by decide) <| .cons _ [13] (by simp) (by decide) <|
      .cons _ [12] (by simp) (by decide) <| .cons _ [32] (by simp) (by decide) <| .last _
  obtain ⟨hshape, hend, hevents⟩ :=
    drain_printed crowded crowdedPrinted ⟨.latin1, false⟩ true hprinted
  exact ⟨hprinted, hshape.trans (by rw [hfirst]; rfl), hend, hevents⟩

end SceneTokens
