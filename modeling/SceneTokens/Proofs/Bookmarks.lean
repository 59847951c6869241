import SceneTokens.Proofs.Course

/-!
# Bookmarks

A reader is sent back to a bookmark by its position alone, and a hot bookmark says which input it
belongs to only by the number of attachments. `Reader.Follows` is what every course keeps about
that number: it never goes down, and while it is the same the input is the same
(`Session.Moves.follows`). So a bookmark that can be restored at all puts the reader exactly where
the bookmark was taken (`Session.goBack_cursor`).
-/

namespace SceneTokens

namespace Reader

/-! ## Moving within an input -/

/-- Moving succeeds within the input, and else changes nothing. -/
theorem moveTo_cases (r : Reader) (p : Position) :
    (∃ c, r.cursor = some c ∧ p.offset ≤ c.handle.content.length ∧
      r.moveTo p = ⟨true, { r with cursor := some ⟨c.handle, p⟩ }⟩) ∨
    r.moveTo p = ⟨false, r⟩ := by
  cases hc : r.cursor with
  | none => exact Or.inr (by simp [moveTo, hc])
  | some c =>
    by_cases hle : p.offset ≤ c.handle.content.length
    · exact Or.inl ⟨c, rfl, hle, by simp [moveTo, hc, Cursor.moveTo?, hle]⟩
    · exact Or.inr (by simp [moveTo, hc, Cursor.moveTo?, hle])

/-! ## Counting attachments -/

/-- `r'` may be `r` after some course: an input that was attached since is counted. -/
def Follows (r r' : Reader) : Prop :=
  r.generation ≤ r'.generation ∧ (r'.generation = r.generation → r'.input? = r.input?)

theorem Follows.refl (r : Reader) : r.Follows r :=
  ⟨Nat.le_refl _, fun _ => rfl⟩

/-- Two courses in turn are a course: if the number is the same at the end, it was so in between. -/
theorem Follows.trans {r r' r'' : Reader} (h : r.Follows r') (h' : r'.Follows r'') :
    r.Follows r'' := by
  refine ⟨Nat.le_trans h.1 h'.1, fun heq => ?_⟩
  have h1 := h.1
  have h2 := h'.1
  rw [h'.2 (by omega), h.2 (by omega)]

theorem follows_next (r : Reader) : r.Follows r.next.state := by
  unfold next
  split
  · exact .refl r
  · rename_i c hc
    exact ⟨Nat.le_refl _, fun _ => by simp [input?, hc]⟩

theorem follows_nextDirective (r : Reader) : r.Follows r.nextDirective.state := by
  fun_induction nextDirective r with
  | case1 r step h => exact follows_next r
  | case2 r step lexeme h hash => exact follows_next r
  | case3 r step lexeme h hash more ih => exact (follows_next r).trans ih

theorem follows_attach (r : Reader) (h : Handle) : r.Follows (r.attach h) :=
  ⟨Nat.le_succ _, fun heq => absurd heq (Nat.succ_ne_self _)⟩

theorem follows_moveTo (r : Reader) (p : Position) : r.Follows (r.moveTo p).state := by
  rcases r.moveTo_cases p with ⟨c, hc, -, h⟩ | h
  · rw [h]
    exact ⟨Nat.le_refl _, fun _ => by simp [input?, hc]⟩
  · rw [h]
    exact .refl r

theorem follows_goHot (r : Reader) (m : HotMark) : r.Follows (r.goHot m).state := by
  unfold goHot
  split
  · exact follows_moveTo r m.position
  · exact .refl r

/-- Going back to a cold bookmark may attach its input, which is then counted. -/
theorem follows_goCold (r : Reader) (m : ColdMark) : r.Follows (r.goCold m).state := by
  unfold goCold
  split
  · exact .refl r
  · rename_i h _
    split
    · exact follows_moveTo r m.position
    · exact (follows_attach r h).trans (follows_moveTo _ m.position)

/-! ## Going back -/

theorem cursor_of_input? {r : Reader} {h : Handle} (hr : r.input? = some h) :
    r.cursor = some ⟨h, r.position⟩ := by
  obtain ⟨c, hc, rfl⟩ := Option.map_eq_some_iff.1 hr
  simp [position, hc]

/-- Going back to a cold bookmark is moving within its input, attached before or now. -/
theorem exists_goCold_eq_moveTo {r : Reader} {h : Handle} (hr : r.input? = some h) (r' : Reader) :
    ∃ q : Reader, q.input? = some h ∧ r'.goCold r.coldMark = q.moveTo r.position := by
  refine ⟨if r'.input? = some h then r' else r'.attach h, ?_, by simp [goCold, coldMark, hr]⟩
  split
  · assumption
  · rfl

/-- A hot bookmark that can be restored leads to the cursor it was taken at. -/
theorem goHot_cursor {r r' : Reader} (h : r.Follows r')
    (hok : (r'.goHot r.hotMark).restored = true) :
    (r'.goHot r.hotMark).state.cursor = r.cursor := by
  unfold goHot at hok ⊢
  split at hok
  · rename_i hgen
    rw [if_pos hgen]
    rcases r'.moveTo_cases r.hotMark.position with ⟨c, hc, -, hmove⟩ | hmove
    · have hinput : r.input? = some c.handle := by
        rw [← h.2 hgen.symm]
        simp [input?, hc]
      rw [hmove, cursor_of_input? hinput]
      rfl
    · simp [hmove] at hok
  · simp at hok

/-- So does a cold one, wherever the reader is sent back from. -/
theorem goCold_cursor {r r' : Reader} (hok : (r'.goCold r.coldMark).restored = true) :
    (r'.goCold r.coldMark).state.cursor = r.cursor := by
  cases hr : r.input? with
  | none => simp [goCold, coldMark, hr] at hok
  | some h =>
    obtain ⟨q, hinput, hgo⟩ := exists_goCold_eq_moveTo hr r'
    rw [hgo] at hok ⊢
    rcases q.moveTo_cases r.position with ⟨c, hc, -, hmove⟩ | hmove
    · have hhandle : c.handle = h := by simpa [input?, hc] using hinput
      rw [hmove, cursor_of_input? hr, hhandle]
    · simp [hmove] at hok

end Reader

theorem Tokenizer.restored_of_ok {σ : Type} [Scanner σ] {t : Tokenizer σ} {w : Warmth}
    {r : Restoration σ} (h : (t.restored w r).value = .ok ()) : r.restored = true := by
  unfold Tokenizer.restored at h
  split at h
  · assumption
  · cases h

/-- Goes back to a bookmark of the given kind that was taken from the scanner `place`. -/
def Tokenizer.goBack {σ : Type} [Scanner σ] (t : Tokenizer σ) (place : σ) :
    Warmth → Step (Tokenizer σ) (Except TokenFault Unit)
  | .hot => t.goHot (Scanner.hotMark place)
  | .cold => t.goCold (Scanner.coldMark place)

namespace Session

/-- Every move keeps count of the attachments. -/
theorem Move.follows {s t : Session Reader} (h : Move s t) : s.scanner.Follows t.scanner := by
  cases h with
  | read => exact Reader.follows_next s.scanner
  | seek => exact Reader.follows_nextDirective s.scanner
  | learn => exact .refl _
  | attach input => exact Reader.follows_attach s.scanner input
  | setEncoding => exact .refl _
  | setNested => exact .refl _
  | saveHot => exact .refl _
  | saveCold => exact .refl _
  | goHot => exact Reader.follows_goHot s.scanner _
  | goCold => exact Reader.follows_goCold s.scanner _

/-- Any number of moves: the reader they lead to follows the one they started from. -/
theorem Moves.follows {s t : Session Reader} (h : Moves s t) : s.scanner.Follows t.scanner :=
  h.keep (P := fun t => s.scanner.Follows t.scanner) (fun _ _ hmove hs => hs.trans hmove.follows)
    (.refl _)

/-- After any course, a bookmark that can be restored leads to the cursor it was taken at. The
words stay as they are. -/
theorem goBack_cursor {s t : Session Reader} (h : Moves s t) {w : Warmth}
    (hok : (t.tokenizer.goBack s.scanner w).value = .ok ()) :
    (t.tokenizer.goBack s.scanner w).state.scanner.cursor = s.scanner.cursor ∧
      (t.tokenizer.goBack s.scanner w).state.words = t.tokenizer.words := by
  cases w with
  | hot =>
    simp only [Tokenizer.goBack, Tokenizer.goHot, Tokenizer.restored_state]
    exact ⟨Reader.goHot_cursor h.follows (Tokenizer.restored_of_ok hok), trivial⟩
  | cold =>
    simp only [Tokenizer.goBack, Tokenizer.goCold, Tokenizer.restored_state]
    exact ⟨Reader.goCold_cursor (Tokenizer.restored_of_ok hok), trivial⟩

end Session

end SceneTokens
