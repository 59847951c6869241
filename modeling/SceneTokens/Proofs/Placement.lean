import SceneTokens.Proofs.Bookmarks
import SceneTokens.Proofs.Reading

/-!
# Where readers stand

A position carries a line and a column beside its offset, and a reader takes positions over from
bookmarks without looking at them. Still no course of a session makes the three disagree:
wherever the reader stands is the place that walking over the content up to its offset leads to
(`Position.In`).

The invariant is `Session.Placed`. It speaks of the reader and of the bookmarks that were saved,
each of which was taken from a reader at such a place. A hot bookmark knows nothing of its input,
so its reader must be one that the present reader follows.
-/

namespace SceneTokens

/-! ## Places of a content -/

/-- `p` is a place of `content`, with the line and the column that belong to its offset. -/
def Position.In (content : Bytes) (p : Position) : Prop :=
  p.offset ≤ content.length ∧ p = Position.start.advance (content.take p.offset)

namespace Position

theorem start_in (content : Bytes) : start.In content :=
  ⟨Nat.zero_le _, rfl⟩

/-- A walk over bytes that stand there leads from a place to a place. -/
theorem In.advance {content raw after : Bytes} {p : Position} (h : p.In content)
    (hrest : content.drop p.offset = raw ++ after) : (p.advance raw).In content := by
  have hlength : content.length - p.offset = raw.length + after.length := by
    rw [← List.length_drop, hrest, List.length_append]
  have htake : content.take (p.offset + raw.length) = content.take p.offset ++ raw := by
    rw [List.take_add, hrest, List.take_left]
  refine ⟨?_, ?_⟩
  · have hle := h.1
    rw [advance_offset]
    omega
  · rw [advance_offset, htake, advance_append, ← h.2]

end Position

namespace Reader

/-- The reader stands at a place of its input, if it has one. -/
def Standing (r : Reader) : Prop :=
  ∀ c, r.cursor = some c → c.position.In c.handle.content

/-- Only the cursor counts, not the settings or the number of attachments. -/
theorem standing_of_cursor {r r' : Reader} (h : r.Standing) (heq : r'.cursor = r.cursor) :
    r'.Standing := by
  intro c hc
  exact h c (heq ▸ hc)

theorem standing_empty : empty.Standing := by
  intro c hc
  cases hc

theorem standing_attach (r : Reader) (h : Handle) : (r.attach h).Standing := by
  intro c hc
  obtain rfl := Option.some.inj hc
  exact Position.start_in h.content

/-- Reading a lexeme leads from place to place: over the gap and the lexeme, or up to the end if
there is none. -/
theorem Standing.next {r : Reader} (h : r.Standing) : r.next.state.Standing := by
  intro c' hc'
  cases hc : r.cursor with
  | none =>
    have hstate : r.next.state = r := by simp [Reader.next, hc]
    rw [hstate, hc] at hc'
    cases hc'
  | some c =>
    cases hl : r.next.value with
    | none =>
      obtain ⟨-, hstate⟩ := next_remainder hc hl
      rw [hstate] at hc'
      obtain rfl := Option.some.inj hc'
      have hrest : c.handle.content.drop c.position.offset = c.rest ++ [] :=
        (List.append_nil _).symm
      exact (h c hc).advance hrest
    | some l =>
      obtain ⟨stop, gap, raw, after, hfound, hstate⟩ := next_found hc hl
      rw [hstate] at hc'
      obtain rfl := Option.some.inj hc'
      show stop.In c.handle.content
      rw [hfound.stop, hfound.start, ← Position.advance_append]
      exact (h c hc).advance (by rw [List.append_assoc]; exact hfound.split)

/-- So does reading on to a directive, lexeme by lexeme. -/
theorem Standing.nextDirective {r : Reader} (h : r.Standing) :
    r.nextDirective.state.Standing := by
  fun_induction Reader.nextDirective r with
  | case1 r step hnone => exact h.next
  | case2 r step lexeme hsome hash => exact h.next
  | case3 r step lexeme hsome hash more ih => exact ih h.next

/-! ## Going back -/

/-- A move that fails leaves the reader where it is. -/
theorem moveTo_state {r : Reader} {p : Position} (h : (r.moveTo p).restored = false) :
    (r.moveTo p).state = r := by
  rcases r.moveTo_cases p with ⟨c, -, -, hmove⟩ | hmove
  · simp [hmove] at h
  · rw [hmove]

/-- A hot bookmark of a reader in its place leads back to that place, since the present reader
follows that one. If it fails, nothing has moved. -/
theorem Standing.goHot {r q : Reader} (h : r.Standing) (hq : q.Standing) (hf : q.Follows r) :
    (r.goHot q.hotMark).state.Standing := by
  cases hok : (r.goHot q.hotMark).restored with
  | true => exact standing_of_cursor hq (goHot_cursor hf hok)
  | false =>
    unfold Reader.goHot at hok ⊢
    split at hok
    · rename_i hgen
      rw [if_pos hgen, moveTo_state hok]
      exact h
    · rename_i hgen
      rw [if_neg hgen]
      exact h

/-- A cold bookmark brings its input along. If it fails after that, the reader is at the start of
the input. -/
theorem Standing.goCold {r q : Reader} (h : r.Standing) (hq : q.Standing) :
    (r.goCold q.coldMark).state.Standing := by
  cases hok : (r.goCold q.coldMark).restored with
  | true => exact standing_of_cursor hq (goCold_cursor hok)
  | false =>
    unfold Reader.goCold at hok ⊢
    split
    · exact h
    · rename_i input hinput
      simp only [hinput] at hok
      rw [moveTo_state hok]
      split
      · exact h
      · exact standing_attach r input

end Reader

/-! ## Placed sessions -/

namespace Session

/-- The reader stands at a place of its input, and every bookmark was taken from a reader that did,
a hot one from a reader that the present one follows. -/
structure Placed (s : Session Reader) : Prop where
  standing : s.scanner.Standing
  hot : ∀ e ∈ s.hot, ∃ q : Reader, q.Standing ∧ q.Follows s.scanner ∧ e.2 = Scanner.hotMark q
  cold : ∀ e ∈ s.cold, ∃ q : Reader, q.Standing ∧ e.2 = Scanner.coldMark q

/-- Saving a bookmark adds no other than that one. -/
theorem mem_of_mem_save {β : Type} {slots : List (String × β)} {slot : String} {value : β}
    {e : String × β} (h : e ∈ save slots slot value) : e = (slot, value) ∨ e ∈ slots := by
  rcases List.mem_cons.1 h with rfl | he
  · exact Or.inl rfl
  · exact Or.inr (List.mem_filter.1 he).1

theorem mem_of_lookup {β : Type} {slots : List (String × β)} {slot : String} {value : β}
    (h : slots.lookup slot = some value) : (slot, value) ∈ slots := by
  obtain ⟨front, back, rfl, -⟩ := List.lookup_eq_some_iff.1 h
  simp

/-- Another reader may take the place of the present one if it follows it and stands at a place. -/
theorem Placed.withScanner {s : Session Reader} {r : Reader} (hs : s.Placed)
    (hf : s.scanner.Follows r) (hr : r.Standing) : (s.withScanner r).Placed where
  standing := hr
  hot e he := by
    obtain ⟨q, hq, hqf, hmark⟩ := hs.hot e he
    exact ⟨q, hq, hqf.trans hf, hmark⟩
  cold := hs.cold

/-- The step of the induction: each move leaves the session placed, given that the reader after it
follows the one before. -/
theorem Move.placed {s t : Session Reader} (h : Move s t) (hs : s.Placed) : t.Placed := by
  have hf := h.follows
  cases h with
  | read => exact hs.withScanner hf hs.standing.next
  | seek => exact hs.withScanner hf hs.standing.nextDirective
  | learn => exact ⟨hs.standing, hs.hot, hs.cold⟩
  | attach input => exact hs.withScanner hf (Reader.standing_attach s.scanner input)
  | setEncoding => exact hs.withScanner hf (Reader.standing_of_cursor hs.standing rfl)
  | setNested => exact hs.withScanner hf (Reader.standing_of_cursor hs.standing rfl)
  | saveHot =>
    refine ⟨hs.standing, fun e he => ?_, hs.cold⟩
    rcases mem_of_mem_save he with rfl | he
    · exact ⟨s.scanner, hs.standing, .refl _, rfl⟩
    · exact hs.hot e he
  | saveCold =>
    refine ⟨hs.standing, hs.hot, fun e he => ?_⟩
    rcases mem_of_mem_save he with rfl | he
    · exact ⟨s.scanner, hs.standing, rfl⟩
    · exact hs.cold e he
  | goHot hm =>
    obtain ⟨q, hq, hqf, rfl⟩ := hs.hot _ (mem_of_lookup hm)
    exact hs.withScanner hf (hs.standing.goHot hq hqf)
  | goCold hm =>
    obtain ⟨q, hq, rfl⟩ := hs.cold _ (mem_of_lookup hm)
    exact hs.withScanner hf (hs.standing.goCold hq)

/-- Every reachable session is placed. -/
theorem Reachable.placed {s : Session Reader} (h : s.Reachable) : s.Placed := by
  refine h.induction (P := Placed) ?_ (fun s t hmove hs => hmove.placed hs) ?_
  · intro reserved
    exact ⟨Reader.standing_empty, by simp [Session.start], by simp [Session.start]⟩
  · intro s hs
    exact ⟨hs.standing, hs.hot, hs.cold⟩

end Session

end SceneTokens
