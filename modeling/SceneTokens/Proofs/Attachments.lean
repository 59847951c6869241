import SceneTokens.Proofs.Placement

/-!
# When bookmarks hold

A bookmark can be restored if an input was attached when it was taken, and a hot one only if no
input was attached since (`Session.goBack_restored`). The reader knows the second from a number
that goes up with every attachment. `Session.attachments` counts them from the requests alone:
starting over with an input is one, and so is going back to a cold bookmark of an input that is not
attached. The two counts agree along every course (`Session.generation_after`).

Going back to a cold bookmark attaches its input before it moves, so if the move failed the reader
would be left at the start of another input. It cannot fail: wherever a bookmark was taken is a
place of its input.
-/

namespace SceneTokens

namespace Reader

/-! ## The number of attachments -/

theorem next_generation (r : Reader) : r.next.state.generation = r.generation := by
  unfold next
  split <;> rfl

theorem nextDirective_generation (r : Reader) :
    r.nextDirective.state.generation = r.generation := by
  fun_induction nextDirective r with
  | case1 r step h => exact r.next_generation
  | case2 r step lexeme h hash => exact r.next_generation
  | case3 r step lexeme h hash more ih => exact ih.trans r.next_generation

theorem moveTo_generation (r : Reader) (p : Position) :
    (r.moveTo p).state.generation = r.generation := by
  rcases r.moveTo_cases p with ⟨c, -, -, h⟩ | h <;> rw [h]

theorem goHot_generation (r : Reader) (m : HotMark) :
    (r.goHot m).state.generation = r.generation := by
  unfold goHot
  split
  · exact r.moveTo_generation m.position
  · rfl

/-- Whether going back to a cold bookmark attaches its input. -/
def reattaches (r : Reader) (m : ColdMark) : Bool :=
  m.handle.any fun h => r.input? ≠ some h

/-- Going back to a cold bookmark attaches its input if another one, or none, is attached. -/
theorem goCold_generation (r : Reader) (m : ColdMark) :
    (r.goCold m).state.generation = r.generation + if r.reattaches m then 1 else 0 := by
  unfold goCold reattaches
  split
  · rename_i hm
    simp [hm]
  · rename_i h hm
    rw [moveTo_generation, hm]
    by_cases hinput : r.input? = some h
    · simp [hinput]
    · simp [hinput, attach]

/-! ## Bookmarks that hold -/

theorem moveTo_restored_iff (r : Reader) (p : Position) :
    (r.moveTo p).restored = true ↔ ∃ h, r.input? = some h ∧ p.offset ≤ h.content.length := by
  unfold moveTo
  cases hc : r.cursor with
  | none => simp [input?, hc]
  | some c =>
    by_cases hle : p.offset ≤ c.handle.content.length
    · simp [input?, hc, Cursor.moveTo?, hle]
    · simp [input?, hc, Cursor.moveTo?, hle]

theorem Standing.offset_le {r : Reader} (hr : r.Standing) {h : Handle}
    (hinput : r.input? = some h) : r.position.offset ≤ h.content.length :=
  (hr _ (cursor_of_input? hinput)).1

/-- A hot bookmark holds while the number of attachments is the same. -/
theorem goHot_restored_iff {r r' : Reader} (hr : r.Standing) (h : r.Follows r') :
    (r'.goHot r.hotMark).restored = true ↔
      r.input?.isSome ∧ r'.generation = r.generation := by
  unfold goHot
  split
  · rename_i hgen
    have hsame : r'.generation = r.generation := hgen.symm
    rw [moveTo_restored_iff, h.2 hsame]
    constructor
    · rintro ⟨source, hsource, -⟩
      exact ⟨Option.isSome_of_eq_some hsource, hsame⟩
    · rintro ⟨hsome, -⟩
      obtain ⟨source, hsource⟩ := Option.isSome_iff_exists.1 hsome
      exact ⟨source, hsource, hr.offset_le hsource⟩
  · rename_i hgen
    have hne : r'.generation ≠ r.generation := fun heq => hgen heq.symm
    simp [hne]

/-- A cold bookmark holds if it has an input. -/
theorem goCold_restored_iff {r r' : Reader} (hr : r.Standing) :
    (r'.goCold r.coldMark).restored = true ↔ r.input?.isSome := by
  cases hinput : r.input? with
  | none => simp [goCold, coldMark, hinput]
  | some h =>
    obtain ⟨q, hq, hgo⟩ := exists_goCold_eq_moveTo hinput r'
    rw [hgo, moveTo_restored_iff, hq]
    simp [hr.offset_le hinput]

/-- A hot bookmark that cannot be restored leaves the reader as it is. -/
theorem goHot_state {r : Reader} {m : HotMark} (h : (r.goHot m).restored = false) :
    (r.goHot m).state = r := by
  unfold goHot at h ⊢
  split at h
  · rename_i hgen
    rw [if_pos hgen, moveTo_state h]
  · rename_i hgen
    rw [if_neg hgen]

/-- So does a cold one. It fails only for want of an input, before any is attached. -/
theorem goCold_state {r r' : Reader} (hr : r.Standing)
    (h : (r'.goCold r.coldMark).restored = false) : (r'.goCold r.coldMark).state = r' := by
  cases hinput : r.input? with
  | none => simp [goCold, coldMark, hinput]
  | some source =>
    -- the input is attached before the move, so nothing would be kept if the move could fail
    have hok : (r'.goCold r.coldMark).restored = true :=
      (goCold_restored_iff hr).2 (Option.isSome_of_eq_some hinput)
    rw [h] at hok
    cases hok

/-- Goes back to a bookmark of the given kind that was taken from the reader `place`. -/
def goBack (r place : Reader) : Warmth → Restoration Reader
  | .hot => r.goHot place.hotMark
  | .cold => r.goCold place.coldMark

end Reader

theorem Tokenizer.drain_generation (t : Tokenizer Reader) :
    t.drain.state.scanner.generation = t.scanner.generation := by
  have hnext (t : Tokenizer Reader) : t.next.state.scanner.generation = t.scanner.generation := by
    rw [next_scanner]
    exact t.scanner.next_generation
  fun_induction drain t with
  | case1 t step h => exact hnext t
  | case2 t step item h more ih => exact ih.trans (hnext t)

theorem Tokenizer.goBack_eq (t : Tokenizer Reader) (place : Reader) (w : Warmth) :
    t.goBack place w = t.restored w (t.scanner.goBack place w) := by
  cases w <;> rfl

namespace Session

/-! ## Counting attachments -/

/-- Whether a request attaches an input. -/
def attaches (s : Session Reader) : Request → Bool
  | .attach _ => true
  | .goCold slot => (s.cold.lookup slot).any s.scanner.reattaches
  | _ => false

/-- How often an input is attached on a list of requests. -/
def attachments (s : Session Reader) : List Request → Nat
  | [] => 0
  | r :: rs => (if s.attaches r then 1 else 0) + attachments (s.respond r).state rs

/-- One request raises the number by one if it attaches an input, and else leaves it. -/
theorem respond_generation (s : Session Reader) (r : Request) :
    (s.respond r).state.scanner.generation =
      s.scanner.generation + if s.attaches r then 1 else 0 := by
  cases r with
  | next =>
    simp only [respond, ofTokenizer, scanner, Tokenizer.next_scanner]
    exact s.scanner.next_generation
  | drain => exact s.tokenizer.drain_generation
  | directive => exact s.scanner.nextDirective_generation
  | lexeme => exact s.scanner.next_generation
  | rawDirective => exact s.scanner.nextDirective_generation
  | goHot slot =>
    simp only [respond]
    split
    · rfl
    · simp only [ofTokenizer, Tokenizer.goHot, Tokenizer.restored_state]
      exact s.scanner.goHot_generation _
  | goCold slot =>
    simp only [respond, attaches]
    split
    · rename_i hnone
      simp [hnone]
    · rename_i m hm
      simp only [ofTokenizer, Tokenizer.goCold, Tokenizer.restored_state, hm, Option.any_some]
      exact s.scanner.goCold_generation m
  | configure text =>
    simp only [respond]
    split <;> rfl
  | _ => rfl

/-- The reader counts the attachments of its course. -/
theorem generation_after (s : Session Reader) (requests : List Request) :
    (s.after requests).scanner.generation = s.scanner.generation + s.attachments requests := by
  induction requests generalizing s with
  | nil => rfl
  | cons r rs ih =>
    have hfirst := s.respond_generation r
    have hrest : (s.after (r :: rs)).scanner.generation = _ := ih (s.respond r).state
    rw [hrest, hfirst, attachments, Nat.add_assoc]

theorem after_follows (s : Session Reader) (requests : List Request) :
    s.scanner.Follows (s.after requests).scanner := by
  induction requests generalizing s with
  | nil => exact .refl _
  | cons r rs ih =>
    have hfirst : s.scanner.Follows (s.respond r).state.scanner := by
      by_cases hr : r = .forget
      · subst hr
        exact .refl _
      · exact (s.respond_moves hr).follows
    exact hfirst.trans (ih _)

/-! ## Going back -/

/-- After any course, a bookmark can be restored if an input was attached when it was taken, and
a hot one only if none was attached since. Then the reader stands exactly where it stood; else
nothing changes. The words stay known in either case. -/
theorem goBack_restored {s : Session Reader} (hs : s.Reachable) (requests : List Request)
    (w : Warmth) :
    let later := s.after requests
    let back := later.scanner.goBack s.scanner w
    (back.restored = true ↔
        s.scanner.input?.isSome ∧ (w = .hot → s.attachments requests = 0)) ∧
      (back.restored = true → back.state.cursor = s.scanner.cursor) ∧
      (back.restored = false → back.state = later.scanner) ∧
      (later.tokenizer.goBack s.scanner w).value =
        (if back.restored then .ok () else .error .staleBookmark) ∧
      (later.tokenizer.goBack s.scanner w).state = ⟨back.state, later.tokenizer.words⟩ := by
  intro later back
  have hstanding := hs.placed.standing
  have hfollows := s.after_follows requests
  have htokenizer : later.tokenizer.goBack s.scanner w = later.tokenizer.restored w back :=
    Tokenizer.goBack_eq _ _ _
  have hvalue : (later.tokenizer.restored w back).value =
      if back.restored then .ok () else .error .staleBookmark := by
    unfold Tokenizer.restored
    split <;> rfl
  rw [htokenizer, Tokenizer.restored_state]
  cases w with
  | hot =>
    have hcount : later.scanner.generation = s.scanner.generation ↔
        s.attachments requests = 0 := by
      have hafter := s.generation_after requests
      show (s.after requests).scanner.generation = _ ↔ _
      omega
    refine ⟨(Reader.goHot_restored_iff hstanding hfollows).trans ?_,
      Reader.goHot_cursor hfollows, Reader.goHot_state, hvalue, rfl⟩
    exact and_congr_right fun _ => hcount.trans ⟨fun h _ => h, fun h => h rfl⟩
  | cold =>
    refine ⟨(Reader.goCold_restored_iff hstanding).trans ?_, Reader.goCold_cursor,
      Reader.goCold_state hstanding, hvalue, rfl⟩
    exact (and_iff_left fun hw => absurd hw (by decide)).symm

/-- A session behind the first word of a source. -/
def behindWord : Session Reader :=
  (Session.start Reader.empty []).after
    [.attach ⟨0, ⟨"main", [97, 10, 98], by decide⟩⟩, .next]

/-- The session goes over to another source and there to a bookmark of that source, and then back
by a cold bookmark of its own, which attaches the first source again. -/
def awayAndBack : List Request :=
  [.saveCold "a", .attach ⟨1, ⟨"other", [99], by decide⟩⟩, .saveCold "c", .next, .goCold "c",
    .goCold "a", .next]

/-- The first source is attached again when the bookmarks are tried. For the hot one it is no longer
the same attachment. -/
theorem goBack_behindWord :
    behindWord.Reachable ∧ behindWord.attachments awayAndBack = 2 ∧
      ((behindWord.after awayAndBack).scanner.goBack behindWord.scanner .cold).restored = true ∧
      ((behindWord.after awayAndBack).scanner.goBack behindWord.scanner .cold).state.cursor =
        behindWord.scanner.cursor ∧
      ((behindWord.after awayAndBack).scanner.goBack behindWord.scanner .hot).restored = false ∧
      ((behindWord.after awayAndBack).scanner.goBack behindWord.scanner .hot).state =
        (behindWord.after awayAndBack).scanner := by
  have hreachable : behindWord.Reachable := ⟨[], _, rfl⟩
  have hcount : behindWord.attachments awayAndBack = 2 := by decide +kernel
  have hinput : behindWord.scanner.input?.isSome := by decide +kernel
  obtain ⟨hcold, hplace, -⟩ := goBack_restored hreachable awayAndBack .cold
  obtain ⟨hhot, -, hkept, -⟩ := goBack_restored hreachable awayAndBack .hot
  have hback := hcold.2 ⟨hinput, fun hw => absurd hw (by decide)⟩
  have hstale : ((behindWord.after awayAndBack).scanner.goBack behindWord.scanner .hot).restored =
      false := by
    rw [Bool.eq_false_iff]
    intro hrestored
    have hnone := (hhot.1 hrestored).2 rfl
    rw [hcount] at hnone
    cases hnone
  exact ⟨hreachable, hcount, hback, hplace hback, hstale, hkept hstale⟩

end Session

end SceneTokens
