import SceneTokens.Proofs.Attachments
import SceneTokens.Proofs.Cuts

/-!
# Progress and the end of an input

A reader that returns a lexeme has moved forward, and one that returns none has reached the end of
its input, also where it is a literal or a comment that is not closed. At the end it stays: nothing
is read, reported or changed any more until an input is attached or a bookmark restored
(`Session.Exhausted`). The settings do not matter there, because there is nothing left to read
with them.

So reading comes to an end. The bytes that are left bound the pieces that are cut for one lexeme,
the lexemes that are passed over for one directive, and the tokens and faults of a drain.
-/

namespace SceneTokens

namespace Reader

/-! ## One lexeme -/

/-- A lexeme that was returned lies between the place before and the place after. -/
theorem next_advances {r : Reader} {c : Cursor} {l : Lexeme} (hc : r.cursor = some c)
    (hle : c.position.offset ≤ c.handle.content.length) (h : r.next.value = some l) :
    ∃ stop, r.next.state.cursor = some ⟨c.handle, stop⟩ ∧
      c.position.offset ≤ l.position.offset ∧ l.position.offset < stop.offset ∧
      stop.offset ≤ c.handle.content.length := by
  obtain ⟨stop, gap, raw, after, hfound, hstate⟩ := next_found hc h
  have hstart := hfound.start_offset
  have hstop := hfound.stop_offset
  have hpos := List.length_pos_iff.2 hfound.spelled.ne_nil
  exact ⟨stop, by rw [hstate], by omega, by omega, hfound.stop_le hle⟩

/-- The reader has an input and stands at its end. -/
def AtEnd (r : Reader) : Prop :=
  ∃ c, r.cursor = some c ∧ c.position.offset = c.handle.content.length

theorem AtEnd.of_cursor {r r' : Reader} (h : r.AtEnd) (heq : r'.cursor = r.cursor) :
    r'.AtEnd := by
  obtain ⟨c, hc, hoffset⟩ := h
  exact ⟨c, heq.trans hc, hoffset⟩

/-- A reader that returned no lexeme is at the end of its input. -/
theorem next_ends {r : Reader} {c : Cursor} (hc : r.cursor = some c)
    (hle : c.position.offset ≤ c.handle.content.length) (h : r.next.value = none) :
    ∃ stop, r.next.state.cursor = some ⟨c.handle, stop⟩ ∧
      stop.offset = c.handle.content.length := by
  obtain ⟨-, hstate⟩ := next_remainder hc h
  refine ⟨_, congrArg cursor hstate, ?_⟩
  simp only [Position.advance_offset, Cursor.rest, List.length_drop]
  omega

/-- At the end a reader finds nothing, stays there and reports nothing. -/
theorem AtEnd.next {r : Reader} (h : r.AtEnd) : r.next = ⟨none, r, []⟩ := by
  obtain ⟨c, hc, hoffset⟩ := h
  have hrest : c.rest = [] := by simp [Cursor.rest, hoffset]
  have hsame : { r with cursor := some c } = r := by rw [← hc]
  simp [Reader.next, hc, hrest, scan, hsame]

theorem AtEnd.nextDirective {r : Reader} (h : r.AtEnd) : r.nextDirective = ⟨none, r, []⟩ := by
  have hnone : r.next.value = none := by rw [h.next]
  rw [Reader.nextDirective]
  split
  · exact h.next
  · rename_i hsome
    cases hnone.symm.trans hsome

/-! ## How much is done for one request -/

/-- Every piece takes at least one of the bytes that are left. -/
theorem cutsFrom_length_le (settings : Settings) (position : Position) (bytes : Bytes) :
    (cutsFrom settings position bytes).length ≤ bytes.length := by
  fun_induction cutsFrom settings position bytes with
  | case1 => exact Nat.le_refl _
  | case2 position b rest piece lexeme hpiece => simp
  | case3 position b rest piece hpiece ih =>
    have hpos : 0 < piece.raw.length := List.length_pos_iff.2 (Piece.cut_raw_ne_nil _ _ b rest)
    have hlength : ((b :: rest).drop piece.raw.length).length =
        rest.length + 1 - piece.raw.length := by simp
    rw [List.length_cons, List.length_cons]
    omega

theorem cuts_length_le (r : Reader) : r.cuts.length ≤ r.remaining := by
  cases hc : r.cursor with
  | none => simp [cuts, hc]
  | some c =>
    simp only [cuts, remaining, hc]
    exact cutsFrom_length_le _ _ _

theorem remaining_eq {r : Reader} {c : Cursor} (hc : r.cursor = some c) :
    r.remaining = c.handle.content.length - c.position.offset := by
  simp [remaining, hc, Cursor.rest]

end Reader

namespace Tokenizer

variable {σ : Type} [Scanner σ]

/-- Every item of a drain, a token or a fault, lowers the bound of the scanner. -/
theorem drain_length_le (t : Tokenizer σ) :
    t.drain.value.length ≤ Scanner.remaining t.scanner := by
  fun_induction drain t with
  | case1 t step h => exact Nat.zero_le _
  | case2 t step item h more ih =>
    have hlt := Scanner.next_remaining t.scanner
      (t.next_isSome ▸ Option.isSome_of_eq_some h)
    rw [← next_scanner] at hlt
    rw [List.length_cons]
    exact Nat.lt_of_le_of_lt ih hlt

theorem next_of_atEnd {t : Tokenizer Reader} (h : t.scanner.AtEnd) : t.next = ⟨none, t, []⟩ := by
  have hnext : Scanner.next t.scanner = ⟨none, t.scanner, []⟩ := h.next
  have hnone : (Scanner.next t.scanner).value = none := by rw [hnext]
  rw [next_of_none hnone, hnext]

theorem drain_of_atEnd {t : Tokenizer Reader} (h : t.scanner.AtEnd) :
    t.drain = ⟨[], t, []⟩ := by
  have hnext := next_of_atEnd h
  have hnone : t.next.value = none := by rw [hnext]
  rw [drain_of_none hnone, hnext]

end Tokenizer

namespace Session

/-! ## One request after another -/

/-- Draining returns what asking for one token after another returns, and ends with the first
request that is answered by none. -/
theorem next_after_replicate {σ : Type} [Scanner σ] (s : Session σ) (i : Nat)
    (hi : i ≤ s.tokenizer.drain.value.length) :
    (s.after (List.replicate i .next)).tokenizer.next.value = s.tokenizer.drain.value[i]? := by
  induction i generalizing s with
  | zero =>
    show s.tokenizer.next.value = _
    cases h : s.tokenizer.next.value with
    | none => rw [Tokenizer.drain_of_none h, List.getElem?_nil]
    | some item => rw [Tokenizer.drain_of_some h, List.getElem?_cons_zero]
  | succ i ih =>
    cases h : s.tokenizer.next.value with
    | none =>
      rw [Tokenizer.drain_of_none h] at hi
      cases hi
    | some item =>
      rw [Tokenizer.drain_of_some h] at hi ⊢
      exact ih (s.respond .next).state (Nat.le_of_succ_le_succ hi)

/-- A directive is what one of the next lexemes is, or nothing if the end comes first. -/
theorem nextDirective_after_replicate (s : Session Reader) :
    ∃ k ≤ s.scanner.remaining,
      let last := (s.after (List.replicate k .lexeme)).scanner.next
      s.scanner.nextDirective.value = last.value ∧
        s.scanner.nextDirective.state = last.state := by
  generalize hn : s.scanner.remaining = n
  induction n using Nat.strong_induction_on generalizing s with
  | _ n ih =>
    rw [Reader.nextDirective]
    split
    · exact ⟨0, Nat.zero_le _, rfl, rfl⟩
    · rename_i l hl
      have hlt := s.scanner.next_remaining (Option.isSome_of_eq_some hl)
      split
      · exact ⟨0, Nat.zero_le _, rfl, rfl⟩
      · obtain ⟨k, hk, hdirective⟩ := ih _ (hn ▸ hlt) (s.respond .lexeme).state rfl
        refine ⟨k + 1, ?_, hdirective⟩
        have hk' : k ≤ s.scanner.next.state.remaining := hk
        omega

/-! ## Staying at the end -/

/-- Whether a request attaches an input or restores a bookmark. -/
def departs (s : Session Reader) : Request → Bool
  | .attach _ => true
  | .goHot slot => (s.hot.lookup slot).any fun m => (Scanner.goHot s.scanner m).restored
  | .goCold slot => (s.cold.lookup slot).any fun m => (Scanner.goCold s.scanner m).restored
  | _ => false

/-- Whether none of a list of requests does. -/
def stays (s : Session Reader) : List Request → Bool
  | [] => true
  | r :: rs => !s.departs r && stays (s.respond r).state rs

/-- Nothing is left to read: whatever lexeme, token or directive is asked for, there is none, and
the asking is not reported and changes nothing. -/
structure Exhausted (s : Session Reader) : Prop where
  next : s.scanner.next = ⟨none, s.scanner, []⟩
  nextDirective : s.scanner.nextDirective = ⟨none, s.scanner, []⟩
  token : s.tokenizer.next = ⟨none, s.tokenizer, []⟩
  directive : s.tokenizer.nextDirective = ⟨none, s.tokenizer, []⟩
  drain : s.tokenizer.drain = ⟨[], s.tokenizer, []⟩

/-- At the end of the input nothing is left, whatever is asked for. -/
theorem exhausted_of_atEnd {s : Session Reader} (h : s.scanner.AtEnd) : s.Exhausted where
  next := h.next
  nextDirective := h.nextDirective
  token := Tokenizer.next_of_atEnd h
  directive := by
    have hnext : Scanner.nextDirective s.tokenizer.scanner = ⟨none, s.tokenizer.scanner, []⟩ :=
      h.nextDirective
    rw [Tokenizer.nextDirective, hnext]
    rfl
  drain := Tokenizer.drain_of_atEnd h

/-- A step of the session that leaves its reader where it is and warns of nothing. -/
structure Rests (s : Session Reader) (step : Step (Session Reader) Reply) : Prop where
  cursor : step.state.scanner.cursor = s.scanner.cursor
  generation : step.state.scanner.generation = s.scanner.generation
  silent : ∀ e ∈ step.events, e.level ≠ .warn

theorem rests_of_cursor {s : Session Reader} {step : Step (Session Reader) Reply}
    (hcursor : step.state.scanner.cursor = s.scanner.cursor)
    (hgeneration : step.state.scanner.generation = s.scanner.generation)
    (hevents : step.events = []) : s.Rests step :=
  ⟨hcursor, hgeneration, by simp [hevents]⟩

theorem rests_of_scanner {s : Session Reader} {step : Step (Session Reader) Reply}
    (h : step.state.scanner = s.scanner) (hevents : step.events = []) : s.Rests step :=
  rests_of_cursor (by rw [h]) (by rw [h]) hevents

/-- Going back in vain moves nothing. It is reported, but not as a warning. -/
theorem rests_restored {s : Session Reader} {w : Warmth} {r : Restoration Reader}
    (hfailed : r.restored = false) (hstate : r.state = s.scanner) :
    s.Rests (s.ofTokenizer (s.tokenizer.restored w r) restoreReply) := by
  rw [Tokenizer.restored, hfailed, hstate]
  refine ⟨rfl, rfl, ?_⟩
  intro e he
  obtain rfl := List.mem_singleton.1 he
  simp [Event.level]

/-- At the end of its input a session stays where it is. A bookmark that cannot be restored leaves
the reader alone, and one that can is excluded. -/
theorem respond_rests {s : Session Reader} (hs : s.Placed) (hend : s.scanner.AtEnd) {r : Request}
    (hr : s.departs r = false) : s.Rests (s.respond r) := by
  have hexhausted := exhausted_of_atEnd hend
  cases r with
  | next =>
    exact rests_of_scanner (congrArg (fun step => step.state.scanner) hexhausted.token)
      (congrArg Step.events hexhausted.token)
  | drain =>
    exact rests_of_scanner (congrArg (fun step => step.state.scanner) hexhausted.drain)
      (congrArg Step.events hexhausted.drain)
  | directive =>
    exact rests_of_scanner (congrArg (fun step => step.state.scanner) hexhausted.directive)
      (congrArg Step.events hexhausted.directive)
  | lexeme =>
    exact rests_of_scanner (congrArg Step.state hexhausted.next)
      (congrArg Step.events hexhausted.next)
  | rawDirective =>
    exact rests_of_scanner (congrArg Step.state hexhausted.nextDirective)
      (congrArg Step.events hexhausted.nextDirective)
  | goHot slot =>
    simp only [respond]
    split
    · exact rests_of_scanner rfl rfl
    · rename_i m hm
      have hfailed : (Scanner.goHot s.scanner m).restored = false := by
        simpa [departs, hm] using hr
      exact rests_restored hfailed (Reader.goHot_state hfailed)
  | goCold slot =>
    simp only [respond]
    split
    · exact rests_of_scanner rfl rfl
    · rename_i m hm
      have hfailed : (Scanner.goCold s.scanner m).restored = false := by
        simpa [departs, hm] using hr
      -- a bookmark of another input would attach it before failing, were it not placed
      obtain ⟨q, hq, rfl⟩ := hs.cold _ (mem_of_lookup hm)
      exact rests_restored hfailed (Reader.goCold_state hq hfailed)
  | attach input => cases hr
  | setEncoding encoding => exact rests_of_cursor rfl rfl rfl
  | setNested nested => exact rests_of_cursor rfl rfl rfl
  | configure text =>
    simp only [respond]
    split
    · exact rests_of_cursor rfl rfl rfl
    · exact rests_of_scanner rfl rfl
  | saveHot | saveCold | lookUp | line | forget => exact rests_of_scanner rfl rfl

/-- What moves and forgetting keep, every request keeps. -/
theorem Placed.respond {s : Session Reader} (hs : s.Placed) (r : Request) :
    (s.respond r).state.Placed := by
  by_cases hr : r = .forget
  · subst hr
    exact ⟨hs.standing, hs.hot, hs.cold⟩
  · exact (s.respond_moves hr).keep (fun _ _ hmove h => hmove.placed h) hs

/-- At the end of its input a session stays, whatever it is asked for, until it is told to leave. -/
theorem steps_rest {s : Session Reader} (hs : s.Placed) (hend : s.scanner.AtEnd)
    {requests : List Request} (hstays : s.stays requests = true) :
    (s.after requests).scanner.cursor = s.scanner.cursor ∧
      (s.after requests).scanner.generation = s.scanner.generation ∧
      ∀ step ∈ s.steps requests, ∀ e ∈ step.events, e.level ≠ .warn := by
  induction requests generalizing s with
  | nil => exact ⟨rfl, rfl, by simp [steps]⟩
  | cons r rs ih =>
    obtain ⟨hr, hrs⟩ : s.departs r = false ∧ (s.respond r).state.stays rs = true := by
      simpa [stays] using hstays
    have hrests := respond_rests hs hend hr
    obtain ⟨hcursor, hgeneration, hsilent⟩ :=
      ih (hs.respond r) (hend.of_cursor hrests.cursor) hrs
    refine ⟨hcursor.trans hrests.cursor, hgeneration.trans hrests.generation, ?_⟩
    intro step hstep
    rcases List.mem_cons.1 hstep with rfl | hstep
    · exact hrests.silent
    · exact hsilent step hstep

/-! ## Reading comes to an end -/

/-- What is asked of the reader for its next lexeme, its meaning given or left open. -/
def reads : List Request :=
  [.lexeme, .next]

theorem respond_reads {s : Session Reader} {read : Request} (h : read ∈ reads) :
    (s.respond read).state.scanner = s.scanner.next.state := by
  simp only [reads, List.mem_cons, List.not_mem_nil, or_false] at h
  rcases h with rfl | rfl
  · rfl
  · exact s.tokenizer.next_scanner

/-- A reader with an input moves forward with every lexeme and comes to the end with the first
request that is answered by none. There the session stays until an input is attached or a bookmark
restored, and what is left of the input bounds all that is read before. -/
theorem next_advances_or_ends {s : Session Reader} (hs : s.Reachable) {c : Cursor}
    (hc : s.scanner.cursor = some c) :
    let left := c.handle.content.length - c.position.offset
    (∀ l, s.scanner.next.value = some l →
      ∃ stop, s.scanner.next.state.cursor = some ⟨c.handle, stop⟩ ∧
        c.position.offset ≤ l.position.offset ∧ l.position.offset < stop.offset ∧
        stop.offset ≤ c.handle.content.length) ∧
    (s.scanner.next.value = none →
      (∃ stop, s.scanner.next.state.cursor = some ⟨c.handle, stop⟩ ∧
        stop.offset = c.handle.content.length) ∧
      ∀ read ∈ reads, ∀ requests, (s.respond read).state.stays requests = true →
        let later := (s.respond read).state.after requests
        later.Exhausted ∧ later.scanner.cursor = s.scanner.next.state.cursor ∧
          later.scanner.generation = s.scanner.generation ∧
          ∀ step ∈ (s.respond read).state.steps requests, ∀ e ∈ step.events, e.level ≠ .warn) ∧
    s.scanner.cuts.length ≤ left ∧
    (∃ k ≤ left,
      let last := (s.after (List.replicate k .lexeme)).scanner.next
      s.scanner.nextDirective.value = last.value ∧
        s.scanner.nextDirective.state = last.state) ∧
    s.tokenizer.drain.value.length ≤ left ∧
    ∀ i ≤ s.tokenizer.drain.value.length,
      (s.after (List.replicate i .next)).tokenizer.next.value = s.tokenizer.drain.value[i]? := by
  intro left
  have hplaced := hs.placed
  have hle := (hplaced.standing c hc).1
  have hleft : s.scanner.remaining = left := Reader.remaining_eq hc
  refine ⟨fun l hl => Reader.next_advances hc hle hl, fun hnone => ?_,
    hleft ▸ s.scanner.cuts_length_le, hleft ▸ s.nextDirective_after_replicate,
    hleft ▸ s.tokenizer.drain_length_le, s.next_after_replicate⟩
  obtain ⟨stop, hstop, hoffset⟩ := Reader.next_ends hc hle hnone
  refine ⟨⟨stop, hstop, hoffset⟩, ?_⟩
  intro read hread requests hstays later
  have hscanner := respond_reads (s := s) hread
  have hend : (s.respond read).state.scanner.AtEnd := hscanner ▸ ⟨_, hstop, hoffset⟩
  obtain ⟨hcursor, hgeneration, hsilent⟩ := steps_rest (hplaced.respond read) hend hstays
  rw [hscanner] at hcursor hgeneration
  exact ⟨exhausted_of_atEnd (hend.of_cursor (hscanner ▸ hcursor)), hcursor,
    hgeneration.trans s.scanner.next_generation, hsilent⟩

/-- A session behind the word of `a "b`, with a bookmark of another source. -/
def beforeOpenLiteral : Session Reader :=
  (Session.start Reader.empty []).after
    [.attach ⟨0, ⟨"other", [98, 99], by decide⟩⟩, .saveHot "m",
      .attach ⟨1, ⟨"main", [97, 32, 34, 98], by decide⟩⟩, .lexeme]

/-- Requests that change the settings, go back in vain and read on. -/
def idleRequests : List Request :=
  [.setNested true, .setEncoding .ascii, .saveCold "c", .goHot "m", .goCold "m", .next, .drain,
    .rawDirective]

/-- The literal is not closed and ends the source. No request of the list leads away from there. -/
theorem next_advances_or_ends_beforeOpenLiteral :
    let idle := (beforeOpenLiteral.respond .next).state.after idleRequests
    beforeOpenLiteral.Reachable ∧ beforeOpenLiteral.scanner.next.value = none ∧
      (beforeOpenLiteral.respond .next).state.stays idleRequests = true ∧ idle.Exhausted ∧
      idle.scanner.cursor = beforeOpenLiteral.scanner.next.state.cursor ∧
      beforeOpenLiteral.tokenizer.drain.value.length ≤ 4 - 1 := by
  intro idle
  have hreachable : beforeOpenLiteral.Reachable := ⟨[], _, rfl⟩
  have hcursor : beforeOpenLiteral.scanner.cursor =
      some ⟨⟨1, ⟨"main", [97, 32, 34, 98], by decide⟩⟩, ⟨1, 1, 2⟩⟩ := by decide +kernel
  have hnone : beforeOpenLiteral.scanner.next.value = none := by decide +kernel
  have hstays : (beforeOpenLiteral.respond .next).state.stays idleRequests = true := by
    decide +kernel
  obtain ⟨-, hend, -, -, hdrain, -⟩ := next_advances_or_ends hreachable hcursor
  obtain ⟨hexhausted, hplace, -⟩ := (hend hnone).2 .next (by decide) idleRequests hstays
  exact ⟨hreachable, hnone, hstays, hexhausted, hplace, hdrain⟩

end Session

end SceneTokens
