import SceneTokens.Proofs.Delimited

/-!
# Blanking what is no lexeme

Comments, rejected bytes, a byte order mark and a construct that is not closed do what a blank
does: they keep lexemes apart. `Bytes.blankOutside` puts spaces in their place and leaves the
newlines, so that every byte keeps its offset, line and column.

Whatever is blanked, positions stay (`Position.advance_blankOutside`) and the bytes behind a lexeme
show no more than before (`Bytes.showsNoMore_blankOutside`). If all is blanked but the lexemes of a
scene, what is left is a row of lexemes with blanks between them (`Reader.spaced_readings`), which
is read as the scene was (`Reader.drain_blanked`).
-/

namespace SceneTokens

open Grammar

/-! ## Blanking bytes -/

/-- The blank that takes the place of a byte. A newline stays, to keep the lines. -/
def Byte.blanked (b : UInt8) : UInt8 :=
  if b = newline then newline else space

theorem Byte.isBlank_blanked (b : UInt8) : isBlank (blanked b) = true := by
  unfold blanked
  split <;> decide

/-- Blanking a byte changes no position behind it. -/
theorem Position.step_blanked (p : Position) (b : UInt8) :
    p.step (Byte.blanked b) = p.step b := by
  unfold Byte.blanked step
  split <;> simp_all [Byte.space, Byte.newline]

namespace Bytes

/-- The bytes, which start at `offset`, with a blank at each offset that is not kept. -/
def blankOutside (keep : Nat → Bool) (offset : Nat) (bytes : Bytes) : Bytes :=
  bytes.mapIdx fun i b => if keep (offset + i) then b else Byte.blanked b

variable (keep : Nat → Bool) (offset : Nat)

theorem length_blankOutside (bytes : Bytes) :
    (blankOutside keep offset bytes).length = bytes.length :=
  List.length_mapIdx

theorem blankOutside_cons (b : UInt8) (bytes : Bytes) :
    blankOutside keep offset (b :: bytes) =
      (if keep offset then b else Byte.blanked b) :: blankOutside keep (offset + 1) bytes := by
  rw [blankOutside, List.mapIdx_cons]
  simp only [Nat.add_zero, blankOutside, Nat.add_assoc, Nat.add_comm 1]

theorem blankOutside_append (u v : Bytes) : blankOutside keep offset (u ++ v) =
    blankOutside keep offset u ++ blankOutside keep (offset + u.length) v := by
  rw [blankOutside, List.mapIdx_append]
  simp only [blankOutside, Nat.add_assoc, Nat.add_comm u.length]

/-- Bytes that are kept stay. -/
theorem blankOutside_of_keep {keep : Nat → Bool} {offset : Nat} {bytes : Bytes}
    (h : ∀ i, offset ≤ i → i < offset + bytes.length → keep i = true) :
    blankOutside keep offset bytes = bytes := by
  induction bytes generalizing offset with
  | nil => rfl
  | cons b bytes ih =>
    rw [List.length_cons] at h
    rw [blankOutside_cons, if_pos (h offset (by omega) (by omega)),
      ih fun i hle hlt => h i (by omega) (by omega)]

/-- Bytes of which none is kept are blanks. -/
theorem blanks_blankOutside {keep : Nat → Bool} {offset : Nat} {bytes : Bytes}
    (h : ∀ i, offset ≤ i → i < offset + bytes.length → keep i = false) :
    Blanks (blankOutside keep offset bytes) := by
  induction bytes generalizing offset with
  | nil => exact nofun
  | cons b bytes ih =>
    rw [List.length_cons] at h
    rw [blankOutside_cons, h offset (by omega) (by omega)]
    intro c hc
    rcases List.mem_cons.1 hc with rfl | hc
    · exact Byte.isBlank_blanked b
    · exact ih (fun i hle hlt => h i (by omega) (by omega)) c hc

/-- Blanking hides bytes and brings none into sight. -/
theorem showsNoMore_blankOutside (bytes : Bytes) :
    ShowsNoMore (blankOutside keep offset bytes) bytes := by
  induction bytes generalizing offset with
  | nil => exact showsNoMore_nil []
  | cons b bytes ih =>
    rw [blankOutside_cons]
    split
    · exact (ih (offset + 1)).cons b
    · exact showsNoMore_cons (Byte.isVisible_of_isBlank (Byte.isBlank_blanked b)) _ _

end Bytes

open Bytes

/-- A walk over blanked bytes leads to the same position. -/
theorem Position.advance_blankOutside (keep : Nat → Bool) (offset : Nat) (bytes : Bytes)
    (p : Position) : p.advance (blankOutside keep offset bytes) = p.advance bytes := by
  induction bytes generalizing p offset with
  | nil => rfl
  | cons b bytes ih =>
    rw [blankOutside_cons, advance_cons, advance_cons, ih]
    split
    · rfl
    · rw [step_blanked]

namespace Reader

/-! ## Blanking all but the lexemes -/

/-- Whether an offset lies within one of the readings. -/
def Reading.covers (xs : List Reading) (i : Nat) : Bool :=
  xs.any fun x => x.start ≤ i && i < x.stop

namespace Reading

variable {x : Reading} {xs : List Reading} {i : Nat}

theorem covers_cons (x : Reading) (xs : List Reading) (i : Nat) :
    covers (x :: xs) i = ((x.start ≤ i && i < x.stop) || covers xs i) :=
  List.any_cons

theorem covers_within (hstart : x.start ≤ i) (hstop : i < x.stop) :
    covers (x :: xs) i = true := by
  rw [covers_cons, decide_eq_true hstart, decide_eq_true hstop]
  rfl

theorem covers_behind (hi : x.stop ≤ i) : covers (x :: xs) i = covers xs i := by
  rw [covers_cons, decide_eq_false (Nat.not_lt.2 hi), Bool.and_false, Bool.false_or]

theorem covers_before (hi : i < x.start) : covers (x :: xs) i = covers xs i := by
  rw [covers_cons, decide_eq_false (Nat.not_le.2 hi), Bool.false_and, Bool.false_or]

/-- Nothing is read before the place where a reader stands. -/
theorem Partition.covers_eq_false {settings : Settings} {content : Bytes} {offset : Nat}
    (h : Partition settings content offset xs) (hi : i < offset) : covers xs i = false := by
  induction xs generalizing offset with
  | nil => rfl
  | cons x xs ih =>
    obtain ⟨hle, hlt, -, -, hmore⟩ := h
    rw [covers_before (by omega)]
    exact ih hmore (by omega)

end Reading

/-- The bytes before a reader, blanked but for the lexemes, hold these lexemes and blanks. -/
theorem spaced_readings {keep : Nat → Bool} (r : Reader) : ∀ c, r.cursor = some c →
    c.position.offset ≤ c.handle.content.length →
    (∀ i, c.position.offset ≤ i → keep i = Reading.covers r.readings i) →
    Spaced r.settings.encoding c.position (r.readings.map Reading.lexeme)
      (blankOutside keep c.position.offset c.rest) := by
  fun_induction readings r with
  | case1 r h =>
    intro c hc hle hkeep
    exact .nil (blanks_blankOutside fun i hi _ => hkeep i hi)
  | case2 r lexeme h ih =>
    intro c hc hle hkeep
    obtain ⟨stop, gap, raw, after, hfound, hstate⟩ := next_found hc h
    have hcursor : r.next.state.cursor = some ⟨c.handle, stop⟩ := by rw [hstate]
    have hposition : r.next.state.position = stop := by rw [hstate]; rfl
    have hsettings : r.next.state.settings = r.settings := by rw [hstate]
    have hstart := hfound.start_offset
    have hstop := hfound.stop_offset
    have hle' := hfound.stop_le hle
    rw [hposition] at hkeep
    -- the lexeme covers its own bytes, and the later ones cover nothing up to its end
    have hgap : Blanks (blankOutside keep c.position.offset gap) := by
      refine blanks_blankOutside fun i hi hlt => ?_
      have hbefore : i < lexeme.position.offset := by omega
      rw [hkeep i hi, Reading.covers_before hbefore]
      exact (partition_readings hcursor hle').covers_eq_false (by dsimp only; omega)
    have hraw : blankOutside keep lexeme.position.offset raw = raw := by
      refine blankOutside_of_keep fun i hi hlt => ?_
      rw [hkeep i (by omega)]
      exact Reading.covers_within hi (hlt.trans_eq hstop.symm)
    have hlater (i : Nat) (hi : stop.offset ≤ i) :
        keep i = Reading.covers r.next.state.readings i := by
      rw [hkeep i (by omega), Reading.covers_behind hi]
    have hmore := ih ⟨c.handle, stop⟩ hcursor hle' hlater
    rw [hfound.stop_rest, hsettings] at hmore
    rw [hfound.split, blankOutside_append, blankOutside_append, ← hstart, hraw, ← hstop]
    refine .cons hgap (hfound.spelled.of_showsNoMore (showsNoMore_blankOutside _ _ _)) hfound.text
      ?_ ?_
    · rw [Position.advance_blankOutside]
      exact hfound.start
    · rw [← hfound.stop]
      exact hmore

end Reader

/-- The source with every byte outside the readings blanked. -/
def Handle.blanked (h : Handle) (xs : List Reader.Reading) : Handle :=
  ⟨h.key, ⟨h.name, blankOutside (Reader.Reading.covers xs) 0 h.content, by
    rw [length_blankOutside]
    exact h.source.fits⟩⟩

/-- A scene with all bytes but those of its lexemes and its newlines turned into spaces is read,
whether comments nest or not, as the scene is: with the same lexemes at the same places, and to the
same end. -/
theorem Reader.drain_blanked (h : Handle) (settings : Settings) (nested : Bool) :
    let r := Scanner.configure (Reader.ofHandle h) settings
    let r' := Scanner.configure (Reader.ofHandle (h.blanked r.readings))
      ⟨settings.encoding, nested⟩
    (Scanner.drain r').value = (Scanner.drain r).value ∧
      (Scanner.drain r').state.position = (Scanner.drain r).state.position := by
  intro r r'
  have hc : r.cursor = some (.ofHandle h) := rfl
  have hc' : r'.cursor = some (.ofHandle (h.blanked r.readings)) := rfl
  have hspaced := spaced_readings r _ hc (Nat.zero_le _) fun i _ => rfl
  obtain ⟨hvalue, -⟩ := drain_of_spaced hspaced (r := r') rfl hc' rfl rfl
  refine ⟨hvalue.trans (map_lexeme_readings r), ?_⟩
  rw [position, position, drain_cursor r _ hc, drain_cursor r' _ hc']
  exact Position.advance_blankOutside _ _ _ _

end SceneTokens
