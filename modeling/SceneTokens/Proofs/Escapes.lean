import SceneTokens.Proofs.Transcoding
import SceneTokens.Quoted.Payload

/-!
# Escapes

An escape is a backslash with one of ten letters, or with `u` or `U` and as many hexadecimal
digits as the letter asks for, of which the value must be that of a character (`Grammar.Escape`).
`Payload.escape` recognises exactly these (`Payload.escape_sound`, `Payload.escape_of_isPrefix`).

`Payload.split` goes from one spelling to the next, and a spelling that is no escape has no
backslash. So what lies before the place where it gets stuck is free of malformed escapes
(`Grammar.WellEscaped`), and at that place stands a backslash that begins none
(`Payload.split_stuck`).
-/

namespace SceneTokens

namespace Grammar

/-! ## The grammar of escapes -/

/-- The letters that make an escape alone, with the characters they stand for. -/
def letterEscapes : List (UInt8 × Char) := [
  (0x61, Char.ofNat 0x07),
  (0x62, Char.ofNat 0x08),
  (0x74, Char.ofNat 0x09),
  (0x6E, Char.ofNat 0x0A),
  (0x76, Char.ofNat 0x0B),
  (0x66, Char.ofNat 0x0C),
  (0x72, Char.ofNat 0x0D),
  (0x27, Char.ofNat 0x27),
  (Byte.quote, Char.ofNat 0x22),
  (Byte.backslash, Char.ofNat 0x5C)]

/-- The letters that ask for digits, with the number of digits. -/
def numericEscapes : List (UInt8 × Nat) := [(0x75, 4), (0x55, 6)]

/-- Hexadecimal digits of either case. -/
def HexDigits (d : Bytes) : Prop :=
  ∀ b ∈ d, (Byte.hexValue? b).isSome

instance (d : Bytes) : Decidable (HexDigits d) :=
  List.decidableBAll _ d

/-- The number that hexadecimal digits denote. -/
def hexValue (d : Bytes) : Nat :=
  d.foldl (fun value b => value * 16 + (Byte.hexValue? b).getD 0) 0

/-- An escape and the character it stands for. -/
inductive Escape : Bytes → Char → Prop
  | letter {b : UInt8} {c : Char} : (b, c) ∈ letterEscapes → Escape [Byte.backslash, b] c
  | numeric {b : UInt8} {d : Bytes} {c : Char} : (b, d.length) ∈ numericEscapes → HexDigits d →
      hexValue d = c.toNat → Escape (Byte.backslash :: b :: d) c

/-- Bytes of a payload in which every backslash begins an escape or is the letter of one. -/
inductive WellEscaped : Bytes → Prop
  | nil : WellEscaped []
  | plain {b : UInt8} {p : Bytes} : b ≠ Byte.backslash → WellEscaped p → WellEscaped (b :: p)
  | escape {e p : Bytes} {c : Char} : Escape e c → WellEscaped p → WellEscaped (e ++ p)

theorem WellEscaped.plain_append {run p : Bytes} (hrun : Byte.backslash ∉ run)
    (hp : WellEscaped p) : WellEscaped (run ++ p) := by
  induction run with
  | nil => exact hp
  | cons b run ih =>
    rw [List.mem_cons, not_or] at hrun
    exact .plain (Ne.symm hrun.1) (ih hrun.2)

theorem HexDigits.isAscii {d : Bytes} (hd : HexDigits d) :
    ∀ b ∈ d, Byte.isAscii b = true ∧ b ≠ Byte.quote ∧ b ≠ Byte.backslash := by
  intro b hb
  exact Byte.forall_of_lt (P := fun b => (Byte.hexValue? b).isSome → Byte.isAscii b = true ∧
    b ≠ Byte.quote ∧ b ≠ Byte.backslash) (by decide +kernel) b (hd b hb)

/-- Every escape is a backslash, a letter and digits, if any. -/
theorem Escape.shape {e : Bytes} {c : Char} (h : Escape e c) : ∃ b d,
    e = Byte.backslash :: b :: d ∧ Byte.isAscii b = true ∧ HexDigits d := by
  cases h with
  | @letter b _ hb =>
    have hletters : ∀ x ∈ letterEscapes, Byte.isAscii x.1 = true := by decide
    exact ⟨b, [], rfl, hletters _ hb, by simp [HexDigits]⟩
  | @numeric b d _ hb hd _ =>
    have hletters : ∀ x ∈ numericEscapes, Byte.isAscii x.1 = true := by decide
    exact ⟨b, d, rfl, hletters _ hb, hd⟩

theorem WellEscaped.tail {b : UInt8} {p : Bytes} (h : WellEscaped (b :: p))
    (hb : b ≠ Byte.backslash) : WellEscaped p := by
  generalize hx : b :: p = x at h
  cases h with
  | nil => cases hx
  | plain _ hp =>
    obtain ⟨-, rfl⟩ := List.cons.inj hx
    exact hp
  | escape he _ =>
    obtain ⟨_, _, rfl, -, -⟩ := he.shape
    exact absurd (List.cons.inj hx).1 hb

theorem WellEscaped.of_plain_append {run p : Bytes} (hrun : Byte.backslash ∉ run)
    (h : WellEscaped (run ++ p)) : WellEscaped p := by
  induction run with
  | nil => exact h
  | cons b run ih =>
    rw [List.mem_cons, not_or] at hrun
    exact ih hrun.2 (h.tail (Ne.symm hrun.1))

/-- A backslash of a well-escaped text begins an escape. -/
theorem WellEscaped.exists_escape {t : Bytes} (h : WellEscaped (Byte.backslash :: t)) :
    ∃ u c p, t = u ++ p ∧ Escape (Byte.backslash :: u) c ∧ WellEscaped p := by
  generalize hx : Byte.backslash :: t = x at h
  cases h with
  | nil => cases hx
  | plain hb _ => exact absurd (List.cons.inj hx).1.symm hb
  | @escape _ p c he hp =>
    obtain ⟨b, d, rfl, -, -⟩ := he.shape
    exact ⟨b :: d, c, p, (List.cons.inj hx).2, he, hp⟩

/-- Escapes are all ASCII. -/
theorem Escape.isAscii {e : Bytes} {c : Char} (h : Escape e c) :
    ∀ b ∈ e, Byte.isAscii b = true := by
  obtain ⟨b, d, rfl, hb, hd⟩ := h.shape
  intro x hx
  rcases List.mem_cons.1 hx with rfl | hx
  · exact Byte.isAscii_backslash
  · rcases List.mem_cons.1 hx with rfl | hx
    · exact hb
    · exact (hd.isAscii x hx).1

/-- So transcoding brings no malformed escape in. -/
theorem WellEscaped.of_transcodeAll {e : Encoding} :
    ∀ {p : Bytes}, WellEscaped (e.transcodeAll p) → WellEscaped p
  | [], _ => .nil
  | b :: p, h => by
    by_cases hb : b = Byte.backslash
    · subst hb
      rw [Encoding.transcodeAll_cons_of_isAscii e Byte.isAscii_backslash] at h
      obtain ⟨u, c, q, hu, he, hq⟩ := h.exists_escape
      obtain ⟨p, rfl, rfl⟩ := Encoding.transcodeAll_eq_append
        (fun x hx => he.isAscii x (List.mem_cons_of_mem _ hx)) hu
      exact .escape he (of_transcodeAll hq)
    · rw [Encoding.transcodeAll_cons] at h
      have hnot : Byte.backslash ∉ e.transcode b := e.not_mem_transcode Byte.isAscii_backslash hb
      exact .plain hb (of_transcodeAll (h.of_plain_append hnot))
termination_by p => p.length

end Grammar

open Grammar

/-! ## Characters -/

theorem Utf8.char?_eq_some_iff {n : Nat} {c : Char} : char? n = some c ↔ n = c.toNat := by
  have hvalid : isScalar n = true ↔ n.isValidChar := by
    simp only [isScalar, Nat.isValidChar, Bool.and_eq_true, decide_eq_true_eq, Bool.not_eq_true',
      Bool.and_eq_false_iff, decide_eq_false_iff_not]
    omega
  unfold char?
  constructor
  · intro h
    split at h
    · rename_i hscalar
      obtain rfl := Option.some.inj h
      rw [Char.ofNat, dif_pos (hvalid.1 hscalar)]
      rfl
    · cases h
  · rintro rfl
    rw [if_pos (hvalid.2 c.valid), Char.ofNat_toNat]

/-- The bytes of a sequence after the first are outside ASCII. -/
theorem Utf8.take_sequence (b : UInt8) (rest : Bytes) : ∃ run,
    (b :: rest).take (sequence (b :: rest)).size = b :: run ∧
      ∀ c ∈ run, Byte.isAscii c = false := by
  have hrun (n : Nat) : (b :: rest).take (1 + (continuations n rest).length) =
      b :: continuations n rest := by
    have hpre : continuations n rest <+: rest :=
      (List.takeWhile_prefix _).trans (List.take_prefix n rest)
    rw [Nat.add_comm, List.take_succ_cons, ← List.prefix_iff_eq_take.1 hpre]
  have hbytes (n : Nat) : ∀ c ∈ continuations n rest, Byte.isAscii c = false := by
    intro c hc
    have hcont : isContinuation c = true := List.all_eq_true.1 List.all_takeWhile c hc
    exact Byte.forall_of_lt (P := fun c => isContinuation c = true → Byte.isAscii c = false)
      (by decide +kernel) c hcont
  simp only [sequence]
  split
  · exact ⟨[], by simp, by simp⟩
  · split
    · exact ⟨[], by simp, by simp⟩
    · rename_i a ha
      split
      · exact ⟨_, hrun a.more, hbytes a.more⟩
      · exact ⟨_, hrun a.more, hbytes a.more⟩

namespace Payload

theorem foldlM_hex {d : Bytes} {value n : Nat} :
    d.foldlM (fun value b => (Byte.hexValue? b).map (value * 16 + ·)) value = some n ↔
      HexDigits d ∧ n = d.foldl (fun value b => value * 16 + (Byte.hexValue? b).getD 0) value := by
  induction d generalizing value with
  | nil => simpa [HexDigits] using eq_comm
  | cons b d ih =>
    rw [List.foldlM_cons, List.foldl_cons]
    cases hb : Byte.hexValue? b with
    | none => simp [HexDigits, hb]
    | some v => simp [HexDigits, hb, ih]

/-- A numeric escape has all of its digits, and they are the number of a character. -/
theorem numericEscape?_eq_some_iff {n : Nat} {rest : Bytes} {c : Char} :
    numericEscape? n rest = some c ↔
      n ≤ rest.length ∧ HexDigits (rest.take n) ∧ hexValue (rest.take n) = c.toNat := by
  unfold numericEscape?
  split
  · rename_i hle
    simp only [Option.bind_eq_some_iff, hexNumber?, foldlM_hex, Utf8.char?_eq_some_iff]
    constructor
    · rintro ⟨value, ⟨hdigits, rfl⟩, hvalue⟩
      exact ⟨hle, hdigits, hvalue⟩
    · rintro ⟨-, hdigits, hvalue⟩
      exact ⟨_, ⟨hdigits, rfl⟩, hvalue⟩
  · rename_i hlt
    simp [hlt]

theorem letterEscape?_eq_some_iff {b : UInt8} {c : Char} :
    letterEscape? b = some c ↔ (b, c) ∈ letterEscapes := by
  have hsound : (letterEscape? b).all fun c => (b, c) ∈ letterEscapes :=
    Byte.forall_of_lt (P := fun b => (letterEscape? b).all fun c => (b, c) ∈ letterEscapes)
      (by decide +kernel) b
  have hcomplete : ∀ x ∈ letterEscapes, letterEscape? x.1 = some x.2 := by decide
  refine ⟨fun h => ?_, hcomplete (b, c)⟩
  simpa [h] using hsound

theorem hexDigits?_eq_some_iff {b : UInt8} {n : Nat} :
    hexDigits? b = some n ↔ (b, n) ∈ numericEscapes := by
  have hsound : (hexDigits? b).all fun n => (b, n) ∈ numericEscapes :=
    Byte.forall_of_lt (P := fun b => (hexDigits? b).all fun n => (b, n) ∈ numericEscapes)
      (by decide +kernel) b
  have hcomplete : ∀ x ∈ numericEscapes, hexDigits? x.1 = some x.2 := by decide
  refine ⟨fun h => ?_, hcomplete (b, n)⟩
  simpa [h] using hsound

/-! ## Reading an escape -/

/-- What is read as an escape is one. -/
theorem escape_sound {rest : Bytes} {s : Spelling} (h : escape rest = .ok s) :
    ∃ c, s.char = some c ∧ Escape s.raw c ∧ s.raw <+: Byte.backslash :: rest := by
  unfold escape at h
  split at h
  · cases h
  · rename_i b rest
    split at h
    · rename_i c hc
      obtain rfl := Except.ok.inj h
      exact ⟨c, rfl, .letter (letterEscape?_eq_some_iff.1 hc), by simp⟩
    · split at h
      · rename_i n hn
        dsimp only at h
        split at h
        · rename_i c hc
          obtain rfl := Except.ok.inj h
          obtain ⟨hle, hdigits, hvalue⟩ := numericEscape?_eq_some_iff.1 hc
          have hlength : (rest.take n).length = n := List.length_take_of_le hle
          have hletter : (b, (rest.take n).length) ∈ numericEscapes :=
            hlength.symm ▸ hexDigits?_eq_some_iff.1 hn
          exact ⟨c, rfl, .numeric hletter hdigits hvalue, by simpa using List.take_prefix n rest⟩
        · cases h
      · cases h

/-- An escape is read where it stands, whatever follows it. -/
theorem escape_of_isPrefix {e rest : Bytes} {c : Char} (he : Escape e c)
    (h : e <+: Byte.backslash :: rest) : escape rest = .ok ⟨e, some c⟩ := by
  obtain ⟨after, hafter⟩ := h
  cases he with
  | @letter b _ hb =>
    obtain rfl : rest = b :: after := (List.cons.inj hafter).2.symm
    simp [escape, letterEscape?_eq_some_iff.2 hb]
  | @numeric b d _ hb hd hvalue =>
    obtain rfl : rest = b :: (d ++ after) := (List.cons.inj hafter).2.symm
    have hnone : ∀ x ∈ numericEscapes, letterEscape? x.1 = none := by decide
    have hchar : numericEscape? d.length (d ++ after) = some c := by
      rw [numericEscape?_eq_some_iff, List.take_left]
      exact ⟨by simp, hd, hvalue⟩
    simp [escape, hnone _ hb, hexDigits?_eq_some_iff.2 hb, hchar]

/-- Where reading an escape fails, none of the grammar stands. -/
theorem not_isPrefix_of_escape_error {rest text e : Bytes} {c : Char}
    (h : escape rest = .error text) (he : Escape e c) : ¬e <+: Byte.backslash :: rest := by
  intro hpre
  rw [escape_of_isPrefix he hpre] at h
  cases h

/-- The text shown for a malformed escape starts at its backslash, and shows more than that if
there is more. -/
theorem text_of_escape_error {rest text : Bytes} (h : escape rest = .error text) :
    text <+: Byte.backslash :: rest ∧ (rest ≠ [] → 2 ≤ text.length) := by
  unfold escape at h
  split at h
  · obtain rfl := Except.error.inj h
    simp
  · rename_i b rest
    split at h
    · cases h
    · split at h
      · rename_i n hn
        dsimp only at h
        split at h
        · cases h
        · obtain rfl := Except.error.inj h
          exact ⟨by simpa using List.take_prefix n rest, by simp⟩
      · obtain rfl := Except.error.inj h
        have hpos := Utf8.sequence_size_pos b rest
        refine ⟨by simpa using List.take_prefix _ (b :: rest), fun _ => ?_⟩
        simp only [List.length_cons, List.length_take]
        omega

/-! ## Splitting a payload -/

theorem spelling_sound {b : UInt8} {rest p : Bytes} {s : Spelling} (h : spelling b rest = .ok s)
    (hp : WellEscaped p) : WellEscaped (s.raw ++ p) ∧ s.raw <+: b :: rest := by
  unfold spelling at h
  split at h
  · rename_i hb
    obtain ⟨c, -, he, hpre⟩ := escape_sound h
    exact ⟨.escape he hp, hb ▸ hpre⟩
  · rename_i hb
    obtain rfl := Except.ok.inj h
    obtain ⟨run, hrun, hascii⟩ := Utf8.take_sequence b rest
    refine ⟨?_, List.take_prefix _ _⟩
    dsimp only
    rw [hrun]
    have hnot : Byte.backslash ∉ run := by
      intro hmem
      have houtside := hascii _ hmem
      simp [Byte.isAscii_backslash] at houtside
    exact .plain hb (hp.plain_append hnot)

/-- Splitting gets stuck at a backslash that begins no escape, and before it all is well. -/
theorem split_stuck {payload text : Bytes} (h : (split payload).stuck = some text) :
    ∃ front back, payload = front ++ Byte.backslash :: back ∧
      rawSize (split payload).units = front.length ∧ WellEscaped front ∧
      escape back = .error text := by
  fun_induction split payload with
  | case1 => cases h
  | case2 b rest text' hspelling =>
    obtain rfl := Option.some.inj h
    unfold spelling at hspelling
    split at hspelling
    · rename_i hb
      exact ⟨[], rest, by rw [hb, List.nil_append], rfl, .nil, hspelling⟩
    · cases hspelling
  | case3 b rest unit hspelling more ih =>
    obtain ⟨front, back, hmore, hsize, hfront, hback⟩ := ih h
    obtain ⟨hwell, after, hafter⟩ := spelling_sound hspelling hfront
    rw [← hafter, List.drop_left] at hmore
    refine ⟨unit.raw ++ front, back, ?_, ?_, hwell, hback⟩
    · rw [← hafter, hmore, List.append_assoc]
    · rw [List.length_append, ← hsize]
      simp [rawSize, more]

end Payload

end SceneTokens
