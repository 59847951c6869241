import Mathlib.Algebra.Group.Nat.Defs
import SceneTokens.Proofs.Characters

/-!
# Units of a payload

A payload is read from left to right in units: an escape, an ASCII byte other than the backslash,
or what one UTF-8 sequence takes (`Grammar.PayloadUnit`). Which unit stands at a place depends on
the bytes from there on only, and `Payload.spelling` finds it (`Payload.spelling_eq_ok_iff`). So
decoding follows any division into units (`Payload.decode_units_append`), and every payload has one
that goes as far as possible: to the end, or to a backslash that begins no escape
(`Payload.exists_units`).

`Payload.decode_exact` puts this together. A payload decodes if and only if it divides into units,
to one value for each, and otherwise the fault is at the end of the longest division
(`Grammar.FirstFault`).
-/

namespace SceneTokens

namespace Grammar

/-! ## Divisions into units -/

/-- The bytes `raw` are one unit of a payload in front of `after`. It stands for a character, or
for none if it is a malformed sequence. -/
inductive PayloadUnit : Bytes → Option Char → Bytes → Prop
  | escape {e after : Bytes} {c : Char} : Escape e c → PayloadUnit e (some c) after
  | ascii {b : UInt8} {after : Bytes} : Byte.isAscii b = true → b ≠ Byte.backslash →
      PayloadUnit [b] (some (Char.ofNat b.toNat)) after
  | sequence {b : UInt8} {run after : Bytes} {char : Option Char} : Byte.isAscii b = false →
      Utf8.sequence (b :: (run ++ after)) = ⟨char, 1 + run.length⟩ →
      PayloadUnit (b :: run) char after

/-- The standard encoding of a character outside ASCII is one unit. -/
theorem PayloadUnit.encoded {c : Char} (hc : 0x80 ≤ c.toNat) (after : Bytes) :
    PayloadUnit (Utf8.encode c) (some c) after := by
  obtain ⟨lead, run, a, hencode, hbytes⟩ := Utf8.exists_multibyte hc
  have hsequence := Utf8.sequence_encode hc after
  rw [hencode, List.length_cons, Nat.add_comm] at hsequence
  rw [hencode]
  exact .sequence (hbytes.isAscii_eq_false lead (by simp)) hsequence

/-- The bytes `front` in front of `after` are a row of units. -/
inductive PayloadUnits : Bytes → List (Option Char) → Bytes → Prop
  | nil {after : Bytes} : PayloadUnits [] [] after
  | cons {raw front after : Bytes} {char : Option Char} {chars : List (Option Char)} :
      PayloadUnit raw char (front ++ after) → PayloadUnits front chars after →
      PayloadUnits (raw ++ front) (char :: chars) after

/-- The value of a unit: the code point modulo `2 ^ 16`, or the replacement. -/
def unitValue : Option Char → Nat
  | some c => c.toNat % 2 ^ 16
  | none => 0xFFFD

/-- Where the text shown of a malformed escape ends, if its backslash stands at `offset`: at the end
of the payload if there is no letter, behind the digits the letter asks for as far as the payload
goes, or behind the letter. -/
def shownEnd (payload : Bytes) (offset : Nat) : Nat :=
  match payload[offset + 1]? with
  | none => payload.length
  | some letter =>
    match numericEscapes.lookup letter with
    | some digits => min (offset + 2 + digits) payload.length
    | none =>
      if Byte.isAscii letter then offset + 1 + 1
      else offset + 1 + (Utf8.sequence (payload.drop (offset + 1))).size

/-- The fault of a payload that does not divide into units: it is at the end of the longest row of
units, where a backslash stands that begins no escape. -/
structure FirstFault (payload : Bytes) (fault : EscapeFault) : Prop where
  units : ∃ front chars back, payload = front ++ back ∧ PayloadUnits front chars back ∧
    front.length = fault.offset
  longest : ∀ front chars back, payload = front ++ back → PayloadUnits front chars back →
    front.length ≤ fault.offset
  backslash : payload[fault.offset]? = some Byte.backslash
  malformed : ∀ e c, Escape e c → ¬e <+: payload.drop fault.offset
  text : fault.text =
    (payload.drop fault.offset).take (shownEnd payload fault.offset - fault.offset)

/-- A payload with a fault is not made of units alone. -/
theorem FirstFault.not_units {payload : Bytes} {fault : EscapeFault}
    (h : FirstFault payload fault) (chars : List (Option Char)) :
    ¬PayloadUnits payload chars [] := by
  intro hunits
  have hle := h.longest payload chars [] (List.append_nil payload).symm hunits
  have hbackslash := h.backslash
  rw [List.getElem?_eq_none hle] at hbackslash
  cases hbackslash

/-- There is at most one such fault. -/
theorem FirstFault.unique {payload : Bytes} {f g : EscapeFault} (hf : FirstFault payload f)
    (hg : FirstFault payload g) : f = g := by
  have hle {f g : EscapeFault} (hf : FirstFault payload f) (hg : FirstFault payload g) :
      f.offset ≤ g.offset := by
    obtain ⟨front, chars, back, hpayload, hunits, hlength⟩ := hf.units
    exact hlength ▸ hg.longest front chars back hpayload hunits
  have hoffset : f.offset = g.offset := Nat.le_antisymm (hle hf hg) (hle hg hf)
  have htext : f.text = g.text := by rw [hf.text, hg.text, hoffset]
  cases f
  cases g
  cases hoffset
  cases htext
  rfl

end Grammar

open Grammar

theorem Spelling.toNat_unit (s : Spelling) : s.unit.toNat = unitValue s.char := by
  obtain ⟨raw, char⟩ := s
  cases char with
  | some c => simp [unit, codePoint, unitValue]
  | none => rfl

namespace Payload

/-! ## The unit at a place -/

/-- Reading finds a unit where one stands, whatever follows it, and finds nothing else. -/
theorem spelling_eq_ok_iff {b : UInt8} {rest : Bytes} {s : Spelling} :
    spelling b rest = .ok s ↔
      ∃ after, b :: rest = s.raw ++ after ∧ PayloadUnit s.raw s.char after := by
  constructor
  · intro h
    unfold spelling at h
    split at h
    · rename_i hb
      obtain ⟨c, hchar, he, after, hafter⟩ := escape_sound h
      exact ⟨after, by rw [hb, hafter], hchar ▸ .escape he⟩
    · rename_i hb
      obtain rfl := Except.ok.inj h
      obtain ⟨run, hrun, -⟩ := Utf8.take_sequence b rest
      have hsplit := List.take_append_drop (Utf8.sequence (b :: rest)).size (b :: rest)
      dsimp only
      rw [hrun] at hsplit ⊢
      refine ⟨_, hsplit.symm, ?_⟩
      cases hascii : Byte.isAscii b with
      | true =>
        have hone : Utf8.sequence (b :: rest) = ⟨some (Char.ofNat b.toNat), 1⟩ := by
          simp [Utf8.sequence, hascii]
        rw [hone] at hrun ⊢
        obtain rfl : run = [] := by simpa using hrun.symm
        exact .ascii hascii hb
      | false =>
        have hsize : (Utf8.sequence (b :: rest)).size = 1 + run.length := by
          have hlength := congrArg List.length hrun
          have hle := Utf8.sequence_size_le (b :: rest)
          rw [List.length_take, Nat.min_eq_left hle, List.length_cons] at hlength
          omega
        refine .sequence hascii ?_
        rw [← List.cons_append, hsplit, ← hsize]
  · rintro ⟨after, hbytes, hunit⟩
    obtain ⟨raw, char⟩ := s
    dsimp only at hbytes hunit
    cases hunit with
    | escape he =>
      obtain ⟨letter, d, rfl, -, -⟩ := he.shape
      obtain ⟨rfl, rfl⟩ := List.cons.inj hbytes
      rw [spelling, if_pos rfl]
      exact escape_of_isPrefix he (List.prefix_append _ _)
    | ascii hascii hb =>
      obtain ⟨rfl, rfl⟩ := List.cons.inj hbytes
      simp [spelling, hb, Utf8.sequence, hascii]
    | @sequence b' run _ _ hascii hsequence =>
      obtain ⟨rfl, hrest⟩ := List.cons.inj hbytes
      have hb : b ≠ Byte.backslash := by
        rintro rfl
        simp [Byte.isAscii_backslash] at hascii
      have hrun : rest = run ++ after := hrest
      rw [hrun, spelling, if_neg hb, hsequence]
      simp [Nat.add_comm 1]

/-- A unit is cut off as one, and the rest is split on its own. -/
theorem split_unit_append {raw after : Bytes} {char : Option Char}
    (h : PayloadUnit raw char after) :
    split (raw ++ after) = ⟨⟨raw, char⟩ :: (split after).units, (split after).stuck⟩ := by
  have hne : raw ++ after ≠ [] := by
    cases h with
    | escape he =>
      obtain ⟨_, _, rfl, -, -⟩ := he.shape
      simp
    | ascii => simp
    | sequence => simp
  obtain ⟨b, rest, hbytes⟩ := List.exists_cons_of_ne_nil hne
  have hspelling : spelling b rest = .ok ⟨raw, char⟩ :=
    spelling_eq_ok_iff.2 ⟨after, hbytes.symm, h⟩
  have hdrop : (b :: rest).drop raw.length = after := by rw [← hbytes, List.drop_left]
  rw [hbytes, split]
  split
  · simp_all
  · simp_all

/-! ## Decoding along a division -/

/-- A row of units is split into exactly these, and the rest is split on its own. -/
theorem split_units_append {front after : Bytes} {chars : List (Option Char)}
    (h : PayloadUnits front chars after) : ∃ us : List Spelling,
      us.map Spelling.char = chars ∧ us.flatMap Spelling.raw = front ∧
      split (front ++ after) = ⟨us ++ (split after).units, (split after).stuck⟩ := by
  induction h with
  | nil => exact ⟨[], rfl, rfl, rfl⟩
  | @cons raw front after char chars hunit _ ih =>
    obtain ⟨us, rfl, rfl, hsplit⟩ := ih
    refine ⟨⟨raw, char⟩ :: us, rfl, rfl, ?_⟩
    rw [List.append_assoc, split_unit_append hunit, hsplit]
    rfl

/-- Splitting goes no further than to a malformed escape. -/
theorem split_of_escape_error {back text : Bytes} (h : escape back = .error text) :
    split (Byte.backslash :: back) = ⟨[], some text⟩ := by
  have hspelling : spelling Byte.backslash back = .error text := by rw [spelling, if_pos rfl, h]
  rw [split]
  split
  · simp_all
  · simp_all

theorem decode_nil : decode [] = .ok [] := by
  simp [decode, split]

theorem decode_of_escape_error {back text : Bytes} (h : escape back = .error text) :
    decode (Byte.backslash :: back) = .error ⟨0, text⟩ := by
  simp [decode, split_of_escape_error h, rawSize]

/-- The outcome of decoding, behind `size` bytes that have the units `units`. -/
def behind (size : Nat) (units : List UInt16) :
    Except EscapeFault (List UInt16) → Except EscapeFault (List UInt16)
  | .ok more => .ok (units ++ more)
  | .error fault => .error ⟨size + fault.offset, fault.text⟩

/-- Decoding follows a row of units, and goes on behind it. -/
theorem decode_units_append {front after : Bytes} {chars : List (Option Char)}
    (h : PayloadUnits front chars after) : ∃ units : List UInt16,
      units.map UInt16.toNat = chars.map unitValue ∧
      decode (front ++ after) = behind front.length units (decode after) := by
  obtain ⟨us, rfl, rfl, hsplit⟩ := split_units_append h
  refine ⟨us.map Spelling.unit, ?_, ?_⟩
  · simp only [List.map_map, List.map_inj_left, Function.comp_apply]
    exact fun u _ => u.toNat_unit
  · unfold decode
    dsimp only
    rw [hsplit]
    dsimp only
    cases (split after).stuck with
    | none => simp [behind]
    | some text => simp [behind, rawSize]

/-- Every payload has a row of units that leads to its end or to a malformed escape. -/
theorem exists_units (payload : Bytes) : ∃ front chars back, payload = front ++ back ∧
    PayloadUnits front chars back ∧
    (back = [] ∨ ∃ tail text, back = Byte.backslash :: tail ∧ escape tail = .error text) := by
  fun_induction split payload with
  | case1 => exact ⟨[], [], [], rfl, .nil, Or.inl rfl⟩
  | case2 b rest text hspelling =>
    unfold spelling at hspelling
    split at hspelling
    · rename_i hb
      exact ⟨[], [], b :: rest, rfl, .nil, Or.inr ⟨rest, text, by rw [hb], hspelling⟩⟩
    · cases hspelling
  | case3 b rest unit hspelling more ih =>
    obtain ⟨after, hbytes, hunit⟩ := spelling_eq_ok_iff.1 hspelling
    rw [hbytes, List.drop_left] at ih
    obtain ⟨front, chars, back, rfl, hunits, hback⟩ := ih
    exact ⟨unit.raw ++ front, unit.char :: chars, back, by rw [hbytes, List.append_assoc],
      .cons hunit hunits, hback⟩

/-! ## The text of a fault -/

theorem hexDigits?_eq_lookup (b : UInt8) : hexDigits? b = numericEscapes.lookup b :=
  Byte.forall_of_lt (P := fun b => hexDigits? b = numericEscapes.lookup b) (by decide +kernel) b

/-- Every kind of malformed escape is shown up to the end that `shownEnd` gives. -/
theorem text_eq_take {back text : Bytes} (h : escape back = .error text) (front : Bytes) :
    text = (Byte.backslash :: back).take
      (shownEnd (front ++ Byte.backslash :: back) front.length - front.length) := by
  have hletter : (front ++ Byte.backslash :: back)[front.length + 1]? = back[0]? := by
    rw [List.getElem?_append_right (Nat.le_add_right _ 1), Nat.add_sub_cancel_left]
    rfl
  have hrest : (front ++ Byte.backslash :: back).drop (front.length + 1) = back := by
    rw [← List.drop_drop, List.drop_left]
    rfl
  unfold shownEnd
  rw [hletter, hrest, List.length_append, List.length_cons]
  cases back with
  | nil =>
    obtain rfl := Except.error.inj h
    simp
  | cons letter rest =>
    simp only [escape] at h
    simp only [List.getElem?_cons_zero, ← hexDigits?_eq_lookup, Nat.add_assoc]
    cases hc : letterEscape? letter with
    | some c => simp [hc] at h
    | none =>
      cases hn : hexDigits? letter with
      | some n =>
        simp only [hc, hn] at h ⊢
        split at h
        · cases h
        · obtain rfl := Except.error.inj h
          have hcut : min (front.length + (2 + n)) (front.length + ((letter :: rest).length + 1)) -
              front.length = min n rest.length + 2 := by
            rw [List.length_cons]
            omega
          rw [hcut, List.take_succ_cons, List.take_succ_cons, ← List.take_take, List.take_length]
      | none =>
        simp only [hc, hn] at h ⊢
        obtain rfl := Except.error.inj h
        split
        · rename_i hascii
          have hone : Utf8.sequence (letter :: rest) = ⟨some (Char.ofNat letter.toNat), 1⟩ := by
            simp [Utf8.sequence, hascii]
          rw [hone, Nat.add_sub_cancel_left]
          rfl
        · rw [Nat.add_sub_cancel_left, Nat.add_comm 1, List.take_succ_cons]

/-! ## What decoding does -/

/-- A malformed escape behind a row of units is the first fault, and decoding stops there. -/
theorem firstFault_of_units {front tail text : Bytes} {chars : List (Option Char)}
    (hunits : PayloadUnits front chars (Byte.backslash :: tail))
    (htail : escape tail = .error text) :
    decode (front ++ Byte.backslash :: tail) = .error ⟨front.length, text⟩ ∧
      FirstFault (front ++ Byte.backslash :: tail) ⟨front.length, text⟩ := by
  obtain ⟨units, -, hdecode⟩ := decode_units_append hunits
  rw [decode_of_escape_error htail] at hdecode
  refine ⟨hdecode, ⟨⟨front, chars, _, rfl, hunits, rfl⟩, ?_, ?_, ?_, ?_⟩⟩
  · -- decoding follows the other row of units too, and finds the same fault behind it
    intro front' chars' back' hpayload hunits'
    obtain ⟨units', -, hdecode'⟩ := decode_units_append hunits'
    rw [hpayload, hdecode'] at hdecode
    cases hback : decode back' with
    | ok more =>
      rw [hback] at hdecode
      cases hdecode
    | error fault =>
      rw [hback] at hdecode
      have hoffset := congrArg EscapeFault.offset (Except.error.inj hdecode)
      dsimp only at hoffset ⊢
      omega
  · simp
  · intro e c he
    dsimp only
    rw [List.drop_left]
    exact not_isPrefix_of_escape_error htail he
  · dsimp only
    rw [List.drop_left]
    exact text_eq_take htail front

/-- A payload that divides into units decodes to their values. -/
theorem decode_of_units {payload : Bytes} {chars : List (Option Char)}
    (h : PayloadUnits payload chars []) :
    ∃ units, decode payload = .ok units ∧ units.map UInt16.toNat = chars.map unitValue := by
  obtain ⟨units, hvalues, hdecode⟩ := decode_units_append h
  rw [decode_nil, List.append_nil, behind, List.append_nil] at hdecode
  exact ⟨units, hdecode, hvalues⟩

theorem eq_map_of_unitValue {units : List UInt16} {chars : List Char}
    (h : units.map UInt16.toNat = (chars.map some).map unitValue) :
    units = chars.map fun c => c.toNat.toUInt16 := by
  have hvalue (c : Char) : c.toNat.toUInt16.toNat = unitValue (some c) := by simp [unitValue]
  refine (List.map_inj_right fun _ _ => UInt16.toNat_inj.1).1 (h.trans ?_)
  rw [List.map_map, List.map_map]
  exact (List.map_congr_left fun c _ => hvalue c).symm

/-- Decoding ends in one of two ways. -/
theorem decode_cases (payload : Bytes) :
    (∃ units chars, decode payload = .ok units ∧ PayloadUnits payload chars [] ∧
      units.map UInt16.toNat = chars.map unitValue) ∨
    ∃ fault, decode payload = .error fault ∧ FirstFault payload fault := by
  obtain ⟨front, chars, back, rfl, hunits, rfl | ⟨tail, text, rfl, htail⟩⟩ := exists_units payload
  · rw [List.append_nil]
    obtain ⟨units, hdecode, hvalues⟩ := decode_of_units hunits
    exact Or.inl ⟨units, chars, hdecode, hunits, hvalues⟩
  · exact Or.inr ⟨_, firstFault_of_units hunits htail⟩

/-- A payload decodes if and only if it divides into units, and then to one value for each.
Otherwise it has a fault at the end of its longest row of units, and that fault is the answer. -/
theorem decode_exact (payload : Bytes) :
    (∀ units, decode payload = .ok units ↔ ∃ chars, PayloadUnits payload chars [] ∧
      units.map UInt16.toNat = chars.map unitValue) ∧
    ∀ fault, decode payload = .error fault ↔ FirstFault payload fault := by
  refine ⟨fun units => ⟨fun h => ?_, ?_⟩, fun fault => ⟨fun h => ?_, fun h => ?_⟩⟩
  · rcases decode_cases payload with ⟨units', chars, hok, hunits, hvalues⟩ | ⟨fault, herror, -⟩
    · obtain rfl := Except.ok.inj (h.symm.trans hok)
      exact ⟨chars, hunits, hvalues⟩
    · cases h.symm.trans herror
  · rintro ⟨chars, hunits, hvalues⟩
    obtain ⟨units', hok, hvalues'⟩ := decode_of_units hunits
    have hsame : units = units' :=
      (List.map_inj_right fun _ _ => UInt16.toNat_inj.1).1 (hvalues.trans hvalues'.symm)
    rw [hok, hsame]
  · rcases decode_cases payload with ⟨units, _, hok, -⟩ | ⟨fault', herror, hfault⟩
    · cases h.symm.trans hok
    · obtain rfl := Except.error.inj (h.symm.trans herror)
      exact hfault
  · rcases decode_cases payload with ⟨_, chars, -, hunits, -⟩ | ⟨fault', herror, hfault⟩
    · exact absurd hunits (h.not_units chars)
    · rw [herror, h.unique hfault]

end Payload

end SceneTokens
