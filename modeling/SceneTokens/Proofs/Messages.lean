import Mathlib.Data.List.Basic
import SceneTokens.Proofs.Boundaries
import SceneTokens.Tokens.Fault
import SceneTokens.Utf8.Text

/-!
# Characters in messages

A payload that is text is the encoding of its characters, one after the other (`Utf8.encodeAll`).
It can be cut between two characters and nowhere else: in front of bytes that start anew
(`Utf8.exists_encodeAll_of_append`). A message shows bytes that are the encoding of characters as
these characters, and replaces none (`Utf8.text_encodeAll`).

What is shown of a malformed escape ends behind its letter, which is a whole character. But the
digits of a numeric escape are counted in bytes, and where other characters stand in their place
the last of these bytes may be within one (`Grammar.DigitsCut`). This is the only way for the bytes
shown not to be text (`Payload.fault_shows_characters`), and there are payloads where it happens
(`Payload.fault_splits_character`).
-/

namespace SceneTokens

namespace Utf8

/-! ## Encoded characters -/

/-- The standard encoding of a row of characters. -/
def encodeAll (cs : List Char) : Bytes :=
  cs.flatMap encode

/-- The bytes are the standard encoding of some text. -/
def Valid (bytes : Bytes) : Prop :=
  ∃ cs, bytes = encodeAll cs

@[simp] theorem encodeAll_nil : encodeAll [] = [] := rfl

@[simp] theorem encodeAll_cons (c : Char) (cs : List Char) :
    encodeAll (c :: cs) = encode c ++ encodeAll cs := rfl

/-- The encoding of an ASCII character is the byte with its code. -/
theorem exists_ascii {c : Char} (hc : c.toNat < 0x80) : ∃ b, encode c = [b] ∧
    Byte.isAscii b = true ∧ Char.ofNat b.toNat = c := by
  have hascii : ∀ n < 0x80, Byte.isAscii (UInt8.ofNat n) = true := by decide
  have hle : c.val.toNat ≤ 0x7f := Nat.le_of_lt_succ hc
  have hbyte : c.toNat % 256 = c.toNat := Nat.mod_eq_of_lt (by omega)
  refine ⟨UInt8.ofNat c.toNat, ?_, hascii _ hc, by simp [hbyte]⟩
  simp only [encode, String.utf8EncodeChar, if_pos hle]
  rfl

/-- An encoding starts with a byte that continues none, and all its other bytes continue it. -/
theorem exists_encode (c : Char) : ∃ lead run, encode c = lead :: run ∧
    isContinuation lead = false ∧ ∀ b ∈ run, isContinuation b = true := by
  rcases Nat.lt_or_ge c.toNat 0x80 with hc | hc
  · obtain ⟨b, hencode, hascii, -⟩ := exists_ascii hc
    refine ⟨b, [], hencode, ?_, by simp⟩
    grind [Byte.isAscii, isContinuation]
  · obtain ⟨lead, run, a, hencode, hbytes⟩ := exists_multibyte hc
    refine ⟨lead, run, hencode, ?_, hbytes.continues⟩
    have hannounces := hbytes.announces
    grind [announced?, isContinuation]

/-- Every encoding is read back, whatever follows it. -/
theorem sequence_encode_append (c : Char) (rest : Bytes) :
    sequence (encode c ++ rest) = ⟨some c, (encode c).length⟩ := by
  rcases Nat.lt_or_ge c.toNat 0x80 with hc | hc
  · obtain ⟨b, hencode, hascii, hchar⟩ := exists_ascii hc
    simp [hencode, sequence, hascii, hchar]
  · exact sequence_encode hc rest

theorem startsAnew_encodeAll (cs : List Char) : StartsAnew (encodeAll cs) := by
  cases cs with
  | nil => exact startsAnew_nil
  | cons c cs =>
    obtain ⟨lead, run, hencode, hlead, -⟩ := exists_encode c
    rw [encodeAll_cons, hencode]
    exact startsAnew_cons.2 hlead

/-! ## Cuts between characters -/

/-- Within an encoding no bytes start anew. -/
theorem front_eq_nil_of_encode {c : Char} {front back rest : Bytes} (h : encode c = front ++ back)
    (hne : back ≠ []) (hback : StartsAnew (back ++ rest)) : front = [] := by
  obtain ⟨b, back, rfl⟩ := List.exists_cons_of_ne_nil hne
  cases front with
  | nil => rfl
  | cons lead front =>
    obtain ⟨_, run, hencode, -, hrun⟩ := exists_encode c
    obtain ⟨-, rfl⟩ := List.cons.inj (hencode.symm.trans h)
    cases (startsAnew_cons.1 hback).symm.trans (hrun b (by simp))

/-- A cut in front of bytes that start anew is between two characters. -/
theorem exists_encodeAll_of_append {cs : List Char} {front back : Bytes}
    (h : encodeAll cs = front ++ back) (hback : StartsAnew back) :
    ∃ before after, cs = before ++ after ∧ front = encodeAll before ∧ back = encodeAll after := by
  induction cs generalizing front with
  | nil =>
    obtain ⟨rfl, rfl⟩ := List.append_eq_nil_iff.1 h.symm
    exact ⟨[], [], rfl, rfl, rfl⟩
  | cons c cs ih =>
    rw [encodeAll_cons] at h
    rcases List.append_eq_append_iff.1 h with ⟨front', rfl, hrest⟩ | ⟨within, hencode, rfl⟩
    · obtain ⟨before, after, rfl, rfl, rfl⟩ := ih hrest
      exact ⟨c :: before, after, rfl, rfl, rfl⟩
    · -- the cut is at one of the ends of the encoding of `c`
      by_cases hwithin : within = []
      · subst hwithin
        refine ⟨[c], cs, rfl, ?_, rfl⟩
        simpa using hencode.symm
      · obtain rfl := front_eq_nil_of_encode hencode hwithin hback
        exact ⟨[], c :: cs, rfl, rfl, by rw [encodeAll_cons, hencode, List.nil_append]⟩

/-- What follows the encoding of characters in the encoding of a text encodes characters too. -/
theorem exists_encodeAll_behind {cs before : List Char} {back : Bytes}
    (h : encodeAll cs = encodeAll before ++ back) : ∃ after, back = encodeAll after := by
  induction before generalizing cs with
  | nil => exact ⟨cs, h.symm⟩
  | cons b before ih =>
    rw [encodeAll_cons, List.append_assoc] at h
    have hread := sequence_encode_append b (encodeAll before ++ back)
    cases cs with
    | nil =>
      rw [← h] at hread
      cases congrArg Sequence.char hread
    | cons c cs =>
      rw [← h, encodeAll_cons, sequence_encode_append] at hread
      obtain rfl : c = b := Option.some.inj (congrArg Sequence.char hread)
      exact ih (List.append_cancel_left h)

/-! ## Characters in text -/

theorem isContinuation_iff {b : UInt8} :
    isContinuation b = true ↔ 0x80 ≤ b.toNat ∧ b.toNat ≤ 0xBF := by
  simp [isContinuation, UInt8.le_iff_toNat_le]

/-- In well-formed text `second` may follow `lead`, and `more` bytes come after it. -/
def MayFollow (lead second : UInt8) (more : Nat) : Prop :=
  ∃ low high, followers? lead = some (low, high, more) ∧ low ≤ second ∧ second ≤ high

/-- A continuation byte may follow, unless it makes the encoding too long for its value, the value a
surrogate, or the value too large. -/
theorem mayFollow_of {lead second : UInt8} {more : Nat}
    (hmore : 0xC2 ≤ lead.toNat ∧ lead.toNat ≤ 0xDF ∧ more = 0 ∨
      0xE0 ≤ lead.toNat ∧ lead.toNat ≤ 0xEF ∧ more = 1 ∨
      0xF0 ≤ lead.toNat ∧ lead.toNat ≤ 0xF4 ∧ more = 2)
    (hsecond : 0x80 ≤ second.toNat ∧ second.toNat ≤ 0xBF)
    (hlong : (lead.toNat = 0xE0 → 0xA0 ≤ second.toNat) ∧ (lead.toNat = 0xF0 → 0x90 ≤ second.toNat))
    (hsurrogate : lead.toNat = 0xED → second.toNat ≤ 0x9F)
    (hlarge : lead.toNat = 0xF4 → second.toNat ≤ 0x8F) : MayFollow lead second more := by
  unfold MayFollow followers?
  simp only [Bool.and_eq_true, decide_eq_true_eq, beq_iff_eq, UInt8.le_iff_toNat_le,
    ← UInt8.toNat_inj, UInt8.reduceToNat]
  repeat' split
  all_goals simp
  all_goals omega

/-- The second byte of an encoding may follow the lead byte. -/
theorem Multibyte.mayFollow {lead : UInt8} {run : Bytes} {a : Announced} {c : Char}
    (h : Multibyte lead run a c.toNat) :
    ∃ second tail, run = second :: tail ∧ MayFollow lead second tail.length := by
  obtain ⟨hannounces, hcontinues, hlength, hvalue, hleast⟩ := h
  have hscalar : c.toNat < 0xD800 ∨ 0xDFFF < c.toNat ∧ c.toNat < 0x110000 := c.valid
  rw [← hvalue] at hleast hscalar
  simp only [isContinuation_iff] at hcontinues
  simp only [announced?, Bool.and_eq_true, decide_eq_true_eq, UInt8.le_iff_toNat_le,
    UInt8.reduceToNat] at hannounces
  split at hannounces
  · obtain rfl := Option.some.inj hannounces
    obtain ⟨second, rfl⟩ := List.length_eq_one_iff.1 hlength
    simp only [assemble, List.foldl_cons, List.foldl_nil] at hleast
    have hsecond := hcontinues second (by simp)
    exact ⟨second, [], rfl, mayFollow_of (Or.inl ⟨by omega, by omega, rfl⟩) hsecond (by omega)
      (by omega) (by omega)⟩
  · split at hannounces
    · obtain rfl := Option.some.inj hannounces
      obtain ⟨second, third, rfl⟩ := List.length_eq_two.1 hlength
      simp only [assemble, List.foldl_cons, List.foldl_nil] at hleast hscalar
      have hsecond := hcontinues second (by simp)
      have hthird := hcontinues third (by simp)
      exact ⟨second, [third], rfl, mayFollow_of (Or.inr (Or.inl ⟨by omega, by omega, rfl⟩)) hsecond
        (by omega) (by omega) (by omega)⟩
    · split at hannounces
      · obtain rfl := Option.some.inj hannounces
        obtain ⟨second, third, fourth, rfl⟩ := List.length_eq_three.1 hlength
        simp only [assemble, List.foldl_cons, List.foldl_nil] at hleast hscalar
        have hsecond := hcontinues second (by simp)
        have hthird := hcontinues third (by simp)
        have hfourth := hcontinues fourth (by simp)
        exact ⟨second, [third, fourth], rfl,
          mayFollow_of (Or.inr (Or.inr ⟨by omega, by omega, rfl⟩)) hsecond (by omega) (by omega)
            (by omega)⟩
      · cases hannounces

/-- The reading that messages use reads encodings back as well. -/
theorem wellFormed_encode_append (c : Char) (rest : Bytes) :
    wellFormed (encode c ++ rest) = ⟨some c, (encode c).length⟩ := by
  rcases Nat.lt_or_ge c.toNat 0x80 with hc | hc
  · obtain ⟨b, hencode, hascii, hchar⟩ := exists_ascii hc
    simp [hencode, wellFormed, hascii, hchar]
  · obtain ⟨lead, run, a, hencode, hbytes⟩ := exists_multibyte hc
    have hread := sequence_encode_append c []
    obtain ⟨second, tail, rfl, low, high, hfollowers, hlow, hhigh⟩ := hbytes.mayFollow
    have hascii := hbytes.isAscii_eq_false lead (by simp)
    have htail : continuations tail.length (tail ++ rest) = tail :=
      continuations_append (fun b hb => hbytes.continues b (by simp [hb])) rest
    rw [hencode, List.append_nil] at hread
    rw [hencode, List.cons_append, List.cons_append]
    simp [wellFormed, hascii, hfollowers, hlow, hhigh, htail, hread]

theorem characters_encodeAll (cs : List Char) : characters (encodeAll cs) = cs.map some := by
  induction cs with
  | nil => simp [characters]
  | cons c cs ih =>
    have hread := wellFormed_encode_append c (encodeAll cs)
    obtain ⟨lead, run, hencode, -⟩ := exists_encode c
    rw [encodeAll_cons, List.map_cons, ← ih]
    rw [hencode, List.cons_append] at hread ⊢
    rw [characters, hread, ← List.cons_append, List.drop_left]

/-- Text is shown as it is. -/
theorem text_encodeAll (cs : List Char) : text (encodeAll cs) = String.ofList cs := by
  rw [text, characters_encodeAll, List.map_map]
  exact congrArg String.ofList (List.map_id cs)

end Utf8

open Utf8

namespace Grammar

/-- The bytes behind a backslash have a letter that asks for digits, and as many bytes as it asks
for end within a character. -/
def DigitsCut (back : Bytes) : Prop :=
  ∃ letter rest n, back = letter :: rest ∧ (letter, n) ∈ numericEscapes ∧
    ¬StartsAnew (rest.drop n)

end Grammar

open Grammar

namespace Payload

/-! ## The text of a fault -/

/-- The three kinds of malformed escapes, and what is shown of each. -/
theorem escape_error_cases {back text : Bytes} (h : escape back = .error text) :
    (back = [] ∧ text = [Byte.backslash]) ∨
    (∃ letter rest n, back = letter :: rest ∧ (letter, n) ∈ numericEscapes ∧
      text = Byte.backslash :: letter :: rest.take n) ∨
    ∃ letter rest, back = letter :: rest ∧ (∀ n, (letter, n) ∉ numericEscapes) ∧
      text = Byte.backslash :: back.take (sequence back).size := by
  cases back with
  | nil => exact Or.inl ⟨rfl, (Except.error.inj h).symm⟩
  | cons letter rest =>
    simp only [escape] at h
    split at h
    · cases h
    · split at h
      · rename_i n hn
        split at h
        · cases h
        · exact Or.inr (Or.inl ⟨letter, rest, n, rfl, hexDigits?_eq_some_iff.1 hn,
            (Except.error.inj h).symm⟩)
      · rename_i hnone
        refine Or.inr (Or.inr ⟨letter, rest, rfl, fun n hn => ?_, (Except.error.inj h).symm⟩)
        cases hnone.symm.trans (hexDigits?_eq_some_iff.2 hn)

/-- The digits end within a character if and only if the bytes behind them do not start anew. -/
theorem digitsCut_iff {letter : UInt8} {rest : Bytes} {n : Nat}
    (hn : (letter, n) ∈ numericEscapes) :
    DigitsCut (letter :: rest) ↔ ¬StartsAnew (rest.drop n) := by
  refine ⟨?_, fun hcut => ⟨letter, rest, n, rfl, hn, hcut⟩⟩
  rintro ⟨_, _, m, hback, hm, hcut⟩
  obtain ⟨rfl, rfl⟩ := List.cons.inj hback
  have hsame := (hexDigits?_eq_some_iff.2 hn).symm.trans (hexDigits?_eq_some_iff.2 hm)
  rwa [Option.some.inj hsame]

/-- What is shown of a malformed escape ends in front of bytes that start anew, unless its digits
are cut. -/
theorem startsAnew_iff_of_escape_error {cs : List Char} {text after : Bytes}
    (h : escape (encodeAll cs) = .error text)
    (hafter : text ++ after = Byte.backslash :: encodeAll cs) :
    StartsAnew after ↔ ¬DigitsCut (encodeAll cs) := by
  rcases escape_error_cases h with ⟨hback, rfl⟩ | ⟨letter, rest, n, hback, hn, rfl⟩ |
    ⟨letter, rest, hback, hnone, rfl⟩
  · rw [hback] at hafter ⊢
    obtain rfl : after = [] := (List.cons.inj hafter).2
    simp [startsAnew_nil, DigitsCut]
  · have hrest : rest.take n ++ after = rest.take n ++ rest.drop n := by
      rw [List.take_append_drop]
      simpa [hback] using hafter
    rw [hback, digitsCut_iff hn, not_not, List.append_cancel_left hrest]
  · -- the letter is a character, and the text ends behind it
    have hwhole : ¬DigitsCut (encodeAll cs) := by
      rintro ⟨_, _, n, hback', hn, -⟩
      obtain ⟨rfl, -⟩ := List.cons.inj (hback.symm.trans hback')
      exact hnone n hn
    cases cs with
    | nil => cases hback
    | cons c cs =>
      rw [encodeAll_cons, sequence_encode_append, List.take_left] at hafter
      obtain rfl : after = encodeAll cs := List.append_cancel_left (List.cons.inj hafter).2
      exact iff_of_true (startsAnew_encodeAll cs) hwhole

/-- A fault has the offset of a backslash and shows the escape there, which is malformed. -/
theorem exists_of_decode_error {payload : Bytes} {fault : EscapeFault}
    (h : decode payload = .error fault) : ∃ front back,
      payload = front ++ Byte.backslash :: back ∧ front.length = fault.offset ∧
      escape back = .error fault.text := by
  obtain ⟨front, chars, back, rfl, hunits, rfl | ⟨tail, text, rfl, htail⟩⟩ := exists_units payload
  · obtain ⟨units, hok, -⟩ := decode_of_units hunits
    rw [List.append_nil] at h
    cases hok.symm.trans h
  · obtain ⟨herror, -⟩ := firstFault_of_units hunits htail
    obtain rfl := Except.error.inj (herror.symm.trans h)
    exact ⟨front, tail, rfl, rfl, htail⟩

/-- Characters of a text precede its fault, and what follows the text of the fault tells whether
digits are cut. -/
theorem exists_characters_of_decode_error {cs : List Char} {fault : EscapeFault}
    (h : decode (encodeAll cs) = .error fault) : ∃ before rest after, cs = before ++ rest ∧
      fault.offset = (encodeAll before).length ∧ encodeAll rest = fault.text ++ after ∧
      (StartsAnew after ↔ ¬DigitsCut ((encodeAll cs).drop (fault.offset + 1))) := by
  obtain ⟨front, back, hpayload, hoffset, herror⟩ := exists_of_decode_error h
  have hback : (encodeAll cs).drop (fault.offset + 1) = back := by
    rw [hpayload, ← hoffset, ← List.drop_drop, List.drop_left]
    rfl
  obtain ⟨before, rest, hcs, rfl, hrest⟩ :=
    exists_encodeAll_of_append hpayload (startsAnew_cons.2 (by decide))
  have hbackslash : encodeAll rest = encodeAll ['\\'] ++ back := hrest.symm
  obtain ⟨letters, rfl⟩ := exists_encodeAll_behind hbackslash
  obtain ⟨after, hafter⟩ := (text_of_escape_error herror).1
  refine ⟨before, rest, after, hcs, hoffset.symm, hrest.symm.trans hafter.symm, ?_⟩
  rw [hback]
  exact startsAnew_iff_of_escape_error herror hafter

/-- In a payload that is text, the bytes shown of a malformed escape are text too, exactly unless
they are those of a numeric escape whose digits are cut. Where they are, they encode the characters
from the backslash on, and the message shows these characters. -/
theorem fault_shows_characters {cs : List Char} {fault : EscapeFault}
    (h : decode (encodeAll cs) = .error fault) :
    let back := (encodeAll cs).drop (fault.offset + 1)
    (Valid fault.text ↔ ¬DigitsCut back) ∧
    (¬DigitsCut back → ∃ before shown after, cs = before ++ (shown ++ after) ∧
      fault.offset = (encodeAll before).length ∧ fault.text = encodeAll shown ∧
      ∀ input position, (TokenFault.invalidEscape input position fault.text).message =
        TokenFault.located input position ++ ": invalid escape sequence '" ++
          String.ofList shown ++ "'") := by
  intro back
  obtain ⟨before, rest, after, rfl, hoffset, hrest, hanew⟩ := exists_characters_of_decode_error h
  have hshown (hwhole : ¬DigitsCut back) : ∃ shown more, rest = shown ++ more ∧
      fault.text = encodeAll shown := by
    obtain ⟨shown, more, hsplit, htext, -⟩ :=
      exists_encodeAll_of_append hrest (hanew.2 hwhole)
    exact ⟨shown, more, hsplit, htext⟩
  refine ⟨⟨?_, fun hwhole => ?_⟩, fun hwhole => ?_⟩
  · rintro ⟨shown, htext⟩
    obtain ⟨more, rfl⟩ := exists_encodeAll_behind (htext ▸ hrest)
    exact hanew.1 (startsAnew_encodeAll more)
  · obtain ⟨shown, -, -, htext⟩ := hshown hwhole
    exact ⟨shown, htext⟩
  · obtain ⟨shown, more, rfl, htext⟩ := hshown hwhole
    have hmessage : Utf8.text fault.text = String.ofList shown := by rw [htext, text_encodeAll]
    refine ⟨before, shown, more, rfl, hoffset, htext, fun input position => ?_⟩
    unfold TokenFault.message
    dsimp only
    rw [hmessage]

/-- The character `é` takes the place of the last two digits. -/
theorem fault_shows_characters_shortDigits :
    let cs := ['\\', 'u', '1', '2', 'é', 'x']
    let fault : EscapeFault := ⟨0, [92, 117, 49, 50, 0xC3, 0xA9]⟩
    decode (encodeAll cs) = .error fault ∧ ¬DigitsCut ((encodeAll cs).drop 1) ∧
      Valid fault.text := by
  intro cs fault
  have hfault : decode (encodeAll cs) = .error fault := by decide +kernel
  have hback : (encodeAll cs).drop 1 = 117 :: [49, 50, 0xC3, 0xA9, 120] := by decide
  have hwhole : ¬DigitsCut ((encodeAll cs).drop 1) := by
    rw [hback, digitsCut_iff (show (117, 4) ∈ numericEscapes by decide), not_not]
    exact startsAnew_cons.2 (by decide)
  exact ⟨hfault, hwhole, (fault_shows_characters hfault).1.2 hwhole⟩

/-- The character `é` takes the place of the last digit only. It is cut, and shown as a replacement
character. -/
theorem fault_splits_character :
    let payload : Bytes := [92, 117, 49, 50, 51, 0xC3, 0xA9]
    let text : Bytes := [92, 117, 49, 50, 51, 0xC3]
    Valid payload ∧ decode payload = .error ⟨0, text⟩ ∧ ¬Valid text ∧
      Utf8.text text = "\\u123\uFFFD" := by
  intro payload text
  have hpayload : payload = encodeAll ['\\', 'u', '1', '2', '3', 'é'] := by decide
  refine ⟨⟨_, hpayload⟩, by decide +kernel, ?_, by decide +kernel⟩
  rintro ⟨shown, htext⟩
  have hsplit : payload = text ++ [0xA9] := rfl
  rw [hpayload, htext] at hsplit
  obtain ⟨more, hmore⟩ := exists_encodeAll_behind hsplit
  have hanew := startsAnew_encodeAll more
  rw [← hmore, startsAnew_cons] at hanew
  cases hanew

end Payload

end SceneTokens
