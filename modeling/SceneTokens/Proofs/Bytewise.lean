import SceneTokens.Proofs.EscapeFaults
import SceneTokens.Proofs.Units

/-!
# Literals read byte by byte

Under Latin-1 and under plain ASCII every byte of a literal is a character of its own. A reader
turns the bytes into UTF-8 first, and decoding turns them back (`Payload.decodeBytes` is what that
should amount to: decoding the source directly, with one unit for every byte outside ASCII).

Escapes are all ASCII, so there is one in the source where there is one in the lexeme
(`Payload.escape_transcodeAll`), and what a byte outside ASCII turns into is read back as one
character, whatever stands around it. So both ways of decoding go through the literal in the same
units (`Payload.exists_division`). They give the same values, or stop at the same backslash, and
there is never a malformed sequence to replace (`Reader.literal_bytewise`).
-/

namespace SceneTokens

open Grammar

namespace Encoding

/-- The unit that a byte outside ASCII stands for, under an encoding in which every byte is a
character. -/
def byteUnit? : Encoding → Option (UInt8 → UInt16)
  | utf8 => none
  | latin1 => some fun b => b.toUInt16
  | ascii => some fun _ => 0xFFFD

/-- A byte outside ASCII turns into the standard encoding of the character it stands for. -/
theorem transcode_outside {e : Encoding} {outside : UInt8 → UInt16}
    (he : e.byteUnit? = some outside) {b : UInt8} (hb : Byte.isAscii b = false) :
    ∃ c : Char, e.transcode b = Utf8.encode c ∧ 0x80 ≤ c.toNat ∧
      c.toNat.toUInt16 = outside b := by
  have hnot : ¬Byte.isAscii b = true := by simp [hb]
  cases e with
  | utf8 => cases he
  | latin1 =>
    obtain rfl := Option.some.inj he
    obtain ⟨hpoint, hunit⟩ : 0x80 ≤ (Char.ofNat b.toNat).toNat ∧
        (Char.ofNat b.toNat).toNat.toUInt16 = b.toUInt16 :=
      Byte.forall_of_lt (P := fun b => Byte.isAscii b = false →
        0x80 ≤ (Char.ofNat b.toNat).toNat ∧ (Char.ofNat b.toNat).toNat.toUInt16 = b.toUInt16)
        (by decide +kernel) b hb
    exact ⟨_, if_neg hnot, hpoint, hunit⟩
  | ascii =>
    obtain rfl := Option.some.inj he
    exact ⟨Char.ofNat Utf8.replacement, if_neg hnot, by decide, rfl⟩

end Encoding

namespace Payload

/-! ## Decoding the source -/

/-- Decodes a payload that starts at `offset` byte by byte: an escape as ever, an ASCII byte as
itself, and any other byte as the unit that `outside` gives it. -/
def decodeBytes (outside : UInt8 → UInt16) (offset : Nat) :
    Bytes → Except EscapeFault (List UInt16)
  | [] => .ok []
  | b :: rest =>
    if b = Byte.backslash then
      match _h : escape rest with
      | .error text => .error ⟨offset, text⟩
      | .ok s =>
        (decodeBytes outside (offset + s.raw.length) ((b :: rest).drop s.raw.length)).map
          (s.unit :: ·)
    else
      (decodeBytes outside (offset + 1) rest).map
        ((if Byte.isAscii b then b.toUInt16 else outside b) :: ·)
termination_by payload => payload.length
decreasing_by
  · have := List.length_pos_iff.2 (escape_raw_ne_nil _h)
    simp only [List.length_drop, List.length_cons]
    omega
  · simp

/-- Transcoding neither makes nor mends a malformed escape. -/
theorem escape_transcodeAll {rest text : Bytes} (e : Encoding) (h : escape rest = .error text) :
    ∃ text', escape (e.transcodeAll rest) = .error text' := by
  cases hcoded : escape (e.transcodeAll rest) with
  | error text' => exact ⟨text', rfl⟩
  | ok s =>
    obtain ⟨c, -, he, after, hafter⟩ := escape_sound hcoded
    rw [← Encoding.transcodeAll_cons_of_isAscii e Byte.isAscii_backslash] at hafter
    obtain ⟨q, hq, -⟩ := Encoding.transcodeAll_eq_append he.isAscii hafter.symm
    exact absurd ⟨q, hq.symm⟩ (not_isPrefix_of_escape_error h he)

/-- A division of the payload `p`, which starts at `offset`, that both ways of decoding follow: its
units all stand for characters, and it leads to the end or to a backslash that begins an escape
neither in the source nor in the lexeme. `outcome` is what decoding byte by byte gives. -/
structure Division (e : Encoding) (offset : Nat) (p : Bytes)
    (outcome : Except EscapeFault (List UInt16)) (front : Bytes) (chars : List Char)
    (back : Bytes) : Prop where
  split : p = front ++ back
  units : PayloadUnits (e.transcodeAll front) (chars.map some) (e.transcodeAll back)
  outcome : back = [] ∧ outcome = .ok (chars.map fun c => c.toNat.toUInt16) ∨
    ∃ tail text text', back = Byte.backslash :: tail ∧
      escape (e.transcodeAll tail) = .error text ∧
      outcome = .error ⟨offset + front.length, text'⟩

/-- A division of what is left becomes one of the whole with the unit in front. -/
theorem Division.cons {e : Encoding} {offset : Nat} {raw p front back : Bytes} {c : Char}
    {chars : List Char} {outcome : Except EscapeFault (List UInt16)}
    (hunit : PayloadUnit (e.transcodeAll raw) (some c) (e.transcodeAll p))
    (h : Division e (offset + raw.length) p outcome front chars back) :
    Division e offset (raw ++ p) (outcome.map (c.toNat.toUInt16 :: ·)) (raw ++ front) (c :: chars)
      back where
  split := by rw [h.split, List.append_assoc]
  units := by
    rw [h.split, Encoding.transcodeAll_append] at hunit
    rw [Encoding.transcodeAll_append, List.map_cons]
    exact .cons hunit h.units
  outcome := by
    rcases h.outcome with ⟨hback, rfl⟩ | ⟨tail, text, text', hback, htail, rfl⟩
    · exact Or.inl ⟨hback, rfl⟩
    · refine Or.inr ⟨tail, text, text', hback, htail, ?_⟩
      rw [List.length_append, ← Nat.add_assoc]
      rfl

/-- A byte that is no backslash is a character of its own. -/
theorem exists_unit_of_byte {e : Encoding} {outside : UInt8 → UInt16}
    (he : e.byteUnit? = some outside) {b : UInt8} (hb : b ≠ Byte.backslash) (after : Bytes) :
    ∃ c : Char, PayloadUnit (e.transcodeAll [b]) (some c) after ∧
      c.toNat.toUInt16 = if Byte.isAscii b then b.toUInt16 else outside b := by
  have hone : e.transcodeAll [b] = e.transcode b := by simp [Encoding.transcodeAll]
  rw [hone]
  cases hascii : Byte.isAscii b with
  | true =>
    have hunit : (Char.ofNat b.toNat).toNat.toUInt16 = b.toUInt16 :=
      Byte.forall_of_lt (P := fun b => (Char.ofNat b.toNat).toNat.toUInt16 = b.toUInt16)
        (by decide +kernel) b
    rw [Encoding.transcode_of_isAscii hascii]
    exact ⟨_, .ascii hascii hb, hunit⟩
  | false =>
    obtain ⟨c, hcode, hc, hunit⟩ := Encoding.transcode_outside he hascii
    rw [hcode]
    exact ⟨c, .encoded hc after, hunit⟩

/-- Every payload has a division. The induction is on the bytes, one unit at a time, as decoding
byte by byte takes them. -/
theorem exists_division {e : Encoding} {outside : UInt8 → UInt16}
    (he : e.byteUnit? = some outside) (offset : Nat) (p : Bytes) :
    ∃ front chars back, Division e offset p (decodeBytes outside offset p) front chars back := by
  fun_induction decodeBytes outside offset p with
  | case1 offset => exact ⟨[], [], [], rfl, .nil, Or.inl ⟨rfl, rfl⟩⟩
  | case2 offset rest text h =>
    obtain ⟨text', htext'⟩ := escape_transcodeAll e h
    exact ⟨[], [], _, rfl, .nil, Or.inr ⟨rest, text', text, rfl, htext', rfl⟩⟩
  | case3 offset rest s h ih =>
    obtain ⟨c, hchar, hescape, after, hafter⟩ := escape_sound h
    have hunit : s.unit = c.toNat.toUInt16 := by rw [Spelling.unit, Spelling.codePoint, hchar]
    rw [← hafter, List.drop_left] at ih ⊢
    obtain ⟨front, chars, back, hdivision⟩ := ih
    rw [hunit]
    refine ⟨_, _, _, hdivision.cons ?_⟩
    rw [Encoding.transcodeAll_of_isAscii e hescape.isAscii]
    exact .escape hescape
  | case4 offset b rest hb ih =>
    obtain ⟨front, chars, back, hdivision⟩ := ih
    obtain ⟨c, hunit, hvalue⟩ := exists_unit_of_byte he hb (e.transcodeAll rest)
    rw [← hvalue, ← List.singleton_append]
    exact ⟨_, _, _, hdivision.cons hunit⟩

/-! ## The two ways compared -/

theorem malformedFrom_eq_nil {us : List Spelling} (h : ∀ u ∈ us, u.char.isSome = true)
    (offset : Nat) : malformedFrom offset us = [] := by
  induction us generalizing offset with
  | nil => rfl
  | cons u us ih =>
    have hu : u.char.isNone = false := by simpa using h u (by simp)
    rw [malformedFrom, hu]
    exact ih (fun v hv => h v (by simp [hv])) _

/-- Two faults, of `p` and of `q`, at the same backslash of both, if the backslashes are counted. -/
structure SameBackslash (p q : Bytes) (f g : EscapeFault) : Prop where
  left : p[f.offset]? = some Byte.backslash
  right : q[g.offset]? = some Byte.backslash
  ordinal : (p.take f.offset).count Byte.backslash = (q.take g.offset).count Byte.backslash

/-- Decoding the lexeme and decoding the source give the same units, or both fail, and at the same
backslash. -/
theorem decode_transcodeAll {e : Encoding} {outside : UInt8 → UInt16}
    (he : e.byteUnit? = some outside) (p : Bytes) :
    (∃ units, decode (e.transcodeAll p) = .ok units ∧ decodeBytes outside 0 p = .ok units) ∨
    ∃ f g, decode (e.transcodeAll p) = .error f ∧ decodeBytes outside 0 p = .error g ∧
      SameBackslash (e.transcodeAll p) p f g := by
  obtain ⟨front, chars, back, hdivision⟩ := exists_division he 0 p
  obtain ⟨units, hunits, hdecode⟩ := decode_units_append hdivision.units
  obtain rfl := eq_map_of_unitValue hunits
  rw [← Encoding.transcodeAll_append, ← hdivision.split] at hdecode
  rcases hdivision.outcome with ⟨rfl, hbytes⟩ | ⟨tail, text, text', rfl, htail, hbytes⟩
  · have hend : decode (e.transcodeAll []) = .ok [] := decode_nil
    rw [hend, behind, List.append_nil] at hdecode
    exact Or.inl ⟨_, hdecode, hbytes⟩
  · have hcoded : e.transcodeAll p =
        e.transcodeAll front ++ Byte.backslash :: e.transcodeAll tail := by
      rw [hdivision.split, Encoding.transcodeAll_append,
        Encoding.transcodeAll_cons_of_isAscii e Byte.isAscii_backslash]
    rw [Encoding.transcodeAll_cons_of_isAscii e Byte.isAscii_backslash,
      decode_of_escape_error htail] at hdecode
    refine Or.inr ⟨_, _, hdecode, hbytes, ⟨?_, ?_, ?_⟩⟩
    · simp [hcoded]
    · simp [hdivision.split]
    · rw [hcoded, hdivision.split]
      simp [Encoding.count_transcodeAll e Byte.isAscii_backslash]

/-- Nothing is replaced while the lexeme is decoded. -/
theorem malformed_transcodeAll {e : Encoding} {outside : UInt8 → UInt16}
    (he : e.byteUnit? = some outside) (p : Bytes) : malformed (e.transcodeAll p) = [] := by
  obtain ⟨front, chars, back, hdivision⟩ := exists_division he 0 p
  obtain ⟨us, hchars, -, hsplit⟩ := split_units_append hdivision.units
  rw [← Encoding.transcodeAll_append, ← hdivision.split] at hsplit
  have hrest : (split (e.transcodeAll back)).units = [] := by
    rcases hdivision.outcome with ⟨rfl, -⟩ | ⟨tail, text, -, rfl, htail, -⟩
    · have hnil : e.transcodeAll [] = [] := rfl
      rw [hnil, split]
    · rw [Encoding.transcodeAll_cons_of_isAscii e Byte.isAscii_backslash,
        split_of_escape_error htail]
  rw [malformed, hsplit, hrest, List.append_nil]
  refine malformedFrom_eq_nil (fun u hu => ?_) 0
  have hmem : u.char ∈ chars.map some := hchars ▸ List.mem_map_of_mem hu
  obtain ⟨c, -, hc⟩ := List.mem_map.1 hmem
  rw [← hc]
  rfl

end Payload

/-! ## Literals of a source -/

/-- A string literal lies in the source between its quotes, and its text is what transcoding makes
of these bytes. -/
theorem Reader.exists_raw_of_next {r : Reader} {h : Handle} {l : Lexeme}
    (hinput : r.input? = some h) (hnext : r.next.value = some l) (hliteral : l.category = .string) :
    ∃ raw, Reading.slice h.content l.position.offset r.next.state.position.offset =
        Byte.quote :: (raw ++ [Byte.quote]) ∧
      Lexeme.payload l.text = r.settings.encoding.transcodeAll raw := by
  obtain ⟨c, hc⟩ := cursor_of_next hnext
  obtain ⟨stop, gap, raw, after, hfound, hstate⟩ := next_found hc hnext
  obtain rfl : c.handle = h := by simpa [input?, hc] using hinput
  have hstop : r.next.state.position.offset = l.position.offset + raw.length := by
    rw [hstate, ← hfound.stop_offset]
    rfl
  have htext : l.text = r.settings.encoding.transcodeAll raw := by rw [hfound.text, if_pos hliteral]
  obtain ⟨hraw, -⟩ := Reading.slice_of_drop hfound.start_rest
  obtain ⟨hbody⟩ := hfound.spelled.literal hliteral
  refine ⟨_, by rw [hstop]; exact hraw, ?_⟩
  rw [htext, Encoding.transcodeAll_literal, Lexeme.payload_quoted]

/-- Under Latin-1 and under plain ASCII the lexeme of a literal decodes to what the bytes between
its quotes mean one by one. Where these have a malformed escape the decoding of the lexeme fails
too, and at the same backslash. No sequence is ever replaced. -/
theorem Reader.literal_bytewise {r : Reader} {h : Handle} {l : Lexeme} {outside : UInt8 → UInt16}
    (hinput : r.input? = some h) (hmode : r.settings.encoding.byteUnit? = some outside)
    (hnext : r.next.value = some l) (hliteral : l.category = .string) :
    ∃ raw, Reading.slice h.content l.position.offset r.next.state.position.offset =
        Byte.quote :: (raw ++ [Byte.quote]) ∧
      (∀ units, Payload.decode (Lexeme.payload l.text) = .ok units ↔
        Payload.decodeBytes outside 0 raw = .ok units) ∧
      (∀ f g, Payload.decode (Lexeme.payload l.text) = .error f →
        Payload.decodeBytes outside 0 raw = .error g →
        Payload.SameBackslash (Lexeme.payload l.text) raw f g) ∧
      Lexeme.replacements (Lexeme.payload l.text) = [] := by
  obtain ⟨raw, hslice, hpayload⟩ := exists_raw_of_next hinput hnext hliteral
  rw [hpayload, Lexeme.replacements, Payload.malformed_transcodeAll hmode]
  refine ⟨raw, hslice, ?_, ?_, rfl⟩
  · intro units
    rcases Payload.decode_transcodeAll hmode raw with ⟨units', hok, hbytes⟩ | ⟨f, g, hf, hg, -⟩
    · rw [hok, hbytes]
    · rw [hf, hg]
      exact ⟨nofun, nofun⟩
  · intro f g hf hg
    rcases Payload.decode_transcodeAll hmode raw with ⟨units, hok, -⟩ | ⟨f', g', hf', hg', hsame⟩
    · cases hf.symm.trans hok
    · obtain rfl := Except.error.inj (hf.symm.trans hf')
      obtain rfl := Except.error.inj (hg.symm.trans hg')
      exact hsame

/-- A reader under Latin-1 in front of `"é\n\u12é"`. The last escape lacks a digit in the source. In
the lexeme there are four bytes behind its letter, but they are no digits. -/
def Reader.shortEscape : Reader :=
  Scanner.setEncoding (Reader.ofHandle ⟨0, ⟨"main",
    [34, 0xE9, 92, 110, 92, 117, 49, 50, 0xE9, 34], by decide⟩⟩) .latin1

/-- Both ways of decoding fail at the second backslash, which the lexeme has one byte further on. -/
theorem Reader.literal_bytewise_shortEscape :
    let coded : Bytes := [0xC3, 0xA9, 92, 110, 92, 117, 49, 50, 0xC3, 0xA9]
    let raw : Bytes := [0xE9, 92, 110, 92, 117, 49, 50, 0xE9]
    shortEscape.settings.encoding = .latin1 ∧
      shortEscape.next.value = some ⟨.string, Byte.quote :: (coded ++ [Byte.quote]), .start⟩ ∧
      Payload.decode coded = .error ⟨4, [92, 117, 49, 50, 0xC3, 0xA9]⟩ ∧
      Payload.decodeBytes (fun b => b.toUInt16) 0 raw = .error ⟨3, [92, 117, 49, 50, 0xE9]⟩ ∧
      Payload.SameBackslash coded raw ⟨4, [92, 117, 49, 50, 0xC3, 0xA9]⟩
        ⟨3, [92, 117, 49, 50, 0xE9]⟩ ∧
      Lexeme.replacements coded = [] := by
  intro coded raw
  have hnext : shortEscape.next.value =
      some ⟨.string, Byte.quote :: (coded ++ [Byte.quote]), .start⟩ := by decide +kernel
  have hcoded : Payload.decode coded = .error ⟨4, [92, 117, 49, 50, 0xC3, 0xA9]⟩ := by
    decide +kernel
  have hbytes : Payload.decodeBytes (fun b => b.toUInt16) 0 raw =
      .error ⟨3, [92, 117, 49, 50, 0xE9]⟩ := by decide +kernel
  obtain ⟨raw', hslice, -, hsame, hnone⟩ := literal_bytewise (r := shortEscape) rfl rfl hnext rfl
  have hraw : Reading.slice [34, 0xE9, 92, 110, 92, 117, 49, 50, 0xE9, 34] 0
      shortEscape.next.state.position.offset = Byte.quote :: (raw ++ [Byte.quote]) := by
    decide +kernel
  obtain rfl : raw = raw' :=
    List.append_cancel_right (List.cons.inj (hraw.symm.trans hslice)).2
  exact ⟨rfl, hnext, hcoded, hbytes, hsame _ _ hcoded hbytes, hnone⟩

end SceneTokens
