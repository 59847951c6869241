import SceneTokens.Proofs.Counterparts
import SceneTokens.Proofs.Decimals
import SceneTokens.Proofs.Guarded

/-!
# Tokens with guarded accesses

Numbers are found, string literals are decoded and the places of their escapes are looked up by
index, with the accesses of `Guarded`. A scanner may hand out any lexeme, of any category and with
any bytes and position, and claim any input for it. No lexeme leads to an access out of range, and
what is read is what a tokenizer reads (`Guarded.next_in_range`).
-/

namespace SceneTokens

namespace Guarded

/-! ## Numbers -/

/-- Number of digits from index `start` on. -/
def digitsFrom (text : Bytes) (start : Nat) : Option Nat := do
  let rest ← slice text start text.length
  some (rest.takeWhile Byte.isDigit).length

/-- Number of digits behind a point at index `i`, 0 if there is no point. -/
def fractionDigits (text : Bytes) (i : Nat) : Option Nat :=
  if text[i]? = some Byte.point then digitsFrom text (i + 1) else some 0

/-- The index behind a sign at index `i`, or `i` if there is none. -/
def skipSign (text : Bytes) (i : Nat) : Nat :=
  if (text[i]?).any Byte.isSign then i + 1 else i

/-- Where a numeral ends of which the part before the exponent ends at index `i`. -/
def exponentEnd (text : Bytes) (i : Nat) : Option Nat :=
  if (text[i]?).any Exponent.isLetter then do
    let j := skipSign text (i + 1)
    let count ← digitsFrom text (min j text.length)
    some (if 0 < count then j + count else i)
  else some i

/-- Number of bytes of the longest numeral at the front, 0 if there is none. -/
def prefixSize (text : Bytes) : Option Nat := do
  let start := skipSign text 0
  let whole ← digitsFrom text start
  let i := start + whole
  let fraction ← fractionDigits text i
  if whole + fraction = 0 then some 0
  else exponentEnd text (if text[i]? = some Byte.point then i + 1 + fraction else i)

/-- The number at the front of a byte string, leading blanks aside. -/
def readNumber (text : Bytes) : Option (Option Binary64) := do
  let stripped ← slice text (text.takeWhile Byte.isBlank).length text.length
  let size ← prefixSize stripped
  if size = 0 then some none
  else
    let numeral ← slice stripped 0 size
    some ((Numeral.read? numeral).map Binary64.ofNumeral)

theorem digitsFrom_append (front rest : Bytes) :
    digitsFrom (front ++ rest) front.length = some (rest.takeWhile Byte.isDigit).length := by
  simp only [digitsFrom, slice_append_length, Option.bind_eq_bind, Option.bind_some]

theorem getElem?_append_length (front rest : Bytes) :
    (front ++ rest)[front.length]? = rest.head? := by
  rw [List.getElem?_append_right (Nat.le_refl _), Nat.sub_self, List.head?_eq_getElem?]

theorem skipSign_append (front rest : Bytes) : skipSign (front ++ rest) front.length =
    (front ++ (Numeral.splitSign rest).1.toList).length := by
  rw [skipSign, getElem?_append_length]
  cases rest with
  | nil => simp [Numeral.splitSign]
  | cons b rest =>
    by_cases hb : Byte.isSign b = true
    · simp [Numeral.splitSign, hb]
    · simp [Numeral.splitSign, hb]

/-- The digits of an exponent are looked for behind its letter and sign, which may be the last
bytes. -/
theorem exponentEnd_append (front rest : Bytes) : exponentEnd (front ++ rest) front.length =
    some (front ++ ((Exponent.read? rest).map Exponent.text).getD []).length := by
  rw [exponentEnd, getElem?_append_length]
  cases rest with
  | nil => simp [Exponent.read?]
  | cons b rest =>
    by_cases hb : Exponent.isLetter b = true
    · rcases hs : Numeral.splitSign rest with ⟨sign, tail⟩
      have hrest : sign.toList ++ tail = rest := by
        simpa [hs] using (Piece.splitSign_append : _ = rest)
      have hsign : skipSign (front ++ b :: rest) (front.length + 1) =
          front.length + (sign.toList.length + 1) := by
        simpa [hs] using skipSign_append (front ++ [b]) rest
      have hdigits : digitsFrom (front ++ b :: rest) (front.length + (sign.toList.length + 1)) =
          some (tail.takeWhile Byte.isDigit).length := by
        simpa [hrest] using digitsFrom_append (front ++ b :: sign.toList) tail
      have hmin : min (front.length + (sign.toList.length + 1)) (front ++ b :: rest).length =
          front.length + (sign.toList.length + 1) := by
        simp only [← hrest, List.length_append, List.length_cons]
        omega
      simp only [List.head?_cons, Option.any_some, hb, if_true, hsign, hmin, hdigits,
        Option.bind_eq_bind, Option.bind_some, Exponent.read?, hs]
      by_cases hnone : tail.takeWhile Byte.isDigit = []
      · simp [hnone]
      · simp [hnone, Exponent.text, List.length_pos_iff]
        omega
    · simp [Exponent.read?, hb]

/-- The point at the front of `after` and the digits behind it are found by index. -/
theorem fraction_append (front after : Bytes) :
    fractionDigits (front ++ after) front.length =
      some ((Numeral.readFraction? after).getD []).length ∧
    (if (front ++ after)[front.length]? = some Byte.point
      then front.length + 1 + ((Numeral.readFraction? after).getD []).length else front.length) =
        (front ++ Numeral.fractionText (Numeral.readFraction? after)).length := by
  rw [fractionDigits, getElem?_append_length]
  cases after with
  | nil => simp [Numeral.readFraction?, Numeral.fractionText]
  | cons c rest =>
    by_cases hc : c = Byte.point
    · subst hc
      have hdigits : digitsFrom (front ++ Byte.point :: rest) (front.length + 1) =
          some (rest.takeWhile Byte.isDigit).length := by
        simpa using digitsFrom_append (front ++ [Byte.point]) rest
      simp [Numeral.readFraction?, Numeral.fractionText, hdigits]
      omega
    · simp [Numeral.readFraction?, Numeral.fractionText, hc]

/-- The sign, the digits, the point and the exponent are found where they stand. -/
theorem prefixSize_eq (text : Bytes) : prefixSize text = some (Numeral.prefixSize text) := by
  rcases hs : Numeral.splitSign text with ⟨sign, unsigned⟩
  have htext : sign.toList ++ unsigned = text := by
    simpa [hs] using (Piece.splitSign_append : _ = text)
  have hstart : skipSign text 0 = sign.toList.length := by
    simpa [hs] using skipSign_append [] text
  have hwhole := digitsFrom_append sign.toList unsigned
  rw [htext] at hwhole
  generalize hw : unsigned.takeWhile Byte.isDigit = whole at hwhole
  generalize ha : unsigned.dropWhile Byte.isDigit = after
  have hcut : sign.toList ++ whole ++ after = text := by
    rw [← htext, ← hw, ← ha, List.append_assoc, List.takeWhile_append_dropWhile]
  obtain ⟨hfraction, hend⟩ := fraction_append (sign.toList ++ whole) after
  obtain ⟨rest, hrest⟩ := (Numeral.fractionText_readFraction? after).1
  simp only [Numeral.prefixSize, Numeral.read?, hs, hw, ha]
  generalize Numeral.readFraction? after = fraction at *
  have hexponent := exponentEnd_append (sign.toList ++ whole ++ Numeral.fractionText fraction) rest
  have hafter : after.drop (Numeral.fractionText fraction).length = rest := by
    rw [← hrest, List.drop_left]
  rw [List.append_assoc _ _ rest, hrest, hcut] at hexponent
  rw [hcut, List.length_append] at hfraction hend
  simp only [prefixSize, hstart, hwhole, hfraction, hend, hexponent, Option.bind_eq_bind,
    Option.bind_some, hafter]
  by_cases hnone : whole = [] ∧ fraction.getD [] = []
  · simp [hnone]
  · have hsome : ¬(whole.isEmpty && (fraction.getD []).isEmpty) = true := by
      simpa using hnone
    have hcount : whole.length + (fraction.getD []).length ≠ 0 := by
      simpa [List.length_eq_zero_iff] using hnone
    rw [if_neg hcount, if_neg hsome]
    rfl

theorem prefixSize_le (text : Bytes) : Numeral.prefixSize text ≤ text.length := by
  cases h : Numeral.read? text with
  | none => simp [Numeral.prefixSize, h]
  | some n => simpa [Numeral.prefixSize, h] using (Numeral.wellFormed_of_read? h).2.length_le

theorem readNumber_eq (text : Bytes) : readNumber text = some (Binary64.read? text) := by
  have hstripped : slice text (text.takeWhile Byte.isBlank).length text.length =
      some (text.dropWhile Byte.isBlank) := by
    simpa using slice_append_length (text.takeWhile Byte.isBlank) (text.dropWhile Byte.isBlank)
  simp only [readNumber, hstripped, prefixSize_eq, Option.bind_eq_bind, Option.bind_some,
    Binary64.read?]
  generalize text.dropWhile Byte.isBlank = stripped
  by_cases hzero : Numeral.prefixSize stripped = 0
  · rw [if_pos hzero, Numeral.prefixSize_eq_zero_iff.1 hzero]
    rfl
  · have hnumeral : slice stripped 0 (Numeral.prefixSize stripped) =
        some (stripped.take (Numeral.prefixSize stripped)) := by
      simpa using slice_append [] stripped (prefixSize_le stripped)
    rw [if_neg hzero, hnumeral, Option.bind_some, Numeral.read?_take]

/-! ## Places of escapes -/

/-- The index of the `n`-th backslash, counted from 0. -/
def backslashIndex? (n : Nat) (raw : Bytes) : Option Nat :=
  ((raw.zipIdx.filter fun x => x.1 == Byte.backslash)[n]?).map Prod.snd

/-- The position of a backslash that stands at `offset` in the payload of a string lexeme. -/
def escapePosition (input : Option Handle) (l : Lexeme) (offset : Nat) : Option Position := do
  let before ← slice l.text 0 (1 + offset)
  match Lexeme.quotedInput? input l with
  | none => some (l.position.reach before)
  | some raw =>
    match backslashIndex? (before.count Byte.backslash) raw with
    | none => some (l.position.reach before)
    | some i =>
      let front ← slice raw 0 i
      some (l.position.reach front)

/-- The index of a backslash is the number of bytes before it. -/
theorem backslashIndex?_eq (n : Nat) (raw : Bytes) :
    backslashIndex? n raw = (Lexeme.beforeBackslash? n raw).map List.length := by
  -- The indices are counted from `k` on, so that the tail of the bytes can be reached.
  have hfrom (k : Nat) :
      (((raw.zipIdx k).filter fun x => x.1 == Byte.backslash)[n]?).map Prod.snd =
        (Lexeme.beforeBackslash? n raw).map fun before => k + before.length := by
    fun_induction Lexeme.beforeBackslash? n raw generalizing k with
    | case1 n => rfl
    | case2 raw => simp [List.zipIdx_cons]
    | case3 raw n ih =>
      simp [List.zipIdx_cons, ih, Function.comp_def, Nat.add_assoc, Nat.add_comm 1]
    | case4 n b raw hb ih =>
      simp [List.zipIdx_cons, hb, ih, Function.comp_def, Nat.add_assoc, Nat.add_comm 1]
  simpa [backslashIndex?] using hfrom 0

/-- The place of an escape that lies within the text is looked up without an access out of range. -/
theorem escapePosition_eq (input : Option Handle) (l : Lexeme) {offset : Nat}
    (h : 1 + offset ≤ l.text.length) :
    escapePosition input l offset = some (l.escapePosition input offset) := by
  have hbefore : slice l.text 0 (1 + offset) = some (l.text.take (1 + offset)) := by
    simpa using slice_append [] l.text h
  simp only [escapePosition, hbefore, backslashIndex?_eq, Option.bind_eq_bind, Option.bind_some,
    Lexeme.escapePosition]
  cases Lexeme.quotedInput? input l with
  | none => rfl
  | some raw =>
    dsimp only
    rw [Option.bind_some]
    generalize (l.text.take (1 + offset)).count Byte.backslash = ordinal
    cases hfound : Lexeme.beforeBackslash? ordinal raw with
    | none => rfl
    | some before =>
      obtain ⟨after, hraw⟩ := (Lexeme.beforeBackslash?_eq_some_iff.1 hfound).2
      have hfront : slice raw 0 before.length = some before := by
        rw [← hraw, List.append_assoc]
        simpa using slice_append [] (before ++ ([Byte.backslash] ++ after)) (n := before.length)
      rw [Option.map_some]
      dsimp only
      rw [hfront]
      rfl

example : escapePosition none ⟨.string, [34, 34], Position.start⟩ 2 = none := by decide

/-! ## Lexemes -/

/-- The meaning of a number. -/
def interpretNumber (l : Lexeme) (words : WordTable) :
    Option (Step WordTable (Except TokenFault Token)) := do
  match ← readNumber l.text with
  | some value => some (Lexeme.understood (.ofFloat l value) words [])
  | none => some ⟨.error (.malformedNumber l.position l.text), words, [.numberMalformed l]⟩

/-- The meaning of a string literal. -/
def interpretString (input : Option Handle) (l : Lexeme) (words : WordTable) :
    Option (Step WordTable (Except TokenFault Token)) :=
  if Lexeme.isQuoted l.text then do
    let stop ← difference l.text.length 1
    let payload ← slice l.text 1 stop
    let decoded ← decodeFrom payload 0
    let replaced := decoded.malformed.map fun m => Event.sequenceReplaced m.1 m.2
    match decoded.units with
    | .ok units => some (Lexeme.understood (.ofString l units) words replaced)
    | .error fault =>
      let position ← escapePosition input l fault.offset
      some ⟨.error (.invalidEscape input position fault.text), words, replaced⟩
  else some (l.unexpected words)

/-- The meaning of a lexeme. Words and symbols are compared as a whole. -/
def interpret (input : Option Handle) (l : Lexeme) (words : WordTable) :
    Option (Step WordTable (Except TokenFault Token)) :=
  match l.category with
  | .word => some (l.interpretWord words)
  | .number => interpretNumber l words
  | .string => interpretString input l words
  | .symbol => some (l.interpretSymbol words)

theorem interpretNumber_eq (l : Lexeme) (words : WordTable) :
    interpretNumber l words = some (l.interpretNumber words) := by
  simp only [interpretNumber, readNumber_eq, Option.bind_eq_bind, Option.bind_some,
    Lexeme.interpretNumber]
  cases Binary64.read? l.text with
  | none => rfl
  | some value => rfl

/-- The payload is a range of a text in quotes. -/
theorem payload_in_range {text : Bytes} (h : Lexeme.isQuoted text = true) :
    difference text.length 1 = some (1 + (Lexeme.payload text).length) ∧
      slice text 1 (1 + (Lexeme.payload text).length) = some (Lexeme.payload text) := by
  have htext := Lexeme.eq_quoted_of_isQuoted h
  generalize Lexeme.payload text = payload at htext
  subst htext
  constructor
  · simp [difference, Nat.add_comm]
  · have hslice := slice_append [Byte.quote] (payload ++ [Byte.quote]) (n := payload.length)
      (by simp)
    rwa [List.take_left] at hslice

/-- The backslash of a malformed escape stands within the text. -/
theorem fault_in_range {text : Bytes} {fault : EscapeFault} (hquoted : Lexeme.isQuoted text = true)
    (hdecode : Payload.decode (Lexeme.payload text) = .error fault) :
    1 + fault.offset ≤ text.length := by
  obtain ⟨front, back, rfl, hlength⟩ := Lexeme.exists_of_fault hquoted hdecode
  rw [← hlength, List.length_append]
  exact Nat.le_add_right _ _

/-- A fault of decoding lies within the text, so its place can be looked up. -/
theorem interpretString_eq (input : Option Handle) (l : Lexeme) (words : WordTable) :
    interpretString input l words = some (l.interpretString input words) := by
  unfold interpretString Lexeme.interpretString
  by_cases hquoted : Lexeme.isQuoted l.text = true
  · obtain ⟨hstop, hpayload⟩ := payload_in_range hquoted
    simp only [hquoted, if_true, hstop, hpayload, decodeFrom_zero, Option.bind_eq_bind,
      Option.bind_some]
    cases hdecode : Payload.decode (Lexeme.payload l.text) with
    | ok units => rfl
    | error fault =>
      dsimp only
      rw [escapePosition_eq input l (fault_in_range hquoted hdecode)]
      rfl
  · rw [if_neg hquoted, if_neg hquoted]

theorem interpret_eq (input : Option Handle) (l : Lexeme) (words : WordTable) :
    interpret input l words = some (l.interpret input words) := by
  unfold interpret Lexeme.interpret
  cases l.category with
  | word => rfl
  | number => exact interpretNumber_eq l words
  | string => exact interpretString_eq input l words
  | symbol => rfl

/-! ## Tokenizers -/

variable {σ : Type} [Scanner σ]

/-- Reads the next token, `none` within at the end. -/
def next (t : Tokenizer σ) : Option (Step (Tokenizer σ) (Option Item)) :=
  let step := Scanner.next t.scanner
  match step.value with
  | none => some ⟨none, { t with scanner := step.state }, step.events⟩
  | some lexeme => do
    let meaning ← interpret (Scanner.input? step.state) lexeme t.words
    some ⟨some meaning.value, ⟨step.state, meaning.state⟩, step.events ++ meaning.events⟩

theorem next_eq (t : Tokenizer σ) : next t = some t.next := by
  cases hnext : (Scanner.next t.scanner).value with
  | none => simp only [next, hnext, Tokenizer.next_of_none hnext]
  | some l =>
    simp only [next, hnext, interpret_eq, Option.bind_eq_bind, Option.bind_some,
      Tokenizer.next_of_some hnext]

/-- Reads all tokens up to the end. -/
def drain (t : Tokenizer σ) : Option (Step (Tokenizer σ) (List Item)) :=
  match _hstep : next t with
  | none => none
  | some step =>
    match _hitem : step.value with
    | none => some ⟨[], step.state, step.events⟩
    | some item => do
      let more ← drain step.state
      some ⟨item :: more.value, more.state, step.events ++ more.events⟩
termination_by Scanner.remaining t.scanner
decreasing_by
  obtain rfl : t.next = step := Option.some.inj ((next_eq t).symm.trans _hstep)
  rw [Tokenizer.next_scanner]
  exact Scanner.next_remaining t.scanner (t.next_isSome ▸ Option.isSome_of_eq_some _hitem)

theorem drain_unfold (t : Tokenizer σ) : drain t =
    match t.next.value with
    | none => some ⟨[], t.next.state, t.next.events⟩
    | some item => (drain t.next.state).bind fun more =>
      some ⟨item :: more.value, more.state, t.next.events ++ more.events⟩ := by
  rw [drain]
  split
  · rename_i hstep
    cases (next_eq t).symm.trans hstep
  · rename_i hstep
    obtain rfl := Option.some.inj ((next_eq t).symm.trans hstep)
    split <;> simp [*]

/-- All tokens up to the end, by induction on the lexemes to come. -/
theorem drain_eq (t : Tokenizer σ) : drain t = some t.drain := by
  fun_induction Tokenizer.drain t with
  | case1 t step hend =>
    rw [drain_unfold, hend]
  | case2 t step item hitem more ih =>
    rw [drain_unfold, hitem]
    dsimp only
    rw [ih, Option.bind_some]

/-- No lexeme that a scanner hands out leads to an access out of range, whatever its category, its
bytes and its position are and whatever input is attached: reading with guarded accesses has a
result for one token and for all up to the end, and it is that of the tokenizer. -/
theorem next_in_range (t : Tokenizer σ) : next t = some t.next ∧ drain t = some t.drain :=
  ⟨next_eq t, drain_eq t⟩

end Guarded

end SceneTokens
