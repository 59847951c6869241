import SceneTokens.Proofs.Sequences

/-!
# Decoding with guarded accesses

A payload may be decoded in place, with indices into it instead of what is left of it. Then every
access could go wrong: an index or a range might lie outside the payload, a difference might be
below zero, a number might not fit into its word. Here each access is guarded, and a reading that
makes a wrong one has no result (`Guarded.slice`, `Guarded.difference`, `Guarded.word`). Nor has one
that does not move on.

All readings have a result, for all bytes, and it is the one of the plain definitions
(`Guarded.sequence_eq`, `Guarded.decodeFrom_zero`).
-/

namespace SceneTokens

namespace Guarded

/-! ## Accesses -/

/-- The bytes from index `start` up to `stop`, if this is a range of the byte string. -/
def slice (bytes : Bytes) (start stop : Nat) : Option Bytes :=
  if start ≤ stop ∧ stop ≤ bytes.length then some ((bytes.drop start).take (stop - start))
  else none

/-- The difference of two numbers, if it is not below zero. -/
def difference (m n : Nat) : Option Nat :=
  if n ≤ m then some (m - n) else none

/-- A number that fits into 32 bits. -/
def word (n : Nat) : Option Nat :=
  if n < 2 ^ 32 then some n else none

theorem slice_append (front rest : Bytes) {n : Nat} (h : n ≤ rest.length) :
    slice (front ++ rest) front.length (front.length + n) = some (rest.take n) := by
  rw [slice, if_pos ⟨Nat.le_add_right _ _, by simpa using h⟩, List.drop_left,
    Nat.add_sub_cancel_left]

theorem slice_append_length (front rest : Bytes) :
    slice (front ++ rest) front.length (front ++ rest).length = some rest := by
  rw [List.length_append, slice_append front rest (Nat.le_refl _), List.take_length]

/-! ## Sequences -/

/-- Reads continuation bytes from index `i` on, `more` of them, into a word that holds `value`. The
answer is the word, unless one of the bytes is missing or is none, and the index of the byte behind
those that were read. -/
def gather (bytes : Bytes) : Nat → Nat → Nat → Option (Option Nat × Nat)
  | 0, i, value => some (some value, i)
  | more + 1, i, value =>
    match bytes[i]? with
    | none => some (none, i)
    | some b =>
      if Utf8.isContinuation b then do
        let value ← word (value <<< 6 ||| (b &&& 0x3F).toNat)
        gather bytes more (i + 1) value
      else some (none, i)

/-- The sequence at the front of a byte string. -/
def sequence (bytes : Bytes) : Option Utf8.Sequence :=
  match bytes with
  | [] => some ⟨none, 0⟩
  | lead :: _ =>
    if Byte.isAscii lead then some ⟨some (Char.ofNat lead.toNat), 1⟩
    else match Utf8.announced? lead with
      | none => some ⟨none, 1⟩
      | some a => do
        let (value, size) ← gather bytes a.more 1 a.bits
        match value with
        | none => some ⟨none, size⟩
        | some value => some ⟨if a.least ≤ value then Utf8.char? value else none, size⟩

theorem word_of_lt {n k : Nat} (h : n < 2 ^ k) (hk : k ≤ 32) : word n = some n :=
  if_pos (h.trans_le (Nat.pow_le_pow_right (by decide) hk))

/-- Shifting a word and filling in the bits of a digit is counting on. -/
theorem shift_or {value digit n : Nat} (h : digit < 2 ^ n) :
    value <<< n ||| digit = value * 2 ^ n + digit := by
  rw [← Nat.shiftLeft_add_eq_or_of_lt h, Nat.shiftLeft_eq]

/-- A continuation byte adds six bits to a word. -/
theorem gather_continuation {bytes : Bytes} {i more value k : Nat} {b : UInt8}
    (hget : bytes[i]? = some b) (hb : Utf8.isContinuation b = true) (hvalue : value < 2 ^ k)
    (hk : k + 6 ≤ 32) :
    value * 64 + (b.toNat - 0x80) < 2 ^ (k + 6) ∧
      gather bytes (more + 1) i value =
        gather bytes more (i + 1) (value * 64 + (b.toNat - 0x80)) := by
  have hbits : (b &&& 0x3F).toNat < 2 ^ 6 ∧ (b &&& 0x3F).toNat = b.toNat - 0x80 :=
    Byte.forall_of_lt (P := fun b => Utf8.isContinuation b = true →
      (b &&& 0x3F).toNat < 2 ^ 6 ∧ (b &&& 0x3F).toNat = b.toNat - 0x80) (by decide +kernel) b hb
  have hnext : value * 64 + (b.toNat - 0x80) < 2 ^ (k + 6) := by
    rw [Nat.pow_add]
    omega
  have hword : word (value <<< 6 ||| (b &&& 0x3F).toNat) =
      some (value * 64 + (b.toNat - 0x80)) := by
    rw [shift_or hbits.1, hbits.2]
    exact word_of_lt hnext hk
  refine ⟨hnext, ?_⟩
  rw [gather, hget]
  simp only [hb, if_true, hword, Option.bind_eq_bind, Option.bind_some]

/-- The bytes that are gathered are the run of continuation bytes, and their value fits. -/
theorem gather_eq {front rest : Bytes} {more value k : Nat} (hvalue : value < 2 ^ k)
    (hk : k + 6 * more ≤ 32) : gather (front ++ rest) more front.length value =
      some (if (Utf8.continuations more rest).length = more
          then some (Utf8.assemble value (Utf8.continuations more rest)) else none,
        front.length + (Utf8.continuations more rest).length) := by
  induction more generalizing front rest value k with
  | zero => simp [gather, Utf8.continuations, Utf8.assemble]
  | succ more ih =>
    cases rest with
    | nil => simp [gather, Utf8.continuations]
    | cons b rest =>
      cases hb : Utf8.isContinuation b with
      | false => simp [gather, hb, Utf8.continuations]
      | true =>
        have hget : (front ++ b :: rest)[front.length]? = some b := by simp
        obtain ⟨hnext, hstep⟩ := gather_continuation hget hb hvalue (by omega)
        have hrun : Utf8.continuations (more + 1) (b :: rest) =
            b :: Utf8.continuations more rest := by simp [Utf8.continuations, hb]
        have hrest := @ih (front ++ [b]) rest _ (k + 6) hnext (by omega)
        rw [List.append_assoc, List.singleton_append, List.length_append,
          List.length_singleton] at hrest
        rw [hstep, hrest, hrun, List.length_cons, Utf8.assemble_cons, Nat.add_assoc,
          Nat.add_comm 1]
        simp only [Nat.succ_inj]

/-- No index of a sequence is out of range, and no value leaves its word: three continuation bytes
and the bits of the lead byte are 21 bits. -/
theorem sequence_eq (bytes : Bytes) : sequence bytes = some (Utf8.sequence bytes) := by
  cases bytes with
  | nil => rfl
  | cons lead rest =>
    cases hascii : Byte.isAscii lead with
    | true => simp [sequence, Utf8.sequence, hascii]
    | false =>
      cases ha : Utf8.announced? lead with
      | none => simp [sequence, Utf8.sequence, hascii, ha]
      | some a =>
        obtain ⟨k, hk, m, hm, -, rfl⟩ := Utf8.exists_of_announced? ha
        have hgather := @gather_eq [lead] rest (k + 1) m (5 - k) hm (by omega)
        rw [List.singleton_append, List.length_singleton] at hgather
        simp only [sequence, Utf8.sequence, hascii, ha, hgather, Bool.false_eq_true, if_false,
          Option.bind_eq_bind, Option.bind_some]
        by_cases hlength : (Utf8.continuations (k + 1) rest).length = k + 1
        · simp only [hlength, if_true, true_and]
          split <;> rfl
        · simp only [hlength, if_false, false_and]

/-! ## Escapes -/

/-- The fault of an escape with its backslash at `start`, of which the bytes before `stop` are
shown. -/
def fault {α : Type} (payload : Bytes) (start stop : Nat) : Option (Except EscapeFault α) := do
  let text ← slice payload start stop
  some (.error ⟨start, text⟩)

/-- Reads hexadecimal digits into a word that holds `value`; `none` within if one is no digit. -/
def hexNumber : Bytes → Nat → Option (Option Nat)
  | [], value => some (some value)
  | b :: rest, value =>
    match Byte.hexValue? b with
    | none => some none
    | some digit => do
      let value ← word (value <<< 4 ||| digit)
      hexNumber rest value

/-- The `n` digits at index `i` of an escape with its backslash at `start`: the character they stand
for, and the index behind them. -/
def digits (payload : Bytes) (start i n : Nat) :
    Option (Except EscapeFault (Option Char × Nat)) :=
  if payload.length < i + n then fault payload start payload.length
  else do
    let run ← slice payload i (i + n)
    match ← hexNumber run 0 with
    | none => fault payload start (i + n)
    | some value =>
      match Utf8.char? value with
      | none => fault payload start (i + n)
      | some c => some (.ok (some c, i + n))

/-- How many bytes a letter takes that stands at index `i` and makes no escape. -/
def letterSize (payload : Bytes) (i : Nat) (letter : UInt8) : Option Nat :=
  if Byte.isAscii letter then some 1
  else do
    let rest ← slice payload i payload.length
    let s ← sequence rest
    some s.size

/-- The escape with its backslash at `start`: its character, and the index behind it. -/
def escape (payload : Bytes) (start : Nat) :
    Option (Except EscapeFault (Option Char × Nat)) := do
  let left ← difference payload.length start
  if left < 2 then fault payload start payload.length
  else
    let letter ← payload[start + 1]?
    match Payload.letterEscape? letter with
    | some c => some (.ok (some c, start + 2))
    | none =>
      match Payload.hexDigits? letter with
      | some n => digits payload start (start + 2) n
      | none =>
        let size ← letterSize payload (start + 1) letter
        fault payload start (start + 1 + size)

/-- What a spelling or the text of a malformed escape comes to at index `start`. -/
def placed (start : Nat) : Except Bytes Spelling → Except EscapeFault (Option Char × Nat)
  | .error text => .error ⟨start, text⟩
  | .ok s => .ok (s.char, start + s.raw.length)

theorem fault_append {α : Type} (front rest : Bytes) {n : Nat} (h : n ≤ rest.length) :
    fault (front ++ rest) front.length (front.length + n) =
      some (.error ⟨front.length, rest.take n⟩ : Except EscapeFault α) := by
  simp only [fault, slice_append front rest h, Option.bind_eq_bind, Option.bind_some]

/-- Each digit adds four bits, so eight of them fit into a word. -/
theorem hexNumber_eq {d : Bytes} {value k : Nat} (hvalue : value < 2 ^ k)
    (hk : k + 4 * d.length ≤ 32) : hexNumber d value =
      some (d.foldlM (fun value b => (Byte.hexValue? b).map (value * 16 + ·)) value) := by
  induction d generalizing value k with
  | nil => rfl
  | cons b d ih =>
    rw [List.length_cons] at hk
    cases hb : Byte.hexValue? b with
    | none => simp [hexNumber, hb]
    | some digit =>
      have hdigit : digit < 2 ^ 4 := by
        have hall : (Byte.hexValue? b).all fun digit => digit < 2 ^ 4 :=
          Byte.forall_of_lt (P := fun b => (Byte.hexValue? b).all fun digit => digit < 2 ^ 4)
            (by decide +kernel) b
        simpa [hb] using hall
      have hnext : value * 16 + digit < 2 ^ (k + 4) := by
        rw [Nat.pow_add]
        omega
      have hword : word (value <<< 4 ||| digit) = some (value * 16 + digit) := by
        rw [shift_or hdigit]
        exact word_of_lt hnext (by omega)
      rw [hexNumber, hb, List.foldlM_cons, hb]
      simp only [hword, Option.bind_eq_bind, Option.bind_some, Option.map_some]
      exact ih hnext (by omega)

/-- Digits are read only if all of them are there, and up to eight of them fit into a word. -/
theorem digits_eq (front : Bytes) (letter : UInt8) (rest : Bytes) {n : Nat} (hn : n ≤ 8) :
    digits (front ++ Byte.backslash :: letter :: rest) front.length (front.length + 2) n =
      some (match Payload.numericEscape? n rest with
        | some c => .ok (some c, front.length + 2 + n)
        | none => .error ⟨front.length, Byte.backslash :: letter :: rest.take n⟩) := by
  have hlength : (front ++ Byte.backslash :: letter :: rest).length =
      front.length + 2 + rest.length := by
    simp only [List.length_append, List.length_cons]
    omega
  unfold digits Payload.numericEscape?
  by_cases hle : n ≤ rest.length
  · have hslice : slice (front ++ Byte.backslash :: letter :: rest) (front.length + 2)
        (front.length + 2 + n) = some (rest.take n) := by
      simpa using slice_append (front ++ [Byte.backslash, letter]) rest hle
    have hfault : fault (front ++ Byte.backslash :: letter :: rest) front.length
        (front.length + 2 + n) =
          some (.error ⟨front.length, Byte.backslash :: letter :: rest.take n⟩ :
            Except EscapeFault (Option Char × Nat)) := by
      rw [Nat.add_assoc, Nat.add_comm 2, fault_append _ _ (by simpa using hle)]
      rfl
    have hnumber : hexNumber (rest.take n) 0 = some (Payload.hexNumber? (rest.take n)) := by
      refine hexNumber_eq (k := 0) (by decide) ?_
      rw [List.length_take]
      omega
    rw [if_neg (by omega), if_pos hle]
    simp only [hslice, hnumber, hfault, Option.bind_eq_bind, Option.bind_some]
    cases Payload.hexNumber? (rest.take n) with
    | none => rfl
    | some value =>
      dsimp only [Option.bind_some]
      cases Utf8.char? value with
      | none => rfl
      | some c => rfl
  · rw [if_pos (by omega), if_neg hle, List.length_append, fault_append _ _ (Nat.le_refl _),
      List.take_length, List.take_of_length_le (Nat.le_of_not_le hle)]

theorem letterSize_eq (front : Bytes) (letter : UInt8) (rest : Bytes) :
    letterSize (front ++ letter :: rest) front.length letter =
      some (Utf8.sequence (letter :: rest)).size := by
  unfold letterSize
  split
  · rename_i hascii
    simp [Utf8.sequence, hascii]
  · simp only [slice_append_length, sequence_eq, Option.bind_eq_bind, Option.bind_some]

/-- The escape at an index is the one that the bytes from there on spell. -/
theorem escape_eq (front back : Bytes) :
    escape (front ++ Byte.backslash :: back) front.length =
      some (placed front.length (Payload.escape back)) := by
  have hleft : difference (front ++ Byte.backslash :: back).length front.length =
      some (1 + back.length) := by
    rw [difference, List.length_append, if_pos (Nat.le_add_right _ _), Nat.add_sub_cancel_left,
      List.length_cons, Nat.add_comm]
  cases back with
  | nil =>
    simp only [escape, hleft, Option.bind_eq_bind, Option.bind_some, List.length_nil]
    rw [if_pos (by decide), List.length_append, fault_append _ _ (Nat.le_refl _)]
    rfl
  | cons letter rest =>
    have hletter : (front ++ Byte.backslash :: letter :: rest)[front.length + 1]? =
        some letter := by
      rw [List.getElem?_append_right (Nat.le_add_right _ 1), Nat.add_sub_cancel_left]
      rfl
    have htwo : ¬1 + (letter :: rest).length < 2 := by
      rw [List.length_cons]
      omega
    simp only [escape, hleft, hletter, htwo, if_false, Option.bind_eq_bind, Option.bind_some]
    simp only [Payload.escape]
    cases Payload.letterEscape? letter with
    | some c => rfl
    | none =>
      cases hn : Payload.hexDigits? letter with
      | some n =>
        have hfew : ∀ x ∈ Grammar.numericEscapes, x.2 ≤ 8 := by decide
        have hdigits := digits_eq front letter rest (hfew _ (Payload.hexDigits?_eq_some_iff.1 hn))
        dsimp only
        rw [hdigits]
        cases hc : Payload.numericEscape? n rest with
        | none => rfl
        | some c =>
          have hlength : (Byte.backslash :: letter :: rest.take n).length = 2 + n := by
            have hle := (Payload.numericEscape?_eq_some_iff.1 hc).1
            simp only [List.length_cons, List.length_take]
            omega
          simp only [placed, hlength, Nat.add_assoc]
      | none =>
        have hsize : letterSize (front ++ Byte.backslash :: letter :: rest) (front.length + 1)
            letter = some (Utf8.sequence (letter :: rest)).size := by
          simpa using letterSize_eq (front ++ [Byte.backslash]) letter rest
        have hle := Utf8.sequence_size_le (letter :: rest)
        dsimp only
        rw [hsize]
        simp only [Option.bind_some]
        rw [Nat.add_assoc, fault_append _ _ (by rw [List.length_cons]; omega), Nat.add_comm 1,
          List.take_succ_cons]
        rfl

/-! ## Payloads -/

/-- What stands at index `i`: a character, or `none` within for a malformed sequence, and the index
behind it. -/
def unit (payload : Bytes) (i : Nat) : Option (Except EscapeFault (Option Char × Nat)) := do
  let b ← payload[i]?
  if b = Byte.backslash then escape payload i
  else if Byte.isAscii b then some (.ok (some (Char.ofNat b.toNat), i + 1))
  else
    let rest ← slice payload i payload.length
    let s ← sequence rest
    some (.ok (s.char, i + s.size))

/-- What stands at an index is what the bytes from there on spell. -/
theorem unit_eq (front : Bytes) (b : UInt8) (rest : Bytes) :
    unit (front ++ b :: rest) front.length =
      some (placed front.length (Payload.spelling b rest)) := by
  have hget : (front ++ b :: rest)[front.length]? = some b := by simp
  have hsize := Utf8.sequence_size_le (b :: rest)
  simp only [unit, hget, Option.bind_eq_bind, Option.bind_some, Payload.spelling]
  split
  · rename_i hb
    rw [hb, escape_eq]
  · split
    · rename_i hascii
      simp [placed, Utf8.sequence, hascii]
    · simp only [slice_append_length, sequence_eq, Option.bind_some, placed, List.length_take,
        Nat.min_eq_left hsize]

/-- What decoding comes to: the units or the first fault, and where malformed sequences were
replaced. -/
structure Decoded where
  units : Except EscapeFault (List UInt16)
  malformed : List (Nat × Nat)
deriving DecidableEq, Repr

/-- Decoding that goes on behind what stands from index `i` up to `j`. -/
def Decoded.after (i j : Nat) (char : Option Char) (more : Decoded) : Decoded where
  units := more.units.map ((char.elim Utf8.replacement Char.toNat).toUInt16 :: ·)
  malformed := if char.isNone then (i, j - i) :: more.malformed else more.malformed

/-- Decodes a payload from index `i` on. -/
def decodeFrom (payload : Bytes) (i : Nat) : Option Decoded :=
  if _hi : i < payload.length then do
    match ← unit payload i with
    | .error fault => some ⟨.error fault, []⟩
    | .ok (char, j) =>
      if _hj : i < j then do
        let more ← decodeFrom payload j
        some (more.after i j char)
      else none
  else some ⟨.ok [], []⟩
termination_by payload.length - i

/-- Decoding takes one unit after the other. -/
theorem decode_unit_append {raw after : Bytes} {char : Option Char}
    (h : Grammar.PayloadUnit raw char after) : Payload.decode (raw ++ after) =
      Payload.behind raw.length [(Spelling.mk raw char).unit] (Payload.decode after) := by
  unfold Payload.decode
  dsimp only
  rw [Payload.split_unit_append h]
  cases (Payload.split after).stuck with
  | none => rfl
  | some text => simp [Payload.behind, Payload.rawSize]

theorem map_behind (m n : Nat) (u : UInt16) (outcome : Except EscapeFault (List UInt16)) :
    (Payload.behind (m + n) [] outcome).map (u :: ·) =
      Payload.behind m [] (Payload.behind n [u] outcome) := by
  cases outcome with
  | ok units => rfl
  | error fault => simp [Payload.behind, Except.map, Nat.add_assoc]

/-- Decoding from an index on has a result, which is that of the bytes from there on. -/
theorem decodeFrom_eq (front rest : Bytes) : decodeFrom (front ++ rest) front.length =
    some ⟨Payload.behind front.length [] (Payload.decode rest),
      Payload.malformedFrom front.length (Payload.split rest).units⟩ := by
  fun_induction Payload.split rest generalizing front with
  | case1 =>
    rw [decodeFrom, dif_neg (by simp), Payload.decode_nil]
    rfl
  | case2 b rest text hspelling =>
    obtain ⟨rfl, hescape⟩ : b = Byte.backslash ∧ Payload.escape rest = .error text := by
      unfold Payload.spelling at hspelling
      split at hspelling
      · exact ⟨‹_›, hspelling⟩
      · cases hspelling
    rw [decodeFrom, dif_pos (by simp), unit_eq, hspelling, Payload.decode_of_escape_error hescape]
    rfl
  | case3 b rest unit hspelling more ih =>
    obtain ⟨raw, char⟩ := unit
    obtain ⟨after, hbytes, hunit⟩ := Payload.spelling_eq_ok_iff.1 hspelling
    have hpos := List.length_pos_iff.2 (Payload.spelling_raw_ne_nil hspelling)
    dsimp only at hbytes hunit hpos
    have hdrop : (b :: rest).drop raw.length = after := by rw [hbytes, List.drop_left]
    have hrest := ih (front ++ raw)
    dsimp only at hrest
    rw [hdrop, List.append_assoc, ← hbytes, List.length_append] at hrest
    have hvalue : (char.elim Utf8.replacement Char.toNat).toUInt16 =
        (Spelling.mk raw char).unit := by
      cases char with
      | none => rfl
      | some c => rfl
    have hstep : decodeFrom (front ++ b :: rest) front.length =
        (decodeFrom (front ++ b :: rest) (front.length + raw.length)).bind fun more =>
          some (more.after front.length (front.length + raw.length) char) := by
      rw [decodeFrom, dif_pos (by simp), unit_eq, hspelling]
      simp only [placed, Option.bind_eq_bind, Option.bind_some]
      rw [dif_pos (by omega)]
    rw [hstep, hrest, Option.bind_some]
    simp only [more, hdrop]
    rw [hbytes, decode_unit_append hunit, Decoded.after, hvalue, map_behind,
      Nat.add_sub_cancel_left, Payload.malformedFrom]

/-- Decoded in place from its start, a payload gives what it gives by the plain definitions. -/
theorem decodeFrom_zero (payload : Bytes) : decodeFrom payload 0 =
    some ⟨Payload.decode payload, Payload.malformed payload⟩ := by
  have hfrom := decodeFrom_eq [] payload
  rw [List.nil_append, List.length_nil] at hfrom
  rw [hfrom]
  cases Payload.decode payload with
  | ok units => rfl
  | error fault => simp [Payload.behind, Payload.malformed]

end Guarded

end SceneTokens
