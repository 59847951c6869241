import SceneTokens.Proofs.Messages

/-!
# Sequences and the standard encoding

A value is laid out in a lead byte and `k` continuation bytes, six bits in each of these and the
highest bits in the lead byte (`Grammar.layout`). There is room for more values than characters: a
value may fit into fewer bytes, or be no scalar value. The standard encoding of a character is its
shortest layout (`Utf8.encode_eq_layout`), and bytes that announce and assemble a value are a layout
of it (`Utf8.Multibyte.eq_layout`), so nothing but a standard encoding is read as a character.

How many bytes belong together is said apart from what they encode (`Grammar.Extent`): a lead byte
and the continuation bytes behind it, up to the number announced. `Utf8.sequence_exact` puts the two
together.
-/

namespace SceneTokens

namespace Grammar

/-! ## Layouts -/

/-- The number of values that fit into `k` continuation bytes and a lead byte. -/
def room : Nat → Nat
  | 0 => 2 ^ 7
  | k + 1 => 2 ^ (5 * k + 11)

/-- The continuation bytes that hold the lowest `6 * k` bits of `n`. -/
def trail (k n : Nat) : Bytes :=
  (List.range k).reverse.map fun i => Utf8.continuation (n / 64 ^ i)

/-- The bytes of the value `n` with `k` continuation bytes. As many of the highest bits of the lead
byte are ones as there are bytes, unless it stands alone. -/
def layout : Nat → Nat → Bytes
  | 0, n => [UInt8.ofNat n]
  | k + 1, n => UInt8.ofNat (0x100 - 2 ^ (6 - k) + n / 64 ^ (k + 1)) :: trail (k + 1) n

/-- How many bytes a lead byte announces by the ones at its front: one for a byte that is no lead
byte of others. -/
def announcedSize (lead : UInt8) : Nat :=
  if lead &&& 0xE0 = 0xC0 then 2
  else if lead &&& 0xF0 = 0xE0 then 3
  else if lead &&& 0xF8 = 0xF0 then 4
  else 1

/-- The first `n` bytes belong together: they are continuation bytes from the second on, and there
are as many as the first one announces, or no continuation byte follows. -/
structure Extent (bytes : Bytes) (n : Nat) : Prop where
  zero_iff : n = 0 ↔ bytes = []
  le_min : n ≤ min 4 bytes.length
  continues : ∀ i, 0 < i → i < n → ∃ b, bytes[i]? = some b ∧ Utf8.isContinuation b = true
  le_announced : ∀ lead ∈ bytes.head?, n ≤ announcedSize lead
  ends : ∀ lead ∈ bytes.head?, n = announcedSize lead ∨
    ∀ b ∈ bytes[n]?, Utf8.isContinuation b = false

theorem trail_succ (k n : Nat) : trail (k + 1) n = Utf8.continuation (n / 64 ^ k) :: trail k n := by
  simp [trail, List.range_succ]

theorem length_trail (k n : Nat) : (trail k n).length = k := by
  simp [trail]

/-- There is only one extent. -/
theorem Extent.unique {bytes : Bytes} {m n : Nat} (hm : Extent bytes m) (hn : Extent bytes n) :
    m = n := by
  have hle {m n : Nat} (hm : Extent bytes m) (hn : Extent bytes n) : n ≤ m := by
    by_contra hlt
    cases bytes with
    | nil => exact hlt (Nat.le_of_eq (hn.zero_iff.2 rfl) |>.trans (Nat.zero_le m))
    | cons lead rest =>
      have hpos : m ≠ 0 := fun hzero => by cases hm.zero_iff.1 hzero
      obtain ⟨b, hb, hcontinues⟩ := hn.continues m (by omega) (by omega)
      rcases hm.ends lead rfl with hsize | hstop
      · exact hlt (hsize ▸ hn.le_announced lead rfl)
      · cases hcontinues.symm.trans (hstop b hb)
  exact Nat.le_antisymm (hle hn hm) (hle hm hn)

end Grammar

open Grammar

namespace Utf8

/-! ## Values and their bytes -/

theorem assemble_cons (bits : Nat) (b : UInt8) (run : Bytes) :
    assemble bits (b :: run) = assemble (bits * 64 + (b.toNat - 0x80)) run :=
  List.foldl_cons ..

/-- Six bits at a time, a value is assembled from its continuation bytes. -/
theorem assemble_trail (k n : Nat) : assemble (n / 64 ^ k) (trail k n) = n := by
  induction k with
  | zero => simp [assemble, trail]
  | succ k ih =>
    have hbits : n / 64 ^ (k + 1) * 64 + n / 64 ^ k % 64 = n / 64 ^ k := by
      rw [Nat.pow_succ, ← Nat.div_div_eq_div_mul, Nat.div_add_mod']
    rw [trail_succ, assemble_cons, (continuation_bits _).2, hbits, ih]

theorem isContinuation_trail (k n : Nat) : ∀ b ∈ trail k n, isContinuation b = true := by
  intro b hb
  obtain ⟨i, -, rfl⟩ := List.mem_map.1 hb
  exact (continuation_bits _).1

/-- Continuation bytes are those of the value they assemble. -/
theorem eq_trail {bits n : Nat} {run : Bytes} (hrun : ∀ b ∈ run, isContinuation b = true)
    (hvalue : assemble bits run = n) : run = trail run.length n ∧ bits = n / 64 ^ run.length := by
  induction run generalizing bits with
  | nil =>
    obtain rfl : bits = n := hvalue
    simp [trail]
  | cons b run ih =>
    rw [assemble_cons] at hvalue
    obtain ⟨htrail, hbits⟩ := ih (fun x hx => hrun x (by simp [hx])) hvalue
    obtain ⟨hlow, hhigh⟩ := isContinuation_iff.1 (hrun b (by simp))
    rw [List.length_cons, trail_succ, ← htrail, ← hbits]
    refine ⟨?_, ?_⟩
    · have hb : b = continuation (bits * 64 + (b.toNat - 0x80)) := by
        apply UInt8.toNat_inj.1
        have hsix := (continuation_bits (bits * 64 + (b.toNat - 0x80))).2
        have hcontinues := isContinuation_iff.1 (continuation_bits (bits * 64 + (b.toNat - 0x80))).1
        omega
      rw [← hb]
    · rw [Nat.pow_succ, ← Nat.div_div_eq_div_mul, ← hbits]
      omega

/-- A lead byte announces the layouts it is the first byte of. -/
theorem announced?_layout {k m : Nat} (hk : k < 3) (hm : m < 2 ^ (5 - k)) :
    announced? (UInt8.ofNat (0x100 - 2 ^ (6 - k) + m)) = some ⟨k + 1, m, room k⟩ := by
  have hall : ∀ k < 3, ∀ m < 2 ^ (5 - k),
      announced? (UInt8.ofNat (0x100 - 2 ^ (6 - k) + m)) = some ⟨k + 1, m, room k⟩ := by decide
  exact hall k hk m hm

/-- Every lead byte is the first of a layout, and announces it. -/
theorem exists_of_announced? {lead : UInt8} {a : Announced} (h : announced? lead = some a) :
    ∃ k < 3, ∃ m < 2 ^ (5 - k), lead = UInt8.ofNat (0x100 - 2 ^ (6 - k) + m) ∧
      a = ⟨k + 1, m, room k⟩ := by
  have hall : (announced? lead).all fun a => ∃ k < 3, ∃ m < 2 ^ (5 - k),
      lead = UInt8.ofNat (0x100 - 2 ^ (6 - k) + m) ∧ a = ⟨k + 1, m, room k⟩ :=
    Byte.forall_of_lt (P := fun lead => (announced? lead).all fun a => ∃ k < 3,
      ∃ m < 2 ^ (5 - k), lead = UInt8.ofNat (0x100 - 2 ^ (6 - k) + m) ∧ a = ⟨k + 1, m, room k⟩)
      (by decide +kernel) lead
  simpa [h] using hall

theorem announcedSize_eq (lead : UInt8) :
    announcedSize lead = 1 + ((announced? lead).map Announced.more).getD 0 :=
  Byte.forall_of_lt (P := fun lead => announcedSize lead =
    1 + ((announced? lead).map Announced.more).getD 0) (by decide +kernel) lead

theorem room_mono {j k : Nat} (h : j ≤ k) : room j ≤ room k := by
  cases j with
  | zero =>
    cases k with
    | zero => exact Nat.le_refl _
    | succ k => exact Nat.pow_le_pow_right (by decide) (by omega)
  | succ j =>
    obtain ⟨k, rfl⟩ := Nat.exists_eq_add_of_le' (Nat.one_le_of_lt h)
    exact Nat.pow_le_pow_right (by decide) (by omega)

/-- Bytes that spell a value are the layout of it that has no more bytes than needed. -/
theorem Multibyte.eq_layout {lead : UInt8} {run : Bytes} {a : Announced} {n : Nat}
    (h : Multibyte lead run a n) :
    ∃ k, lead :: run = layout (k + 1) n ∧ room k ≤ n ∧ n < room (k + 1) := by
  obtain ⟨k, hk, m, hm, rfl, rfl⟩ := exists_of_announced? h.announces
  obtain ⟨htrail, hbits⟩ := eq_trail h.continues h.value
  have hlength : run.length = k + 1 := h.length
  have hroom : ∀ k < 3, 2 ^ (5 - k) * 64 ^ (k + 1) = room (k + 1) := by decide
  dsimp only at hbits
  rw [hlength] at htrail hbits
  refine ⟨k, ?_, h.least, ?_⟩
  · rw [layout, ← htrail, ← hbits]
  · rw [← hroom k hk, ← Nat.div_lt_iff_lt_mul (Nat.pow_pos (by decide)), ← hbits]
    exact hm

/-- The standard encoding of a character is its shortest layout. -/
theorem encode_eq_layout {c : Char} {k : Nat} (hroom : c.toNat < room k)
    (hshort : ∀ j < k, room j ≤ c.toNat) : encode c = layout k c.toNat := by
  cases k with
  | zero =>
    have hle : c.val.toNat ≤ 0x7f := Nat.le_of_lt_succ hroom
    simp only [encode, String.utf8EncodeChar, if_pos hle]
    rfl
  | succ k =>
    obtain ⟨lead, run, a, hencode, hbytes⟩ := exists_multibyte (hshort 0 (Nat.succ_pos k))
    obtain ⟨j, hlayout, hleast, hmost⟩ := hbytes.eq_layout
    obtain rfl : j = k := by
      rcases Nat.lt_trichotomy j k with hjk | hjk | hjk
      · exact absurd (hshort (j + 1) (by omega)) (by omega)
      · exact hjk
      · have hmono : room (k + 1) ≤ room j := room_mono hjk
        omega
    rw [hencode, hlayout]

/-- A layout is read as its value, if that is a scalar value and needs as many bytes. -/
theorem sequence_layout {k n : Nat} (hk : k ≤ 3) (hn : n < room k) (rest : Bytes) :
    sequence (layout k n ++ rest) =
      ⟨if ∀ j < k, room j ≤ n then char? n else none, k + 1⟩ := by
  cases k with
  | zero =>
    have hascii : ∀ n < room 0, Byte.isAscii (UInt8.ofNat n) = true ∧
        some (Char.ofNat (UInt8.ofNat n).toNat) = char? n := by decide
    obtain ⟨hlead, hchar⟩ := hascii n hn
    simp only [layout, List.singleton_append, sequence, hlead, if_true, hchar]
    simp
  | succ k =>
    have hroom : ∀ k < 3, 2 ^ (5 - k) * 64 ^ (k + 1) = room (k + 1) := by decide
    have hbits : n / 64 ^ (k + 1) < 2 ^ (5 - k) := by
      rw [Nat.div_lt_iff_lt_mul (Nat.pow_pos (by decide)), hroom k hk]
      exact hn
    have hlead := announced?_layout hk hbits
    have hascii := isAscii_of_announced? hlead
    have hrun := continuations_append (isContinuation_trail (k + 1) n) rest
    have hshort : (∀ j < k + 1, room j ≤ n) ↔ room k ≤ n :=
      ⟨fun h => h k (Nat.lt_succ_self k), fun h j hj => (room_mono (Nat.le_of_lt_succ hj)).trans h⟩
    rw [length_trail] at hrun
    simp only [layout, List.cons_append, sequence, hascii, hlead, hrun, length_trail,
      assemble_trail, hshort, true_and, Bool.false_eq_true, if_false]
    split
    · rw [Nat.add_comm]
    · rw [Nat.add_comm]

/-! ## How many bytes belong together -/

/-- A run of continuation bytes ends with the last one asked for, or in front of another byte. -/
theorem continuations_ends (m : Nat) (rest : Bytes) : (continuations m rest).length = m ∨
    ∀ b ∈ rest[(continuations m rest).length]?, isContinuation b = false := by
  induction m generalizing rest with
  | zero => exact Or.inl rfl
  | succ m ih =>
    cases rest with
    | nil => exact Or.inr (by simp)
    | cons b rest =>
      cases hb : isContinuation b with
      | true =>
        have hrun : continuations (m + 1) (b :: rest) = b :: continuations m rest := by
          simp [continuations, hb]
        rw [hrun, List.length_cons, List.getElem?_cons_succ]
        exact (ih rest).imp_left (congrArg (· + 1))
      | false =>
        have hrun : continuations (m + 1) (b :: rest) = [] := by simp [continuations, hb]
        rw [hrun]
        exact Or.inr (by simpa using hb)

/-- Whether or not it has a character, a sequence takes the continuation bytes that its lead byte
announces, as far as they are there. -/
theorem sequence_size (lead : UInt8) (rest : Bytes) : (sequence (lead :: rest)).size =
    1 + (continuations (announcedSize lead - 1) rest).length := by
  rw [announcedSize_eq, Nat.add_sub_cancel_left]
  cases ha : announced? lead with
  | none =>
    have hrun : continuations 0 rest = [] := rfl
    simp only [sequence, ha, Option.map_none, Option.getD_none, hrun]
    split <;> rfl
  | some a =>
    have hlead := isAscii_of_announced? ha
    simp only [sequence, hlead, ha, Option.map_some, Option.getD_some, Bool.false_eq_true, if_false]
    split <;> rfl

/-- The bytes that a sequence takes belong together. -/
theorem extent_sequence (bytes : Bytes) : Extent bytes (sequence bytes).size := by
  cases bytes with
  | nil => exact ⟨by simp [sequence], by simp [sequence], by simp [sequence], by simp, by simp⟩
  | cons lead rest =>
    have hle := sequence_size_le (lead :: rest)
    have hone : 1 ≤ announcedSize lead ∧ announcedSize lead ≤ 4 := by grind [announcedSize]
    rw [sequence_size] at hle ⊢
    generalize hrun : continuations (announcedSize lead - 1) rest = run at hle ⊢
    have hpre : run <+: rest.take (announcedSize lead - 1) := hrun ▸ List.takeWhile_prefix _
    have hcontinues : ∀ b ∈ run, isContinuation b = true :=
      hrun ▸ fun b hb => List.mem_takeWhile_imp hb
    have hends := continuations_ends (announcedSize lead - 1) rest
    rw [hrun] at hends
    have hlength : run.length ≤ announcedSize lead - 1 :=
      hpre.length_le.trans (List.length_take_le _ _)
    refine ⟨by simp, by omega, fun i hpos hi => ?_, ?_, ?_⟩
    · obtain ⟨j, rfl⟩ := Nat.exists_eq_add_of_le hpos
      have hj : j < run.length := by omega
      refine ⟨run[j], ?_, hcontinues _ (List.getElem_mem hj)⟩
      obtain ⟨more, hmore⟩ := hpre.trans (List.take_prefix _ _)
      rw [Nat.add_comm, List.getElem?_cons_succ, ← hmore, List.getElem?_append_left hj,
        List.getElem?_eq_getElem hj]
    · rintro _ ⟨⟩
      omega
    · rintro _ ⟨⟩
      rw [Nat.add_comm, List.getElem?_cons_succ]
      exact hends.imp_left (by omega)

/-! ## What is read -/

/-- The character at the front is the one whose standard encoding stands there. -/
theorem sequence_char_eq_some_iff {bytes : Bytes} {c : Char} :
    (sequence bytes).char = some c ↔ encode c <+: bytes := by
  constructor
  · intro h
    cases bytes with
    | nil => cases h
    | cons lead rest =>
      cases hascii : Byte.isAscii lead with
      | true =>
        have hlead : encode (Char.ofNat lead.toNat) = [lead] :=
          Byte.forall_of_lt (P := fun lead => Byte.isAscii lead = true →
            encode (Char.ofNat lead.toNat) = [lead]) (by decide +kernel) lead hascii
        obtain rfl : Char.ofNat lead.toNat = c := by simpa [sequence, hascii] using h
        rw [hlead]
        exact ⟨rest, rfl⟩
      | false =>
        cases ha : announced? lead with
        | none => simp [sequence, hascii, ha] at h
        | some a =>
          simp only [sequence, hascii, ha, Bool.false_eq_true, if_false] at h
          split at h
          · rename_i hvalue
            have hbytes : Multibyte lead (continuations a.more rest) a c.toNat :=
              ⟨ha, fun b hb => List.mem_takeWhile_imp hb, hvalue.1, char?_eq_some_iff.1 h,
                char?_eq_some_iff.1 h ▸ hvalue.2⟩
            obtain ⟨k, hlayout, hleast, hmost⟩ := hbytes.eq_layout
            have hshort : ∀ j < k + 1, room j ≤ c.toNat := fun j hj =>
              (room_mono (Nat.le_of_lt_succ hj)).trans hleast
            rw [encode_eq_layout hmost hshort, ← hlayout, List.prefix_cons_inj]
            exact (List.takeWhile_prefix _).trans (List.take_prefix _ _)
          · cases h
  · rintro ⟨rest, rfl⟩
    rw [sequence_encode_append]

/-- A sequence has a character if and only if it is the standard encoding of one, and takes these
bytes. Otherwise it takes the bytes that belong together. In no case does it take an ASCII byte
behind the first. The standard encoding of a character is its shortest layout, and a layout that is
longer than needed, or of a surrogate or a value beyond all characters, is taken whole and has
none. -/
theorem sequence_exact (bytes : Bytes) :
    (∀ c n, sequence bytes = ⟨some c, n⟩ ↔ encode c <+: bytes ∧ n = (encode c).length) ∧
    (∀ n, sequence bytes = ⟨none, n⟩ ↔ (∀ c, ¬encode c <+: bytes) ∧ Extent bytes n) ∧
    (∀ i, 0 < i → i < (sequence bytes).size →
      ∃ b, bytes[i]? = some b ∧ Byte.isAscii b = false) ∧
    (∀ c k, c.toNat < room k → (∀ j < k, room j ≤ c.toNat) → encode c = layout k c.toNat) ∧
    ∀ k ≤ 3, ∀ n < room k, sequence (layout k n ++ bytes) =
      ⟨if ∀ j < k, room j ≤ n then char? n else none, k + 1⟩ := by
  refine ⟨fun c n => ⟨fun h => ?_, ?_⟩, fun n => ⟨fun h => ?_, ?_⟩, fun i hpos hi => ?_,
    fun c k => encode_eq_layout, fun k hk n hn => sequence_layout hk hn bytes⟩
  · have hpre : encode c <+: bytes := sequence_char_eq_some_iff.1 (by rw [h])
    obtain ⟨rest, rfl⟩ := hpre
    rw [sequence_encode_append] at h
    exact ⟨⟨rest, rfl⟩, (congrArg Sequence.size h).symm⟩
  · rintro ⟨⟨rest, rfl⟩, rfl⟩
    exact sequence_encode_append c rest
  · refine ⟨fun c hpre => ?_, ?_⟩
    · cases (congrArg Sequence.char h).symm.trans (sequence_char_eq_some_iff.2 hpre)
    · have hextent := extent_sequence bytes
      rwa [h] at hextent
  · rintro ⟨hnone, hextent⟩
    have hchar : (sequence bytes).char = none := by
      cases hc : (sequence bytes).char with
      | none => rfl
      | some c => exact absurd (sequence_char_eq_some_iff.1 hc) (hnone c)
    have hsize := (extent_sequence bytes).unique hextent
    rw [← hchar, ← hsize]
  · obtain ⟨b, hb, hcontinues⟩ := (extent_sequence bytes).continues i hpos hi
    exact ⟨b, hb, isAscii_of_isContinuation hcontinues⟩

-- the slash in three bytes, where one is enough
example : layout 2 0x2F = [0xE0, 0x80, 0xAF] ∧
    sequence [0xE0, 0x80, 0xAF, 0x41] = ⟨none, 3⟩ := by decide

end Utf8

end SceneTokens
