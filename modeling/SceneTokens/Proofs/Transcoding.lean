import SceneTokens.Quoted.Encoding

/-!
# Transcoding and ASCII

Transcoding may change how many bytes a literal takes, so places in the literal and places in its
lexeme differ. What stays are the ASCII bytes: each stands for itself, and no other byte brings one
in (`Encoding.transcode_cases`). So a transcoded text that is cut at an ASCII byte comes from the
same cut of the literal (`Encoding.transcodeAll_eq_append_cons`), and ASCII bytes can be counted in
either (`Encoding.count_transcodeAll`).
-/

namespace SceneTokens

/-- What holds of all byte values holds of a byte. -/
theorem Byte.forall_of_lt {P : UInt8 → Prop} (h : ∀ n < 256, P (.ofNat n)) (b : UInt8) : P b :=
  UInt8.ofNat_toNat (x := b) ▸ h b.toNat b.toNat_lt

theorem Byte.isAscii_quote : isAscii quote = true := rfl

theorem Byte.isAscii_backslash : isAscii backslash = true := rfl

namespace Encoding

variable {e : Encoding} {p : Bytes} {b c : UInt8}

theorem transcode_of_isAscii (h : Byte.isAscii b = true) : e.transcode b = [b] :=
  if_pos h

theorem latin1_not_isAscii (h : Byte.isAscii b = false) :
    ∀ c ∈ Utf8.encode (Char.ofNat b.toNat), Byte.isAscii c = false :=
  Byte.forall_of_lt (P := fun b => Byte.isAscii b = false →
    ∀ c ∈ Utf8.encode (Char.ofNat b.toNat), Byte.isAscii c = false) (by decide +kernel) b h

/-- A byte outside ASCII turns into bytes outside ASCII. -/
theorem transcode_cases (e : Encoding) (b : UInt8) :
    (Byte.isAscii b = true ∧ e.transcode b = [b]) ∨
      (Byte.isAscii b = false ∧ ∀ c ∈ e.transcode b, Byte.isAscii c = false) := by
  cases hb : Byte.isAscii b with
  | true => exact Or.inl ⟨rfl, transcode_of_isAscii hb⟩
  | false =>
    refine Or.inr ⟨rfl, ?_⟩
    unfold transcode
    rw [if_neg (by simp [hb])]
    cases e with
    | utf8 => simpa using hb
    | latin1 => exact latin1_not_isAscii hb
    | ascii =>
      show ∀ c ∈ Utf8.encode (Char.ofNat Utf8.replacement), Byte.isAscii c = false
      decide +kernel

/-- No byte is dropped. -/
theorem transcode_ne_nil (e : Encoding) (b : UInt8) : e.transcode b ≠ [] := by
  unfold transcode
  split
  · simp
  · cases e with
    | utf8 => simp
    | latin1 => exact String.utf8EncodeChar_ne_nil
    | ascii => exact String.utf8EncodeChar_ne_nil

/-- An ASCII byte comes from itself only. -/
theorem not_mem_transcode (e : Encoding) (hc : Byte.isAscii c = true) (hne : b ≠ c) :
    c ∉ e.transcode b := by
  intro hmem
  rcases e.transcode_cases b with ⟨-, hb⟩ | ⟨-, hb⟩
  · rw [hb, List.mem_singleton] at hmem
    exact hne hmem.symm
  · have hnot := hb c hmem
    simp [hc] at hnot

/-! ## Literals -/

theorem transcodeAll_cons (e : Encoding) (b : UInt8) (p : Bytes) :
    e.transcodeAll (b :: p) = e.transcode b ++ e.transcodeAll p :=
  List.flatMap_cons

theorem eq_nil_of_transcodeAll (h : e.transcodeAll p = []) : p = [] := by
  cases p with
  | nil => rfl
  | cons b p =>
    rw [transcodeAll_cons, List.append_eq_nil_iff] at h
    exact absurd h.1 (e.transcode_ne_nil b)

theorem transcodeAll_append (e : Encoding) (p q : Bytes) :
    e.transcodeAll (p ++ q) = e.transcodeAll p ++ e.transcodeAll q :=
  List.flatMap_append

theorem transcodeAll_cons_of_isAscii (e : Encoding) (hb : Byte.isAscii b = true) (p : Bytes) :
    e.transcodeAll (b :: p) = b :: e.transcodeAll p := by
  rw [transcodeAll_cons, transcode_of_isAscii hb, List.singleton_append]

theorem transcodeAll_of_isAscii (e : Encoding) (hp : ∀ b ∈ p, Byte.isAscii b = true) :
    e.transcodeAll p = p := by
  induction p with
  | nil => rfl
  | cons b p ih =>
    rw [transcodeAll_cons_of_isAscii e (hp b (by simp)), ih fun c hc => hp c (by simp [hc])]

theorem transcodeAll_utf8 (p : Bytes) : utf8.transcodeAll p = p := by
  induction p with
  | nil => rfl
  | cons b p ih =>
    have hb : utf8.transcode b = [b] := by simp [transcode]
    rw [transcodeAll_cons, hb, ih, List.singleton_append]

/-- The quotes of a literal stay its quotes. -/
theorem transcodeAll_literal (e : Encoding) (p : Bytes) :
    e.transcodeAll (Byte.quote :: (p ++ [Byte.quote])) =
      Byte.quote :: (e.transcodeAll p ++ [Byte.quote]) := by
  have hclose : e.transcodeAll [Byte.quote] = [Byte.quote] :=
    transcodeAll_cons_of_isAscii e Byte.isAscii_quote []
  rw [transcodeAll_cons_of_isAscii e Byte.isAscii_quote, transcodeAll_append, hclose]

/-! ## Cutting and counting at ASCII bytes -/

/-- An ASCII byte of a transcoded text comes from the same byte of the literal. -/
theorem transcodeAll_eq_append_cons (hc : Byte.isAscii c = true) {front back : Bytes}
    (h : e.transcodeAll p = front ++ c :: back) :
    ∃ p₁ p₂, p = p₁ ++ c :: p₂ ∧ e.transcodeAll p₁ = front ∧ e.transcodeAll p₂ = back := by
  induction p generalizing front with
  | nil => simp [transcodeAll] at h
  | cons b p ih =>
    rw [transcodeAll_cons] at h
    have hbehind {front' : Bytes} (hfront : front = e.transcode b ++ front')
        (hp : e.transcodeAll p = front' ++ c :: back) : ∃ p₁ p₂, b :: p = p₁ ++ c :: p₂ ∧
          e.transcodeAll p₁ = front ∧ e.transcodeAll p₂ = back := by
      obtain ⟨p₁, p₂, rfl, rfl, rfl⟩ := ih hp
      exact ⟨b :: p₁, p₂, rfl, by rw [transcodeAll_cons, hfront], rfl⟩
    rcases List.append_eq_append_iff.1 h with ⟨front', hfront, hp⟩ | ⟨u, hu, hp⟩
    · exact hbehind hfront hp
    · rcases List.cons_eq_append_iff.1 hp with ⟨rfl, hback⟩ | ⟨u', rfl, hback⟩
      · have hfront : front = e.transcode b ++ [] := by rw [hu, List.append_nil, List.append_nil]
        exact hbehind hfront hback
      · rcases e.transcode_cases b with ⟨-, hb⟩ | ⟨-, hb⟩
        · rw [hb, List.singleton_eq_append_iff] at hu
          rcases hu with ⟨rfl, hu⟩ | ⟨-, hu⟩
          · obtain ⟨rfl, rfl⟩ := List.cons.inj hu
            exact ⟨[], p, rfl, rfl, hback.symm⟩
          · cases hu
        · have := hb c (by simp [hu])
          simp [hc] at this

/-- ASCII bytes at the front of a transcoded text stand at the front of the literal. -/
theorem transcodeAll_eq_append {u : Bytes} (hu : ∀ b ∈ u, Byte.isAscii b = true) {back : Bytes}
    (h : e.transcodeAll p = u ++ back) : ∃ q, p = u ++ q ∧ e.transcodeAll q = back := by
  induction u generalizing p with
  | nil => exact ⟨p, rfl, h⟩
  | cons b u ih =>
    have hcut : e.transcodeAll p = [] ++ b :: (u ++ back) := h
    obtain ⟨p₁, p₂, rfl, hfront, hback⟩ := transcodeAll_eq_append_cons (hu b (by simp)) hcut
    obtain ⟨q, rfl, hq⟩ := ih (fun c hc => hu c (by simp [hc])) hback
    obtain rfl := eq_nil_of_transcodeAll hfront
    exact ⟨q, rfl, hq⟩

/-- An ASCII byte occurs in the literal as often as in the transcoded text. -/
theorem count_transcodeAll (e : Encoding) (hc : Byte.isAscii c = true) (p : Bytes) :
    (e.transcodeAll p).count c = p.count c := by
  induction p with
  | nil => rfl
  | cons b p ih =>
    rw [transcodeAll_cons, List.count_append, ih, List.count_cons]
    by_cases hb : b = c
    · subst hb
      rw [transcode_of_isAscii hc, List.count_singleton, Nat.add_comm]
    · rw [List.count_eq_zero.2 (e.not_mem_transcode hc hb), if_neg (by simpa using hb),
        Nat.zero_add, Nat.add_zero]

end Encoding

end SceneTokens
