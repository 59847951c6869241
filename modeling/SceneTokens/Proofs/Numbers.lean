import Mathlib.Data.List.TakeWhile
import SceneTokens.Proofs.Grammar

/-!
# The number at a place

`Piece.number` takes digits, a fraction and an exponent, each as far as it is there. The pieces of
the greedy reading are compared with the grammar one by one: no mantissa at the front is longer
than the one that is taken (`Piece.length_le_mantissa`), a mantissa with an exponent behind it is
the one that is taken (`Piece.mantissa_append_cons`), and an exponent at the front is taken whole
(`Piece.exists_read?_of_power`). So the number that is taken is the longest one
(`Piece.number_longest`).
-/

namespace SceneTokens

open Grammar

/-! ## How numbers start -/

/-- A number starts with a digit, or with a point that a digit follows. -/
theorem Piece.startsNumber_iff {b : UInt8} {rest : Bytes} : startsNumber b rest = true ↔
    Byte.isDigit b = true ∨
      b = Byte.point ∧ ∃ c tail, rest = c :: tail ∧ Byte.isDigit c = true := by
  simp only [startsNumber, Bool.or_eq_true, Bool.and_eq_true, beq_iff_eq, Option.any_eq_true,
    List.head?_eq_some_iff]
  refine or_congr_right (and_congr_right fun _ => ⟨?_, ?_⟩)
  · rintro ⟨c, ⟨tail, htail⟩, hc⟩
    exact ⟨c, tail, htail, hc⟩
  · rintro ⟨c, tail, htail, hc⟩
    exact ⟨c, ⟨tail, htail⟩, hc⟩

namespace Grammar

theorem Digits.exists_cons {d : Bytes} (h : Digits d) :
    ∃ b rest, d = b :: rest ∧ Byte.isDigit b = true := by
  obtain ⟨b, rest, rfl⟩ := List.exists_cons_of_ne_nil h.1
  exact ⟨b, rest, rfl, h.2 b (by simp)⟩

theorem Mantissa.startsNumber {m : Bytes} (h : Mantissa m) (more : Bytes) :
    ∃ b rest, m ++ more = b :: rest ∧ Piece.startsNumber b rest = true := by
  cases h with
  | whole hw =>
    obtain ⟨b, rest, rfl, hb⟩ := hw.exists_cons
    exact ⟨b, rest ++ more, rfl, Piece.startsNumber_iff.2 (Or.inl hb)⟩
  | @decimal w f hw _ =>
    obtain ⟨b, rest, rfl, hb⟩ := hw.exists_cons
    exact ⟨b, rest ++ Byte.point :: f ++ more, rfl, Piece.startsNumber_iff.2 (Or.inl hb)⟩
  | fraction hf =>
    obtain ⟨c, rest, rfl, hc⟩ := hf.exists_cons
    refine ⟨Byte.point, c :: rest ++ more, rfl, ?_⟩
    exact Piece.startsNumber_iff.2 (Or.inr ⟨rfl, c, rest ++ more, rfl, hc⟩)

/-- A number starts with a digit, or with a point and a digit. -/
theorem Number.startsNumber {n : Bytes} (h : Number n) :
    ∃ b rest, n = b :: rest ∧ Piece.startsNumber b rest = true := by
  cases h with
  | plain hm => simpa using hm.startsNumber []
  | @scaled m x hm _ => exact hm.startsNumber x

end Grammar

/-! ## Runs of bytes of one class -/

theorem prefix_takeWhile {p : UInt8 → Bool} {u bytes : Bytes} (hu : ∀ b ∈ u, p b = true)
    (h : u <+: bytes) : u <+: bytes.takeWhile p := by
  obtain ⟨v, rfl⟩ := h
  rw [List.takeWhile_append_of_pos hu]
  exact List.prefix_append _ _

theorem takeWhile_append_cons {p : UInt8 → Bool} {u v : Bytes} {c : UInt8}
    (hu : ∀ b ∈ u, p b = true) (hc : p c = false) : (u ++ c :: v).takeWhile p = u := by
  rw [List.takeWhile_append_of_pos hu, List.takeWhile_cons_of_neg (by simp [hc]), List.append_nil]

theorem dropWhile_append_cons {p : UInt8 → Bool} {u v : Bytes} {c : UInt8}
    (hu : ∀ b ∈ u, p b = true) (hc : p c = false) : (u ++ c :: v).dropWhile p = c :: v := by
  rw [List.dropWhile_append_of_pos hu, List.dropWhile_cons_of_neg (by simp [hc])]

theorem head?_dropWhile {p : UInt8 → Bool} {bytes : Bytes} {c : UInt8}
    (h : (bytes.dropWhile p).head? = some c) : p c = false := by
  have := List.head?_dropWhile_not p bytes
  rw [h] at this
  simpa using this

theorem digits_takeWhile {bytes : Bytes} (h : bytes.takeWhile Byte.isDigit ≠ []) :
    Digits (bytes.takeWhile Byte.isDigit) :=
  ⟨h, fun _ hb => List.mem_takeWhile_imp hb⟩

namespace Piece

/-! ## Numbers -/

/-- The digits and the fraction at the front of a byte string. -/
def mantissa (bytes : Bytes) : Bytes :=
  bytes.takeWhile Byte.isDigit ++ fraction (bytes.dropWhile Byte.isDigit)

theorem number_eq (bytes : Bytes) : number bytes = mantissa bytes ++
    ((Exponent.read? (bytes.drop (mantissa bytes).length)).map Exponent.text).getD [] :=
  rfl

/-- A fraction is a point and all digits behind it. -/
theorem fraction_cases (bytes : Bytes) : fraction bytes = [] ∨
    ∃ rest, bytes = Byte.point :: rest ∧ rest.takeWhile Byte.isDigit ≠ [] ∧
      fraction bytes = Byte.point :: rest.takeWhile Byte.isDigit := by
  cases bytes with
  | nil => exact Or.inl rfl
  | cons b rest =>
    by_cases h : b = Byte.point ∧ rest.takeWhile Byte.isDigit ≠ []
    · obtain ⟨rfl, hd⟩ := h
      exact Or.inr ⟨rest, rfl, hd, by simp [fraction, hd]⟩
    · exact Or.inl (by simpa [fraction] using h)

theorem fraction_isPrefix (bytes : Bytes) : fraction bytes <+: bytes := by
  rcases fraction_cases bytes with h | ⟨rest, rfl, -, h⟩
  · rw [h]
    exact List.nil_prefix
  · rw [h, List.prefix_cons_inj]
    exact List.takeWhile_prefix _

theorem fraction_point {rest : Bytes} (h : rest.takeWhile Byte.isDigit ≠ []) :
    fraction (Byte.point :: rest) = Byte.point :: rest.takeWhile Byte.isDigit := by
  simp [fraction, h]

theorem mantissa_isPrefix (bytes : Bytes) : mantissa bytes <+: bytes := by
  obtain ⟨rest, hrest⟩ := fraction_isPrefix (bytes.dropWhile Byte.isDigit)
  refine ⟨rest, ?_⟩
  rw [mantissa, List.append_assoc, hrest, List.takeWhile_append_dropWhile]

/-- What is taken for a mantissa is spelled like one. -/
theorem mantissa_spelled {b : UInt8} {rest : Bytes} (h : startsNumber b rest = true) :
    Mantissa (mantissa (b :: rest)) := by
  rcases startsNumber_iff.1 h with hd | ⟨rfl, c, tail, rfl, hc⟩
  · have hw : (b :: rest).takeWhile Byte.isDigit ≠ [] := by simp [hd]
    rcases fraction_cases ((b :: rest).dropWhile Byte.isDigit) with hf | ⟨tail, -, ht, hf⟩
    · rw [mantissa, hf, List.append_nil]
      exact .whole (digits_takeWhile hw)
    · rw [mantissa, hf]
      exact .decimal (digits_takeWhile hw) (digits_takeWhile ht)
  · have hd : ¬Byte.isDigit Byte.point = true := by decide
    have ht : (c :: tail).takeWhile Byte.isDigit ≠ [] := by simp [hc]
    rw [mantissa, List.takeWhile_cons_of_neg hd, List.dropWhile_cons_of_neg hd, List.nil_append,
      fraction_point ht]
    exact .fraction (digits_takeWhile ht)

/-- Digits, a point and the digits behind it are taken as one mantissa. -/
theorem mantissa_append_point {w rest : Bytes} (hw : ∀ b ∈ w, Byte.isDigit b = true)
    (h : rest.takeWhile Byte.isDigit ≠ []) :
    mantissa (w ++ Byte.point :: rest) = w ++ Byte.point :: rest.takeWhile Byte.isDigit := by
  have hpoint : Byte.isDigit Byte.point = false := by decide
  rw [mantissa, takeWhile_append_cons hw hpoint, dropWhile_append_cons hw hpoint,
    fraction_point h]

theorem takeWhile_digits_append {f : Bytes} (hf : Digits f) (rest : Bytes) :
    f <+: (f ++ rest).takeWhile Byte.isDigit ∧ (f ++ rest).takeWhile Byte.isDigit ≠ [] := by
  have hrun := prefix_takeWhile hf.2 (List.prefix_append f rest)
  exact ⟨hrun, fun h => hf.1 (by simpa [h] using hrun)⟩

/-- A mantissa with a point at the front is taken at least up to its last digit. -/
theorem length_le_mantissa_append_point {w f rest : Bytes}
    (hw : ∀ b ∈ w, Byte.isDigit b = true) (hf : Digits f) :
    (w ++ Byte.point :: f).length ≤ (mantissa (w ++ Byte.point :: (f ++ rest))).length := by
  obtain ⟨hrun, hne⟩ := takeWhile_digits_append hf rest
  have := hrun.length_le
  rw [mantissa_append_point hw hne]
  simp only [List.length_append, List.length_cons]
  omega

/-- No mantissa at the front of a byte string is longer. -/
theorem length_le_mantissa {m bytes : Bytes} (hm : Mantissa m) (h : m <+: bytes) :
    m.length ≤ (mantissa bytes).length := by
  cases hm with
  | whole hw =>
    have := (prefix_takeWhile hw.2 h).length_le
    simp only [mantissa, List.length_append]
    omega
  | @decimal w f hw hf =>
    obtain ⟨rest, rfl⟩ := h
    rw [List.append_assoc, List.cons_append]
    exact length_le_mantissa_append_point hw.2 hf
  | @fraction f hf =>
    obtain ⟨rest, rfl⟩ := h
    exact length_le_mantissa_append_point (w := []) (by simp) hf

/-- A mantissa with a byte behind it that is no digit and no point is the whole one. -/
theorem mantissa_append_cons {m rest : Bytes} {c : UInt8} (hm : Mantissa m)
    (hc : Byte.isDigit c = false) (hp : c ≠ Byte.point) : mantissa (m ++ c :: rest) = m := by
  have hrun {f : Bytes} (hf : Digits f) : (f ++ c :: rest).takeWhile Byte.isDigit = f :=
    takeWhile_append_cons hf.2 hc
  cases hm with
  | whole hw =>
    rw [mantissa, hrun hw, dropWhile_append_cons hw.2 hc]
    simp [Piece.fraction, hp]
  | @decimal w f hw hf =>
    rw [List.append_assoc, List.cons_append,
      mantissa_append_point hw.2 (by rw [hrun hf]; exact hf.1), hrun hf]
  | @fraction f hf =>
    have : mantissa (Byte.point :: (f ++ c :: rest)) = _ :=
      mantissa_append_point (w := []) (by simp) (by rw [hrun hf]; exact hf.1)
    rwa [hrun hf] at this

/-! ### Exponents -/

theorem splitSign_append {bytes : Bytes} :
    (Numeral.splitSign bytes).1.toList ++ (Numeral.splitSign bytes).2 = bytes := by
  cases bytes with
  | nil => rfl
  | cons b rest =>
    by_cases h : Byte.isSign b = true <;> simp [Numeral.splitSign, h]

/-- An exponent that is read is spelled at the front. -/
theorem power_of_read? {bytes : Bytes} {e : Exponent} (h : Exponent.read? bytes = some e) :
    Power e.text ∧ e.text <+: bytes := by
  cases bytes with
  | nil => simp [Exponent.read?] at h
  | cons b rest =>
    simp only [Exponent.read?] at h
    split_ifs at h with hb hd
    cases h
    have hdigits : Digits ((Numeral.splitSign rest).2.takeWhile Byte.isDigit) :=
      digits_takeWhile (by simpa using hd)
    obtain ⟨tail, htail⟩ := List.takeWhile_prefix Byte.isDigit (l := (Numeral.splitSign rest).2)
    constructor
    · cases hs : (Numeral.splitSign rest).1 with
      | none => simpa [Exponent.text, hs] using Power.plain hb hdigits
      | some s =>
        have : Byte.isSign s = true := by
          cases rest with
          | nil => simp [Numeral.splitSign] at hs
          | cons c tail =>
            by_cases hc : Byte.isSign c = true <;> simp [Numeral.splitSign, hc] at hs
            exact hs ▸ hc
        simpa [Exponent.text, hs] using Power.signed hb this hdigits
    · refine ⟨tail, ?_⟩
      rw [Exponent.text, List.cons_append, List.append_assoc, htail, splitSign_append]

/-- An exponent at the front is read, and not a shorter one. -/
theorem exists_read?_of_power {x bytes : Bytes} (hx : Power x) (h : x <+: bytes) :
    ∃ e, Exponent.read? bytes = some e ∧ x.length ≤ e.text.length := by
  obtain ⟨tail, rfl⟩ := h
  cases hx with
  | @plain b d hb hd =>
    obtain ⟨hrun, hne⟩ := takeWhile_digits_append hd tail
    have := hrun.length_le
    have hs : Numeral.splitSign (d ++ tail) = (none, d ++ tail) := by
      obtain ⟨c, d', rfl⟩ := List.exists_cons_of_ne_nil hd.1
      have hc : Byte.isSign c = false := by
        have := hd.2 c (by simp)
        simp only [Byte.isDigit, Byte.isSign, Byte.plus, Byte.minus] at this ⊢
        grind
      simp [Numeral.splitSign, hc]
    refine ⟨⟨b, none, (d ++ tail).takeWhile Byte.isDigit⟩, ?_, ?_⟩
    · simp [Exponent.read?, hb, hs, hne]
    · simp only [Exponent.text, Option.toList_none, List.length_cons, List.length_append,
        List.length_nil]
      omega
  | @signed b s d hb hs hd =>
    obtain ⟨hrun, hne⟩ := takeWhile_digits_append hd tail
    have := hrun.length_le
    refine ⟨⟨b, some s, (d ++ tail).takeWhile Byte.isDigit⟩, ?_, ?_⟩
    · simp [Exponent.read?, hb, Numeral.splitSign, hs, hne]
    · simp only [Exponent.text, Option.toList_some, List.length_cons, List.length_append,
        List.length_nil]
      omega

/-! ### The longest number -/

theorem number_isPrefix (bytes : Bytes) : number bytes <+: bytes := by
  have hm := List.prefix_iff_eq_append.1 (mantissa_isPrefix bytes)
  have hx : ((Exponent.read? (bytes.drop (mantissa bytes).length)).map Exponent.text).getD [] <+:
      bytes.drop (mantissa bytes).length := by
    cases he : Exponent.read? (bytes.drop (mantissa bytes).length) with
    | none => exact List.nil_prefix
    | some e => exact (power_of_read? he).2
  have := (List.prefix_append_right_inj (mantissa bytes)).2 hx
  rwa [hm] at this

/-- A number takes all that can belong to it. -/
theorem number_longest {b : UInt8} {rest : Bytes} (h : startsNumber b rest = true) :
    Longest Number (number (b :: rest)) (b :: rest) := by
  have hm := mantissa_spelled h
  refine ⟨?_, number_isPrefix _, ?_⟩
  · rw [number_eq]
    cases he : Exponent.read? ((b :: rest).drop (mantissa (b :: rest)).length) with
    | none => simpa using Number.plain hm
    | some e => exact .scaled hm (power_of_read? he).1
  · intro q hq hqp
    cases hq with
    | plain hq =>
      have := length_le_mantissa hq hqp
      rw [number_eq, List.length_append]
      omega
    | @scaled m x hq hx =>
      obtain ⟨tail, htail⟩ := hqp
      obtain ⟨c, x', rfl, hc⟩ : ∃ c x', x = c :: x' ∧ Exponent.isLetter c = true := by
        cases hx with
        | plain hb _ => exact ⟨_, _, rfl, hb⟩
        | signed hb _ _ => exact ⟨_, _, rfl, hb⟩
      have hcd : Byte.isDigit c = false ∧ c ≠ Byte.point := by
        simp only [Exponent.isLetter, Byte.isDigit, Byte.point] at hc ⊢
        grind
      rw [List.append_assoc, List.cons_append] at htail
      have hmm : mantissa (b :: rest) = m := by
        rw [← htail]
        exact mantissa_append_cons hq hcd.1 hcd.2
      have hdrop : (b :: rest).drop m.length = c :: x' ++ tail := by
        rw [← htail]
        exact List.drop_left
      obtain ⟨e, he, hle⟩ := exists_read?_of_power hx (List.prefix_append (c :: x') tail)
      rw [number_eq, hmm, hdrop, he]
      simpa using hle

end Piece

end SceneTokens
