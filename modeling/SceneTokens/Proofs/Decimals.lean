import Mathlib.Computability.Language
import SceneTokens.Proofs.Numerals

/-!
# The language of decimal numerals

The texts of numerals are a regular language (`Grammar.decimal`): a sign or none, digits with a
point or none among them, and an exponent or none. Its texts are those of the well-formed numerals
(`Grammar.mem_decimal_iff`), so what is read at the front of a byte string is the longest prefix in
the language.

A binary64 number is read from the numeral behind the blanks, and from nothing else
(`Binary64.read?_take`). `Numeral.prefixSize_longest` says both.
-/

namespace SceneTokens

open Computability

namespace Grammar

/-! ## The language -/

/-- The texts of one byte of a class. -/
def oneOf (p : UInt8 → Bool) : Language UInt8 :=
  {w : Bytes | ∃ b, p b = true ∧ w = [b]}

/-- The texts of a language, and the empty one. -/
def optional (l : Language UInt8) : Language UInt8 :=
  1 + l

/-- A digit. -/
def digit : Language UInt8 :=
  oneOf Byte.isDigit

/-- One or more digits. -/
def someDigits : Language UInt8 :=
  digit * digit∗

/-- A plus or a minus. -/
def sign : Language UInt8 :=
  oneOf Byte.isSign

/-- A point. -/
def point : Language UInt8 :=
  oneOf (· == Byte.point)

/-- Digits, with a point behind any of them or in front. -/
def significand : Language UInt8 :=
  someDigits * optional (point * digit∗) + point * someDigits

/-- The letter of an exponent, a sign or none, and digits. -/
def power : Language UInt8 :=
  oneOf Exponent.isLetter * optional sign * someDigits

/-- The texts of numerals. -/
def decimal : Language UInt8 :=
  optional sign * significand * optional power

@[simp] theorem mem_oneOf {p : UInt8 → Bool} {w : Bytes} :
    w ∈ oneOf p ↔ ∃ b, p b = true ∧ w = [b] :=
  Iff.rfl

@[simp] theorem mem_optional {l : Language UInt8} {w : Bytes} :
    w ∈ optional l ↔ w = [] ∨ w ∈ l :=
  Iff.rfl

/-! ## Parts of a text -/

theorem mem_digit_kstar {w : Bytes} : w ∈ digit∗ ↔ ∀ b ∈ w, Byte.isDigit b = true := by
  rw [Language.mem_kstar]
  constructor
  · rintro ⟨chunks, rfl, hchunks⟩ b hb
    obtain ⟨chunk, hchunk, hb⟩ := List.mem_flatten.1 hb
    obtain ⟨d, hd, rfl⟩ := hchunks chunk hchunk
    obtain rfl := List.mem_singleton.1 hb
    exact hd
  · intro h
    refine ⟨w.map fun b => [b], ?_, fun y hy => ?_⟩
    · rw [← List.flatMap_def, List.flatMap_singleton']
    · obtain ⟨b, hb, rfl⟩ := List.mem_map.1 hy
      exact ⟨b, h b hb, rfl⟩

theorem mem_someDigits {w : Bytes} : w ∈ someDigits ↔ Digits w := by
  rw [someDigits, Language.mem_mul]
  constructor
  · rintro ⟨_, ⟨d, hd, rfl⟩, ds, hds, rfl⟩
    refine ⟨by simp, fun b hb => ?_⟩
    rcases List.mem_cons.1 hb with rfl | hb
    · exact hd
    · exact mem_digit_kstar.1 hds b hb
  · intro h
    obtain ⟨d, ds, rfl, hd⟩ := h.exists_cons
    exact ⟨[d], ⟨d, hd, rfl⟩, ds, mem_digit_kstar.2 fun b hb => h.2 b (by simp [hb]), rfl⟩

theorem mem_optional_sign {w : Bytes} :
    w ∈ optional sign ↔ ∃ s : Option UInt8, (∀ b ∈ s, Byte.isSign b = true) ∧ s.toList = w := by
  constructor
  · rintro (rfl | ⟨b, hb, rfl⟩)
    · exact ⟨none, by simp, rfl⟩
    · exact ⟨some b, by simpa using hb, rfl⟩
  · rintro ⟨s, hs, rfl⟩
    cases s with
    | none => exact Or.inl rfl
    | some b => exact Or.inr ⟨b, hs b rfl, rfl⟩

theorem mem_power {w : Bytes} :
    w ∈ power ↔ ∃ e : Exponent, e.WellFormed ∧ e.text = w := by
  unfold power
  simp only [Language.mem_mul, mem_someDigits, mem_optional_sign]
  constructor
  · rintro ⟨_, ⟨_, ⟨letter, hletter, rfl⟩, _, ⟨s, hs, rfl⟩, rfl⟩, digits, hdigits, rfl⟩
    exact ⟨⟨letter, s, digits⟩, ⟨hletter, hs, hdigits⟩, by simp [Exponent.text]⟩
  · rintro ⟨e, he, rfl⟩
    exact ⟨_, ⟨[e.letter], ⟨e.letter, he.letter, rfl⟩, _, ⟨e.sign, he.sign, rfl⟩, rfl⟩, e.digits,
      he.digits, by simp [Exponent.text]⟩

theorem mem_optional_power {w : Bytes} : w ∈ optional power ↔
    ∃ e : Option Exponent, (∀ x ∈ e, x.WellFormed) ∧ (e.map Exponent.text).getD [] = w := by
  rw [mem_optional, mem_power]
  constructor
  · rintro (rfl | ⟨e, he, rfl⟩)
    · exact ⟨none, by simp, rfl⟩
    · exact ⟨some e, by simpa using he, rfl⟩
  · rintro ⟨e, he, rfl⟩
    cases e with
    | none => exact Or.inl rfl
    | some e => exact Or.inr ⟨e, he e rfl, rfl⟩

theorem mem_fraction {w : Bytes} : w ∈ optional (point * digit∗) ↔
    ∃ f : Option Bytes, (∀ b ∈ f.getD [], Byte.isDigit b = true) ∧ Numeral.fractionText f = w := by
  simp only [mem_optional, Language.mem_mul, mem_digit_kstar]
  constructor
  · rintro (rfl | ⟨_, ⟨b, hb, rfl⟩, f, hf, rfl⟩)
    · exact ⟨none, by simp, rfl⟩
    · obtain rfl : b = Byte.point := by simpa using hb
      exact ⟨some f, hf, rfl⟩
  · rintro ⟨f, hf, rfl⟩
    cases f with
    | none => exact Or.inl rfl
    | some f => exact Or.inr ⟨[Byte.point], ⟨Byte.point, by decide, rfl⟩, f, hf, rfl⟩

/-- Digits on either side of the point may be missing, but not on both. -/
theorem mem_significand {w : Bytes} : w ∈ significand ↔ ∃ (whole : Bytes) (f : Option Bytes),
    Digits (whole ++ f.getD []) ∧ whole ++ Numeral.fractionText f = w := by
  simp only [significand, Language.mem_add, Language.mem_mul, mem_fraction, mem_someDigits]
  constructor
  · rintro (⟨whole, hwhole, _, ⟨f, hf, rfl⟩, rfl⟩ | ⟨_, ⟨b, hb, rfl⟩, f, hf, rfl⟩)
    · refine ⟨whole, f, ⟨by simp [hwhole.1], fun b hb => ?_⟩, rfl⟩
      exact (List.mem_append.1 hb).elim (hwhole.2 b) (hf b)
    · obtain rfl : b = Byte.point := by simpa using hb
      exact ⟨[], some f, hf, rfl⟩
  · rintro ⟨whole, f, hdigits, rfl⟩
    have hwhole : ∀ b ∈ whole, Byte.isDigit b = true := fun b hb => hdigits.2 b (by simp [hb])
    have hf : ∀ b ∈ f.getD [], Byte.isDigit b = true := fun b hb => hdigits.2 b (by simp [hb])
    by_cases hnil : whole = []
    · -- without a digit before the point there is a point, and a digit behind it
      subst hnil
      cases f with
      | none => exact absurd rfl hdigits.1
      | some f => exact Or.inr ⟨[Byte.point], ⟨Byte.point, by decide, rfl⟩, f, hdigits, rfl⟩
    · exact Or.inl ⟨whole, ⟨hnil, hwhole⟩, _, ⟨f, hf, rfl⟩, rfl⟩

/-- The texts of the language are those of well-formed numerals. -/
theorem mem_decimal_iff {w : Bytes} :
    w ∈ decimal ↔ ∃ n : Numeral, n.WellFormed ∧ n.text = w := by
  simp only [decimal, Language.mem_mul, mem_optional_sign, mem_significand, mem_optional_power]
  constructor
  · rintro ⟨_, ⟨_, ⟨s, hs, rfl⟩, _, ⟨whole, f, hdigits, rfl⟩, rfl⟩, _, ⟨e, he, rfl⟩, rfl⟩
    exact ⟨⟨s, whole, f, e⟩, ⟨hs, hdigits, he⟩, by simp [Numeral.text]⟩
  · rintro ⟨n, hn, rfl⟩
    exact ⟨_, ⟨_, ⟨n.sign, hn.sign, rfl⟩, _, ⟨n.whole, n.fraction, hn.digits, rfl⟩, rfl⟩, _,
      ⟨n.exponent, hn.exponent, rfl⟩, by simp [Numeral.text]⟩

end Grammar

open Grammar

namespace Numeral

/-! ## The numeral at the front -/

theorem WellFormed.text_ne_nil {n : Numeral} (hn : n.WellFormed) : n.text ≠ [] := by
  intro hnil
  have hread := read?_text hn
  rw [hnil] at hread
  cases hread

theorem text_eq_take {bytes : Bytes} {n : Numeral} (h : read? bytes = some n) :
    n.text = bytes.take (prefixSize bytes) := by
  rw [prefixSize, h]
  exact List.prefix_iff_eq_take.1 (wellFormed_of_read? h).2

/-- No numeral is empty, so one that takes no bytes is none. -/
theorem prefixSize_eq_zero_iff {bytes : Bytes} : prefixSize bytes = 0 ↔ read? bytes = none := by
  cases h : read? bytes with
  | none => simp [prefixSize, h]
  | some n => simp [prefixSize, h, (wellFormed_of_read? h).1.text_ne_nil]

/-- All of a numeral is in the bytes that it takes. -/
theorem read?_take (bytes : Bytes) : read? (bytes.take (prefixSize bytes)) = read? bytes := by
  cases h : read? bytes with
  | none =>
    rw [prefixSize_eq_zero_iff.2 h]
    rfl
  | some n => rw [← text_eq_take h, read?_text (wellFormed_of_read? h).1]

/-- The longest text of the language at the front is that of the numeral that is read. -/
theorem longest_iff {bytes p : Bytes} :
    Longest (· ∈ decimal) p bytes ↔ ∃ n, read? bytes = some n ∧ n.text = p := by
  simp only [Longest, mem_decimal_iff]
  constructor
  · rintro ⟨⟨n, hn, rfl⟩, hpre, hlongest⟩
    exact ⟨n, read?_eq_some_iff.2 ⟨hn, hpre, fun m hm => hlongest _ ⟨m, hm, rfl⟩⟩, rfl⟩
  · rintro ⟨n, hread, rfl⟩
    obtain ⟨hn, hpre, hlongest⟩ := read?_eq_some_iff.1 hread
    refine ⟨⟨n, hn, rfl⟩, hpre, ?_⟩
    rintro _ ⟨m, hm, rfl⟩ hm'
    exact hlongest m hm hm'

end Numeral

namespace Binary64

/-! ## The number that is read -/

/-- Blanks aside, a number is read from the numeral at the front alone. -/
theorem read?_take (t : Bytes) : let stripped := t.dropWhile Byte.isBlank
    read? (stripped.take (Numeral.prefixSize stripped)) = read? t := by
  intro stripped
  have hstripped : (stripped.take (Numeral.prefixSize stripped)).dropWhile Byte.isBlank =
      stripped.take (Numeral.prefixSize stripped) := by
    cases h : stripped with
    | nil => rfl
    | cons b rest =>
      have hhead : (t.dropWhile Byte.isBlank).head? = some b := congrArg List.head? h
      have hb : Byte.isBlank b = false := head?_dropWhile hhead
      cases Numeral.prefixSize (b :: rest) with
      | zero => rfl
      | succ n => rw [List.take_succ_cons, List.dropWhile_cons_of_neg (by simp [hb])]
  rw [read?, read?, hstripped, Numeral.read?_take]

/-- What is read stays the same if bytes are added that belong to no longer numeral. -/
theorem read?_append {t more : Bytes}
    (h : Numeral.prefixSize ((t ++ more).dropWhile Byte.isBlank) ≤
      Numeral.prefixSize (t.dropWhile Byte.isBlank)) : read? (t ++ more) = read? t := by
  unfold read?
  congr 1
  cases hread : Numeral.read? (t.dropWhile Byte.isBlank) with
  | none =>
    rw [Numeral.prefixSize_eq_zero_iff.2 hread, Nat.le_zero] at h
    exact Numeral.prefixSize_eq_zero_iff.1 h
  | some n =>
    obtain ⟨hn, tail, htail⟩ := Numeral.wellFormed_of_read? hread
    have hstripped : (t ++ more).dropWhile Byte.isBlank = n.text ++ (tail ++ more) := by
      have hne : t.dropWhile Byte.isBlank ≠ [] := by
        rw [← htail]
        simp [hn.text_ne_nil]
      rw [List.dropWhile_append, if_neg (by simpa using hne), ← htail, List.append_assoc]
    obtain ⟨m, hm, hle, -⟩ := Numeral.exists_read?_append hn (tail ++ more)
    rw [hstripped, Numeral.prefixSize, hm, Numeral.prefixSize, hread] at h
    rw [hstripped, hm]
    -- both are numerals at the front, and of one length
    have htext : m.text = n.text :=
      (List.prefix_of_prefix_length_le (Numeral.wellFormed_of_read? hm).2 ⟨tail ++ more, rfl⟩
        h).eq_of_length (Nat.le_antisymm h hle)
    rw [← Numeral.read?_text (Numeral.wellFormed_of_read? hm).1, htext, Numeral.read?_text hn]

end Binary64

/-- The numeral that is looked for takes as many bytes as the longest prefix that is one, or none if
no prefix is. The number read from a text is that of the numeral behind its blanks, and bytes that
do not make this numeral longer do not change it. -/
theorem Numeral.prefixSize_longest (t : Bytes) :
    (∀ size, prefixSize t = size ↔ (∃ p, Longest (· ∈ decimal) p t ∧ p.length = size) ∨
      (∀ p ∈ decimal, ¬p <+: t) ∧ size = 0) ∧
    Binary64.read? ((t.dropWhile Byte.isBlank).take (prefixSize (t.dropWhile Byte.isBlank))) =
      Binary64.read? t ∧
    ∀ more, prefixSize ((t ++ more).dropWhile Byte.isBlank) ≤
      prefixSize (t.dropWhile Byte.isBlank) → Binary64.read? (t ++ more) = Binary64.read? t := by
  refine ⟨fun size => ?_, Binary64.read?_take t, fun more => Binary64.read?_append⟩
  have hnone : (∀ p ∈ decimal, ¬p <+: t) ↔ read? t = none := by
    simp only [read?_eq_none_iff, mem_decimal_iff, forall_exists_index, and_imp]
    exact ⟨fun h n hn => h _ n hn rfl, fun h p n hn hp => hp ▸ h n hn⟩
  simp only [longest_iff, hnone]
  cases h : read? t with
  | none => simp [prefixSize, h, eq_comm]
  | some n => simp [prefixSize, h]

-- in `-.5e+x` no exponent follows the letter
example : Numeral.prefixSize [45, 46, 53, 101, 43, 120] = 3 := by decide

end SceneTokens
