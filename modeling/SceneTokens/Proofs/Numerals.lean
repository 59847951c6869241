import SceneTokens.Proofs.Contract
import SceneTokens.Proofs.Delimited

/-!
# The longest numeral at a place

A numeral may have a sign, and a point at the end of its digits (`Numeral.WellFormed`); a number as
scenes spell it has neither. `Numeral.read?` finds the numeral at the front of a byte string that no
other one there is longer than, and finds none only if there is none
(`Numeral.read?_eq_some_iff`, `Numeral.read?_eq_none_iff`). The proof reads a numeral that is
written in front of some bytes: all of it is read, with its last run of digits going on as far as it
can (`Numeral.exists_read?_append`), and if nothing follows, it is what is read
(`Numeral.read?_text`).

The two ways of telling a number agree on the lexemes of scenes. A number that a reader returns is
read whole, and it is the numeral at its place, unless a point without a digit behind it follows
(`Reader.next_number_whole`).
-/

namespace SceneTokens

open Grammar

/-! ## Bytes of a numeral -/

namespace Byte

theorem isDigit_of_isSign {b : UInt8} (h : isSign b = true) : isDigit b = false :=
  forall_of_lt (P := fun b => isSign b = true → isDigit b = false) (by decide +kernel) b h

theorem isSign_of_isDigit {b : UInt8} (h : isDigit b = true) : isSign b = false := by
  cases hs : isSign b with
  | false => rfl
  | true => cases h.symm.trans (isDigit_of_isSign hs)

theorem isDigit_of_isLetter {b : UInt8} (h : Exponent.isLetter b = true) :
    isDigit b = false ∧ b ≠ point :=
  forall_of_lt (P := fun b => Exponent.isLetter b = true → isDigit b = false ∧ b ≠ point)
    (by decide +kernel) b h

end Byte

/-- A run of digits that goes on with no digit is taken whole, and no more. -/
theorem takeWhile_digits {u v : Bytes} (hu : ∀ b ∈ u, Byte.isDigit b = true)
    (hv : ∀ c, v.head? = some c → Byte.isDigit c = false) :
    (u ++ v).takeWhile Byte.isDigit = u ∧ (u ++ v).dropWhile Byte.isDigit = v := by
  cases v with
  | nil => simpa using hu
  | cons c v =>
    exact ⟨takeWhile_append_cons hu (hv c rfl), dropWhile_append_cons hu (hv c rfl)⟩

theorem drop_takeWhile_digits (bytes : Bytes) :
    bytes.drop (bytes.takeWhile Byte.isDigit).length = bytes.dropWhile Byte.isDigit := by
  have hdrop : (bytes.takeWhile Byte.isDigit ++ bytes.dropWhile Byte.isDigit).drop
      (bytes.takeWhile Byte.isDigit).length = bytes.dropWhile Byte.isDigit := List.drop_left
  rwa [List.takeWhile_append_dropWhile] at hdrop

/-! ## Well-formed numerals -/

/-- An exponent as it may be written: its letter, a sign or none, and digits. -/
structure Exponent.WellFormed (e : Exponent) : Prop where
  letter : isLetter e.letter = true
  sign : ∀ s ∈ e.sign, Byte.isSign s = true
  digits : Digits e.digits

/-- A numeral as it may be written: a sign or none, digits of which at least one stands before or
behind the point, if there is a point, and an exponent or none. -/
structure Numeral.WellFormed (n : Numeral) : Prop where
  sign : ∀ s ∈ n.sign, Byte.isSign s = true
  digits : Digits n.digits
  exponent : ∀ e ∈ n.exponent, e.WellFormed

/-- `n` is the longest of the numerals at the front of `bytes`. -/
structure Numeral.Leads (bytes : Bytes) (n : Numeral) : Prop where
  wellFormed : n.WellFormed
  isPrefix : n.text <+: bytes
  longest : ∀ m : Numeral, m.WellFormed → m.text <+: bytes → m.text.length ≤ n.text.length

namespace Numeral

/-! ## Reading a written numeral -/

theorem splitSign_text {sign : Option UInt8} {u : Bytes} (hsign : ∀ s ∈ sign, Byte.isSign s = true)
    (hu : ∀ b, u.head? = some b → Byte.isSign b = false) :
    splitSign (sign.toList ++ u) = (sign, u) := by
  cases sign with
  | some s => simp [splitSign, hsign s rfl]
  | none =>
    cases u with
    | nil => rfl
    | cons b u => simp [splitSign, hu b rfl]

theorem isSign_of_splitSign (bytes : Bytes) : ∀ s ∈ (splitSign bytes).1, Byte.isSign s = true := by
  cases bytes with
  | nil => simp [splitSign]
  | cons b rest =>
    by_cases hb : Byte.isSign b = true
    · simp [splitSign, hb]
    · simp [splitSign, hb]

end Numeral

/-- An exponent takes all digits that follow it. -/
theorem Exponent.read?_append {e : Exponent} (he : e.WellFormed) (tail : Bytes) :
    read? (e.text ++ tail) =
      some { e with digits := e.digits ++ tail.takeWhile Byte.isDigit } := by
  have hhead : ∀ b, (e.digits ++ tail).head? = some b → Byte.isSign b = false := by
    obtain ⟨d, ds, hds, hd⟩ := he.digits.exists_cons
    rw [hds]
    rintro b ⟨⟩
    exact Byte.isSign_of_isDigit hd
  have hrun : (e.digits ++ tail).takeWhile Byte.isDigit =
      e.digits ++ tail.takeWhile Byte.isDigit :=
    List.takeWhile_append_of_pos he.digits.2
  rw [text, List.cons_append, List.append_assoc, read?, if_pos he.letter,
    Numeral.splitSign_text he.sign hhead]
  simp [hrun, he.digits.1]

/-- An exponent that is read is well formed, and is spelled at the front. -/
theorem Exponent.wellFormed_of_read? {bytes : Bytes} {e : Exponent} (h : read? bytes = some e) :
    e.WellFormed ∧ e.text <+: bytes := by
  refine ⟨?_, (Piece.power_of_read? h).2⟩
  cases bytes with
  | nil => simp [read?] at h
  | cons b rest =>
    simp only [read?] at h
    split_ifs at h with hb hd
    cases h
    exact ⟨hb, Numeral.isSign_of_splitSign rest, digits_takeWhile (by simpa using hd)⟩

namespace Numeral

/-- Reading in terms of the parts of a text: the sign, the digits before the point, and what
follows them. -/
theorem read?_parts {sign : Option UInt8} {whole after : Bytes}
    (hsign : ∀ s ∈ sign, Byte.isSign s = true) (hwhole : ∀ b ∈ whole, Byte.isDigit b = true)
    (hafter : ∀ c, after.head? = some c → Byte.isDigit c = false)
    (hsome : whole ≠ [] ∨ (readFraction? after).getD [] ≠ []) :
    read? (sign.toList ++ (whole ++ after)) =
      some ⟨sign, whole, readFraction? after,
        Exponent.read? (after.drop (fractionText (readFraction? after)).length)⟩ := by
  have hhead : ∀ b, (whole ++ after).head? = some b → Byte.isSign b = false := by
    cases whole with
    | cons d whole =>
      rintro b ⟨⟩
      exact Byte.isSign_of_isDigit (hwhole d (by simp))
    | nil =>
      cases after with
      | nil => exact nofun
      | cons c after =>
        rintro b ⟨⟩
        by_cases hc : c = Byte.point
        · subst hc
          decide
        · simp [readFraction?, hc] at hsome
  obtain ⟨htake, hdrop⟩ := takeWhile_digits hwhole hafter
  have hnot : ¬(whole.isEmpty && ((readFraction? after).getD []).isEmpty) = true := by
    simpa [Decidable.imp_iff_not_or] using hsome
  simp only [read?, splitSign_text hsign hhead, htake, hdrop, if_neg hnot]

/-- A point and the digits behind it are read up to where they end. -/
theorem readFraction?_append {fraction : Option Bytes} {v : Bytes}
    (hf : ∀ f ∈ fraction, ∀ b ∈ f, Byte.isDigit b = true)
    (hv : ∀ c, v.head? = some c → Byte.isDigit c = false ∧ c ≠ Byte.point) :
    readFraction? (fractionText fraction ++ v) = fraction := by
  cases fraction with
  | some f =>
    have hrun := (takeWhile_digits (hf f rfl) fun c hc => (hv c hc).1).1
    simp [fractionText, readFraction?, hrun]
  | none =>
    cases v with
    | nil => rfl
    | cons c v => simp [fractionText, readFraction?, (hv c rfl).2]

theorem head?_fractionText {fraction : Option Bytes} {v : Bytes}
    (hv : ∀ c, v.head? = some c → Byte.isDigit c = false) :
    ∀ c, (fractionText fraction ++ v).head? = some c → Byte.isDigit c = false := by
  cases fraction with
  | some f =>
    rintro c ⟨⟩
    decide
  | none => exact hv

section WellFormed

variable {n : Numeral} (hn : n.WellFormed)

include hn

theorem WellFormed.whole : ∀ b ∈ n.whole, Byte.isDigit b = true :=
  fun b hb => hn.digits.2 b (List.mem_append_left _ hb)

theorem WellFormed.fraction : ∀ f ∈ n.fraction, ∀ b ∈ f, Byte.isDigit b = true := by
  intro f hf b hb
  refine hn.digits.2 b (List.mem_append_right _ ?_)
  rwa [hf, Option.getD_some]

theorem WellFormed.some_digit : n.whole ≠ [] ∨ n.fraction.getD [] ≠ [] := by
  have hne : ¬(n.whole = [] ∧ n.fraction.getD [] = []) := by
    simpa [Numeral.digits] using hn.digits.1
  exact not_and_or.1 hne

/-- A numeral that is written in front of some bytes is read whole, and only its last run of digits
can go on. -/
theorem exists_read?_append (tail : Bytes) : ∃ m, read? (n.text ++ tail) = some m ∧
    n.text.length ≤ m.text.length ∧ (tail = [] → m = n) := by
  obtain ⟨sign, whole, fraction, exponent⟩ := n
  have hsign := hn.sign
  have hwhole := hn.whole
  have hfraction := hn.fraction
  have hdigit := hn.some_digit
  dsimp only at hsign hwhole hfraction hdigit
  cases exponent with
  | some e =>
    have he := hn.exponent e rfl
    have hstop : ∀ c, (e.text ++ tail).head? = some c →
        Byte.isDigit c = false ∧ c ≠ Byte.point := by
      rintro c ⟨⟩
      exact Byte.isDigit_of_isLetter he.letter
    have hread := readFraction?_append hfraction hstop
    have hparts := read?_parts hsign hwhole (head?_fractionText fun c hc => (hstop c hc).1)
      (by rwa [hread])
    rw [hread, List.drop_left, e.read?_append he] at hparts
    refine ⟨_, by simpa [text] using hparts, ?_, ?_⟩
    · simp [text, Exponent.text]
    · rintro rfl
      simp
  | none =>
    have hstop : ∀ c, (tail.dropWhile Byte.isDigit).head? = some c → Byte.isDigit c = false :=
      fun _ => head?_dropWhile
    have htail := List.takeWhile_append_dropWhile (p := Byte.isDigit) (l := tail)
    cases fraction with
    | some f =>
      have hrun : (f ++ tail).takeWhile Byte.isDigit = f ++ tail.takeWhile Byte.isDigit :=
        List.takeWhile_append_of_pos (hfraction f rfl)
      have hread : readFraction? (Byte.point :: (f ++ tail)) =
          some (f ++ tail.takeWhile Byte.isDigit) := by
        simp [readFraction?, hrun]
      have hpoint : ∀ c, (Byte.point :: (f ++ tail)).head? = some c → Byte.isDigit c = false := by
        rintro c ⟨⟩
        decide
      have hparts := read?_parts hsign hwhole hpoint
        (by rw [hread]; exact hdigit.imp_right fun h => by simp_all)
      rw [hread] at hparts
      refine ⟨_, by simpa [text, fractionText] using hparts, ?_, ?_⟩
      · simp [text, fractionText]
      · rintro rfl
        simp [Exponent.read?]
    | none =>
      have hrun : ∀ b ∈ whole ++ tail.takeWhile Byte.isDigit, Byte.isDigit b = true := by
        intro b hb
        rcases List.mem_append.1 hb with hb | hb
        · exact hwhole b hb
        · exact List.mem_takeWhile_imp hb
      have hparts := read?_parts hsign hrun hstop (Or.inl (by simp_all))
      rw [List.append_assoc, htail] at hparts
      refine ⟨_, by simpa [text, fractionText] using hparts, ?_, ?_⟩
      · simp [text, fractionText]
      · rintro rfl
        simp [readFraction?, Exponent.read?]

/-- Reading gives a written numeral back. -/
theorem read?_text : read? n.text = some n := by
  obtain ⟨m, hm, -, heq⟩ := exists_read?_append hn []
  rw [List.append_nil] at hm
  rw [hm, heq rfl]

end WellFormed

/-- A fraction that is read is spelled at the front, and its digits are digits. -/
theorem fractionText_readFraction? (u : Bytes) : fractionText (readFraction? u) <+: u ∧
    ∀ f ∈ readFraction? u, ∀ b ∈ f, Byte.isDigit b = true := by
  cases u with
  | nil => exact ⟨List.nil_prefix, by simp [readFraction?]⟩
  | cons c u =>
    by_cases hc : c = Byte.point
    · subst hc
      simp only [readFraction?, if_pos, fractionText, List.prefix_cons_inj, Option.mem_some_iff,
        forall_eq']
      exact ⟨List.takeWhile_prefix _, fun b hb => List.mem_takeWhile_imp hb⟩
    · simp [readFraction?, hc, fractionText]

/-- What is read is a numeral written at the front. -/
theorem wellFormed_of_read? {bytes : Bytes} {n : Numeral} (h : read? bytes = some n) :
    n.WellFormed ∧ n.text <+: bytes := by
  have hsplit : (splitSign bytes).1.toList ++ (splitSign bytes).2 = bytes :=
    Piece.splitSign_append
  generalize hs : (splitSign bytes).1 = sign at hsplit
  generalize hu : (splitSign bytes).2 = unsigned at hsplit
  have hsign : ∀ s ∈ sign, Byte.isSign s = true := hs ▸ isSign_of_splitSign bytes
  simp only [read?, hs, hu] at h
  split_ifs at h with hnone
  obtain ⟨⟨rest, hrest⟩, hfraction⟩ :=
    fractionText_readFraction? (unsigned.dropWhile Byte.isDigit)
  generalize readFraction? (unsigned.dropWhile Byte.isDigit) = fraction at *
  have hdrop : (unsigned.dropWhile Byte.isDigit).drop (fractionText fraction).length = rest := by
    rw [← hrest, List.drop_left]
  rw [hdrop] at h
  obtain rfl := Option.some.inj h
  refine ⟨⟨hsign, ⟨by simpa [digits, Decidable.imp_iff_not_or, not_and_or] using hnone, ?_⟩,
    fun e he => (Exponent.wellFormed_of_read? he).1⟩, ?_⟩
  · intro b hb
    rcases List.mem_append.1 hb with hb | hb
    · exact List.mem_takeWhile_imp hb
    · cases fraction with
      | none => cases hb
      | some f => exact hfraction f rfl b hb
  · obtain ⟨tail, htail⟩ : ((Exponent.read? rest).map Exponent.text).getD [] <+: rest := by
      cases he : Exponent.read? rest with
      | none => exact List.nil_prefix
      | some e => exact (Exponent.wellFormed_of_read? he).2
    refine ⟨tail, ?_⟩
    simp only [text, List.append_assoc]
    rw [htail, hrest, List.takeWhile_append_dropWhile, hsplit]

/-! ## The longest numeral -/

/-- What is read is the longest numeral at the front. -/
theorem read?_eq_some_iff {bytes : Bytes} {n : Numeral} : read? bytes = some n ↔ n.Leads bytes := by
  have hlongest {m k : Numeral} (hm : read? bytes = some m) (hk : k.WellFormed)
      (hpre : k.text <+: bytes) : k.text.length ≤ m.text.length := by
    obtain ⟨tail, rfl⟩ := hpre
    obtain ⟨m', hm', hle, -⟩ := exists_read?_append hk tail
    obtain rfl := Option.some.inj (hm.symm.trans hm')
    exact hle
  constructor
  · intro h
    obtain ⟨hn, hpre⟩ := wellFormed_of_read? h
    exact ⟨hn, hpre, fun k hk => hlongest h hk⟩
  · intro h
    obtain ⟨tail, htail⟩ := h.isPrefix
    obtain ⟨m, hm, -⟩ := exists_read?_append h.wellFormed tail
    rw [htail] at hm
    obtain ⟨hwell, hpre⟩ := wellFormed_of_read? hm
    -- both are prefixes of one length, and a text determines its numeral
    have htext : m.text = n.text := by
      have hle := h.longest m hwell hpre
      have hge := hlongest hm h.wellFormed h.isPrefix
      exact (List.prefix_of_prefix_length_le hpre h.isPrefix hle).eq_of_length
        (Nat.le_antisymm hle hge)
    rw [hm, ← read?_text hwell, htext, read?_text h.wellFormed]

/-- Only where no numeral stands at the front is none read. -/
theorem read?_eq_none_iff {bytes : Bytes} :
    read? bytes = none ↔ ∀ n : Numeral, n.WellFormed → ¬n.text <+: bytes := by
  constructor
  · rintro h n hn ⟨tail, rfl⟩
    obtain ⟨m, hm, -⟩ := exists_read?_append hn tail
    cases h.symm.trans hm
  · intro h
    cases hm : read? bytes with
    | none => rfl
    | some m =>
      obtain ⟨hwell, hpre⟩ := wellFormed_of_read? hm
      exact absurd hpre (h m hwell)

end Numeral

/-! ## Numbers of a scene -/

namespace Grammar

/-- The digits at the front, or none, end with a point that no digit follows. -/
def StrayPoint (bytes : Bytes) : Prop :=
  ∃ after, bytes.dropWhile Byte.isDigit = Byte.point :: after ∧
    ∀ c, after.head? = some c → Byte.isDigit c = false

theorem Number.startsNumber_append {raw : Bytes} (h : Number raw) (after : Bytes) :
    ∃ b rest, raw ++ after = b :: rest ∧ Piece.startsNumber b rest = true := by
  cases h with
  | plain hm => exact hm.startsNumber after
  | @scaled m x hm _ =>
    rw [List.append_assoc]
    exact hm.startsNumber (x ++ after)

end Grammar

namespace Piece

theorem isBlank_of_startsNumber {b : UInt8} {rest : Bytes} (h : startsNumber b rest = true) :
    Byte.isBlank b = false := by
  have hb := (startsNumber_iff.1 h).imp_right And.left
  grind [Byte.isBlank, Byte.isDigit, Byte.point]

/-- A number that ends before a stray point is its digits alone. -/
theorem number_of_strayPoint {bytes : Bytes} (h : StrayPoint bytes) :
    number bytes = bytes.takeWhile Byte.isDigit := by
  obtain ⟨after, hdrop, hafter⟩ := h
  have hrun : after.takeWhile Byte.isDigit = [] := (takeWhile_digits (u := []) (by simp) hafter).1
  have hm : mantissa bytes = bytes.takeWhile Byte.isDigit := by
    simp [mantissa, hdrop, fraction, hrun]
  have hrest : bytes.drop (mantissa bytes).length = Byte.point :: after := by
    rw [hm, drop_takeWhile_digits, hdrop]
  have hletter : Exponent.isLetter Byte.point = false := by decide
  have hnone : Exponent.read? (Byte.point :: after) = none := by simp [Exponent.read?, hletter]
  rw [number_eq, hrest, hnone, hm]
  exact List.append_nil _

/-- Elsewhere the fraction of a number is that of the numeral. -/
theorem fraction_of_not_strayPoint {bytes : Bytes} (h : ¬StrayPoint bytes) :
    fraction (bytes.dropWhile Byte.isDigit) =
      Numeral.fractionText (Numeral.readFraction? (bytes.dropWhile Byte.isDigit)) := by
  cases hdrop : bytes.dropWhile Byte.isDigit with
  | nil => rfl
  | cons c after =>
    by_cases hc : c = Byte.point
    · subst hc
      have hrun : after.takeWhile Byte.isDigit ≠ [] := by
        intro hrun
        refine h ⟨after, hdrop, fun c hhead => ?_⟩
        cases after with
        | nil => cases hhead
        | cons d after => simpa [← Option.some.inj hhead] using hrun
      simp [fraction, Numeral.readFraction?, Numeral.fractionText, hrun]
    · simp [fraction, Numeral.readFraction?, Numeral.fractionText, hc]

/-- Where a number starts, a numeral is read, and it goes on behind the number if and only if a
stray point follows its digits. -/
theorem exists_read?_of_startsNumber {b : UInt8} {rest : Bytes}
    (h : startsNumber b rest = true) : ∃ n, Numeral.read? (b :: rest) = some n ∧
      (StrayPoint (b :: rest) → (number (b :: rest)).length < n.text.length) ∧
      (¬StrayPoint (b :: rest) → number (b :: rest) = n.text) := by
  generalize hbytes : b :: rest = bytes
  have hsplit := List.takeWhile_append_dropWhile (p := Byte.isDigit) (l := bytes)
  have hsome : bytes.takeWhile Byte.isDigit ≠ [] ∨
      (Numeral.readFraction? (bytes.dropWhile Byte.isDigit)).getD [] ≠ [] := by
    subst hbytes
    rcases startsNumber_iff.1 h with hb | ⟨rfl, c, tail, rfl, hc⟩
    · simp [hb]
    · have hpoint : Byte.isDigit Byte.point = false := by decide
      simp [hpoint, Numeral.readFraction?, hc]
  have hunsigned : ∀ s ∈ (none : Option UInt8), Byte.isSign s = true := by simp
  have hread := Numeral.read?_parts hunsigned
    (fun _ hb => List.mem_takeWhile_imp hb) (fun _ hc => head?_dropWhile hc) hsome
  rw [hsplit] at hread
  refine ⟨_, hread, fun hstray => ?_, fun hstray => ?_⟩
  · have hnumber := number_of_strayPoint hstray
    obtain ⟨after, hdrop, -⟩ := hstray
    rw [hnumber, hdrop]
    simp [Numeral.text, Numeral.fractionText, Numeral.readFraction?]
  · have hm : mantissa bytes = bytes.takeWhile Byte.isDigit ++
        Numeral.fractionText (Numeral.readFraction? (bytes.dropWhile Byte.isDigit)) := by
      rw [mantissa, fraction_of_not_strayPoint hstray]
    rw [number_eq, hm, List.length_append, ← List.drop_drop, drop_takeWhile_digits]
    rfl

/-- The digits of a number are a numeral, and so is the number. -/
theorem exists_numeral_text {b : UInt8} {rest : Bytes} (h : startsNumber b rest = true) :
    ∃ n : Numeral, n.WellFormed ∧ n.text = number (b :: rest) := by
  obtain ⟨n, hn, -, hwhole⟩ := exists_read?_of_startsNumber h
  by_cases hstray : StrayPoint (b :: rest)
  · have hnumber := number_of_strayPoint hstray
    have hne := hnumber ▸ number_ne_nil h
    refine ⟨⟨none, number (b :: rest), none, none⟩, ⟨by simp, ?_, by simp⟩, ?_⟩
    · simpa [Numeral.digits, hnumber] using digits_takeWhile hne
    · simp [Numeral.text, Numeral.fractionText]
  · exact ⟨n, (Numeral.wellFormed_of_read? hn).1, (hwhole hstray).symm⟩

end Piece

/-- A number that a reader returns is read whole, and its value is that of the whole. It is the
numeral that stands at its place in the input, except where a point without a digit behind it
follows its digits; there it is the digits alone. -/
theorem Reader.next_number_whole {r : Reader} {l : Lexeme} (hl : r.next.value = some l)
    (hnumber : l.category = .number) : ∃ source, r.input? = some source ∧
      let bytes := source.content.drop l.position.offset
      Numeral.prefixSize l.text = l.text.length ∧
      (∃ n : Numeral, n.text = l.text ∧ Binary64.read? l.text = some (.ofNumeral n)) ∧
      (l.text = bytes.take (Numeral.prefixSize bytes) ↔ ¬StrayPoint bytes) ∧
      (StrayPoint bytes → l.text = bytes.takeWhile Byte.isDigit) := by
  obtain ⟨c, hc⟩ := cursor_of_next hl
  obtain ⟨stop, gap, raw, after, hfound, -⟩ := next_found hc hl
  have hbytes : c.handle.content.drop l.position.offset = raw ++ after := hfound.start_rest
  have hspelled := hfound.spelled
  have htext := hfound.text
  rw [hnumber] at hspelled
  rw [if_neg (by simp [hnumber])] at htext
  obtain ⟨b, rest, hcons, hstart⟩ := hspelled.1.startsNumber_append after
  have hraw : l.text = Piece.number (b :: rest) := by
    rw [htext]
    refine Longest.eq hspelled ?_
    rw [hcons]
    exact Piece.number_longest hstart
  obtain ⟨m, hm, hmtext⟩ := Piece.exists_numeral_text hstart
  obtain ⟨n, hn, hlonger, hwhole⟩ := Piece.exists_read?_of_startsNumber hstart
  have hread : Numeral.read? l.text = some m := by rw [hraw, ← hmtext, Numeral.read?_text hm]
  have hfront : (b :: rest).take (Numeral.prefixSize (b :: rest)) = n.text := by
    rw [Numeral.prefixSize, hn]
    exact (List.prefix_iff_eq_take.1 (Numeral.wellFormed_of_read? hn).2).symm
  refine ⟨c.handle, by rw [input?, hc, Option.map_some], ?_⟩
  dsimp only
  rw [hbytes, hcons, hfront]
  refine ⟨?_, ⟨m, hmtext.trans hraw.symm, ?_⟩, ⟨fun heq hstray => ?_, fun hstray => ?_⟩,
    fun hstray => ?_⟩
  · rw [Numeral.prefixSize, hread, hraw, ← hmtext]
  · obtain ⟨d, ds, hds, hstart'⟩ := hspelled.1.startsNumber
    have hblank : Byte.isBlank d = false := Piece.isBlank_of_startsNumber hstart'
    have htrim : l.text.dropWhile Byte.isBlank = l.text := by
      rw [htext, hds, List.dropWhile_cons_of_neg (by simp [hblank])]
    rw [Binary64.read?, htrim, hread, Option.map_some]
  · exact absurd (hlonger hstray) (by rw [← hraw, heq]; exact Nat.lt_irrefl _)
  · rw [hraw, hwhole hstray]
  · rw [hraw, Piece.number_of_strayPoint hstray]

/-- A reader at the start of `2.5e-3 1.e5`. The second number ends before its point. -/
def Reader.numbersStart : Reader :=
  .ofHandle ⟨0, ⟨"main", [50, 46, 53, 101, 45, 51, 32, 49, 46, 101, 53], by decide⟩⟩

/-- The first lexeme is the longest numeral there. The second is not: a numeral could go on over the
stray point. -/
theorem Reader.next_number_whole_numbersStart :
    let first : Lexeme := ⟨.number, [50, 46, 53, 101, 45, 51], .start⟩
    let second : Lexeme := ⟨.number, [49], ⟨7, 1, 8⟩⟩
    numbersStart.next.value = some first ∧ numbersStart.next.state.next.value = some second ∧
      Numeral.prefixSize first.text = 6 ∧ Numeral.prefixSize second.text = 1 ∧
      ∃ source, numbersStart.input? = some source ∧
        first.text = source.content.take (Numeral.prefixSize source.content) ∧
        StrayPoint (source.content.drop 7) ∧
        second.text ≠ (source.content.drop 7).take (Numeral.prefixSize (source.content.drop 7)) ∧
        second.text = (source.content.drop 7).takeWhile Byte.isDigit := by
  intro first second
  have hfirst : numbersStart.next.value = some first := by decide +kernel
  have hsecond : numbersStart.next.state.next.value = some second := by decide +kernel
  obtain ⟨source, hsource, hsize, -, hwhole, -⟩ := next_number_whole hfirst rfl
  obtain ⟨source', hsource', hsize', -, hwhole', hdigits⟩ := next_number_whole hsecond rfl
  obtain rfl : source' = source := Option.some.inj (hsource'.symm.trans hsource)
  have hcontent : source'.content = [50, 46, 53, 101, 45, 51, 32, 49, 46, 101, 53] := by
    rw [← Option.some.inj hsource]
    rfl
  have hnot : ¬StrayPoint (source'.content.drop 0) := by
    rw [hcontent]
    rintro ⟨after, hdrop, hafter⟩
    obtain rfl : [53, 101, 45, 51, 32, 49, 46, 101, 53] = after := (List.cons.inj hdrop).2
    exact absurd (hafter 53 rfl) (by decide)
  have hstray : StrayPoint (source'.content.drop 7) := by
    rw [hcontent]
    exact ⟨[101, 53], by decide, by rintro c ⟨⟩; decide⟩
  exact ⟨hfirst, hsecond, hsize, hsize', source', hsource, hwhole.2 hnot, hstray,
    fun h => hwhole'.1 h hstray, hdigits hstray⟩

end SceneTokens
