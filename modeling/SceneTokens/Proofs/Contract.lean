import Mathlib.Control.Monad.Basic
import SceneTokens.Proofs.Course
import SceneTokens.Proofs.Reading
import SceneTokens.Proofs.Transcoding

/-!
# What scanners owe to tokenizers

A tokenizer gives a lexeme a meaning by its category, and does not trust the scanner: a number may
not start like one, a literal may lack its quotes, a symbol may be unknown. `Lexeme.Fails` lists
the ways in which that can go wrong, and `Lexeme.Owed` is what keeps a lexeme clear of those that
would be the scanner's fault.

The grammar of each category pays what is owed (`Grammar.Spelled.owed`), so every lexeme that a
reader returns does. What is left are the faults of an author: a malformed escape, and more words
than there are numbers for (`Session.next_contract`).
-/

namespace SceneTokens

open Grammar

/-! ## Failing lexemes -/

namespace Lexeme

/-- The faults that giving a meaning to a lexeme of the given input can end in. -/
inductive Fails (input : Option Handle) (l : Lexeme) : TokenFault → Prop
  | exhausted : l.category = .word → Fails input l .identitiesExhausted
  | number : l.category = .number → Binary64.read? l.text = none →
      Fails input l (.malformedNumber l.position l.text)
  | escape {fault : EscapeFault} : l.category = .string →
      Payload.decode (payload l.text) = .error fault →
      Fails input l (.invalidEscape input (l.escapePosition input fault.offset) fault.text)
  | string : l.category = .string → isQuoted l.text = false →
      Fails input l (.unexpectedLexeme l.position l.text)
  | symbol : l.category = .symbol → Symbol.classify? l.text = none →
      Fails input l (.unexpectedLexeme l.position l.text)

/-- The faults are those on the list: one case for each category and each way to fail in it. -/
theorem fails_of_interpret {input : Option Handle} {l : Lexeme} {words : WordTable}
    {f : TokenFault} (h : (l.interpret input words).value = .error f) : l.Fails input f := by
  cases hc : l.category with
  | word =>
    simp only [interpret, hc, interpretWord] at h
    split at h
    · cases h
    · cases h
      exact .exhausted hc
  | number =>
    simp only [interpret, hc, interpretNumber] at h
    split at h
    · cases h
    · cases h
      exact .number hc (by assumption)
  | string =>
    simp only [interpret, hc, interpretString] at h
    split at h
    · split at h
      · cases h
      · cases h
        exact .escape hc (by assumption)
    · rename_i hquoted
      cases h
      exact .string hc (Bool.eq_false_iff.2 hquoted)
  | symbol =>
    simp only [interpret, hc, interpretSymbol] at h
    split at h
    · cases h
    · cases h
      exact .symbol hc (by assumption)

/-- What a lexeme owes, by its category, to whoever gives it a meaning. -/
structure Owed (l : Lexeme) : Prop where
  number : l.category = .number → (Binary64.read? l.text).isSome
  string : l.category = .string → 2 ≤ l.text.length ∧ l.text.head? = some Byte.quote ∧
    l.text.getLast? = some Byte.quote
  symbol : l.category = .symbol → (Symbol.classify? l.text).isSome

/-- A lexeme that is as it should be fails only by an escape or for want of a number. -/
theorem Owed.fails {input : Option Handle} {l : Lexeme} {f : TokenFault} (hl : l.Owed)
    (h : l.Fails input f) : f = .identitiesExhausted ∨
      ∃ position text, f = .invalidEscape input position text := by
  cases h with
  | exhausted => exact Or.inl rfl
  | number hc hnone =>
    have hsome := hl.number hc
    simp [hnone] at hsome
  | escape => exact Or.inr ⟨_, _, rfl⟩
  | string hc hquoted =>
    obtain ⟨hlength, hhead, hlast⟩ := hl.string hc
    simp [isQuoted, hlength, hhead, hlast] at hquoted
  | symbol hc hnone =>
    have hsome := hl.symbol hc
    simp [hnone] at hsome

end Lexeme

/-- A tokenizer has no faults of its own, only those of the lexeme that its scanner hands out. -/
theorem Tokenizer.next_fails {σ : Type} [Scanner σ] {t : Tokenizer σ} {f : TokenFault}
    (h : t.next.value = some (.error f)) : ∃ l, (Scanner.next t.scanner).value = some l ∧
      l.Fails (Scanner.input? (Scanner.next t.scanner).state) f := by
  cases hl : (Scanner.next t.scanner).value with
  | none =>
    rw [next_of_none hl] at h
    cases h
  | some l =>
    rw [next_of_some hl] at h
    exact ⟨l, rfl, Lexeme.fails_of_interpret (Option.some.inj h)⟩

/-! ## What the grammar pays -/

/-- What starts like a number can be read as one. -/
theorem Binary64.read?_isSome {b : UInt8} {rest : Bytes} (h : Piece.startsNumber b rest = true) :
    (read? (b :: rest)).isSome := by
  have hstart := Piece.startsNumber_iff.1 h
  obtain ⟨hblank, hsign⟩ : Byte.isBlank b = false ∧ Byte.isSign b = false :=
    Byte.forall_of_lt (P := fun b => Byte.isDigit b = true ∨ b = Byte.point →
      Byte.isBlank b = false ∧ Byte.isSign b = false) (by decide +kernel) b
      (hstart.imp_right And.left)
  have hunsigned : Numeral.splitSign (b :: rest) = (none, b :: rest) := by
    simp [Numeral.splitSign, hsign]
  rw [read?, List.dropWhile_cons, hblank, Option.isSome_map]
  simp only [Numeral.read?, hunsigned, Bool.false_eq_true, if_false]
  rcases hstart with hdigit | ⟨rfl, c, tail, rfl, hc⟩
  · simp [hdigit]
  · have hpoint : Byte.isDigit Byte.point = false := by decide
    simp [hpoint, Numeral.readFraction?, hc]

/-- The table of symbols has every byte that may be one. -/
theorem Symbol.lookup_single {b : UInt8} (h : Punctuation b) : (single.lookup b).isSome :=
  Byte.forall_of_lt (P := fun b => Byte.isVisible b = true ∧ Byte.isLetter b = false ∧
      Byte.isDigit b = false ∧ b ≠ Byte.quote ∧ b ≠ Byte.underscore → (single.lookup b).isSome)
    (by decide +kernel) b ⟨h.visible, h.not_letter, h.not_digit, h.not_quote, h.not_underscore⟩

/-- Every sign of the grammar is in the table of symbols. -/
theorem Symbol.classify?_isSome {raw after : Bytes} (h : Sign raw after) :
    (classify? raw).isSome := by
  cases h with
  | relation hb =>
    simp only [comparisons, List.mem_cons, List.not_mem_nil, or_false] at hb
    rcases hb with rfl | rfl | rfl <;> decide
  | single hb => exact lookup_single hb

/-- A lexeme spelled as the grammar has it, its text transcoded if it is a literal, pays what its
category owes. -/
theorem Grammar.Spelled.owed {l : Lexeme} {raw after : Bytes} {encoding : Encoding}
    (h : Spelled l.category raw after)
    (htext : l.text = if l.category = .string then encoding.transcodeAll raw else raw) :
    l.Owed where
  number hc := by
    rw [hc] at h
    obtain ⟨b, rest, rfl, hstart⟩ := h.1.startsNumber
    rw [htext, if_neg (by simp [hc])]
    exact Binary64.read?_isSome hstart
  string hc := by
    rw [hc] at h
    obtain ⟨hp⟩ := h.1
    rw [htext, if_pos hc, Encoding.transcodeAll_literal, List.getLast?_cons]
    simp
  symbol hc := by
    rw [hc] at h
    rw [htext, if_neg (by simp [hc])]
    exact Symbol.classify?_isSome h

/-! ## What readers return -/

namespace Reader

theorem next_input? (r : Reader) : r.next.state.input? = r.input? := by
  unfold next
  split
  · rfl
  · rename_i c hc
    simp [input?, hc]

theorem cursor_of_next {r : Reader} {l : Lexeme} (h : r.next.value = some l) :
    ∃ c, r.cursor = some c := by
  cases hc : r.cursor with
  | none => simp [next, hc] at h
  | some c => exact ⟨c, rfl⟩

/-- Whatever a reader hands out was spelled as the grammar has it, and so is as it should be. -/
theorem next_owed {r : Reader} {l : Lexeme} (h : r.next.value = some l) : l.Owed := by
  obtain ⟨c, hc⟩ := cursor_of_next h
  obtain ⟨stop, gap, raw, after, hfound, -⟩ := next_found hc h
  exact hfound.spelled.owed hfound.text

/-- Reading on to a directive stops at nothing else. -/
theorem nextDirective_isHash {r : Reader} {l : Lexeme} (h : r.nextDirective.value = some l) :
    l.isHash = true := by
  fun_induction nextDirective r with
  | case1 r step hnone => cases hnone.symm.trans h
  | case2 r step lexeme hsome hash =>
    obtain rfl := Option.some.inj (hsome.symm.trans h)
    exact hash
  | case3 r step lexeme hsome hash more ih => exact ih h

end Reader

/-- Whatever was done to a session, its scanner's lexemes are what their categories promise, a
directive is the sign that introduces it, and a token that cannot be read is a literal with a
malformed escape or a word too many. -/
theorem Session.next_contract (s : Session Reader) :
    (∀ l, (Scanner.next s.scanner).value = some l → l.Owed) ∧
      (∀ l, (Scanner.nextDirective s.scanner).value = some l →
        l.category = .symbol ∧ l.text = [Byte.hash]) ∧
      ∀ f, s.tokenizer.next.value = some (.error f) → f = .identitiesExhausted ∨
        ∃ position text, f = .invalidEscape (Scanner.input? s.scanner) position text := by
  refine ⟨fun l hl => Reader.next_owed hl, fun l hl => ?_, fun f hf => ?_⟩
  · simpa [Lexeme.isHash] using Reader.nextDirective_isHash hl
  · obtain ⟨l, hl, hfails⟩ := Tokenizer.next_fails hf
    have hinput : Scanner.input? (Scanner.next s.scanner).state = Scanner.input? s.scanner :=
      s.scanner.next_input?
    exact hinput ▸ (Reader.next_owed hl).fails hfails

/-- A session at the start of `"\q" #`, where the literal holds no valid escape. -/
def Session.faultyStart : Session Reader :=
  .start (.ofHandle ⟨0, ⟨"main", [34, 92, 113, 34, 32, 35], by decide⟩⟩) []

/-- The lexeme is as it should be, and its meaning is a fault all the same. -/
theorem Session.next_contract_faultyStart :
    ∃ l d f, (Scanner.next faultyStart.scanner).value = some l ∧ l.Owed ∧
      (Scanner.nextDirective faultyStart.scanner).value = some d ∧
      (d.category = .symbol ∧ d.text = [Byte.hash]) ∧
      faultyStart.tokenizer.next.value = some (.error f) ∧ (f = .identitiesExhausted ∨
        ∃ position text,
          f = .invalidEscape (Scanner.input? faultyStart.scanner) position text) := by
  obtain ⟨howed, hdirective, hfault⟩ := next_contract faultyStart
  have hl : (Scanner.next faultyStart.scanner).value =
      some ⟨.string, [34, 92, 113, 34], .start⟩ := by
    decide +kernel
  have hd : (Scanner.nextDirective faultyStart.scanner).value =
      some ⟨.symbol, [35], ⟨5, 1, 6⟩⟩ := by
    decide +kernel
  have hf : faultyStart.tokenizer.next.value =
      some (.error (.invalidEscape (Scanner.input? faultyStart.scanner) ⟨1, 1, 2⟩ [92, 113])) := by
    decide +kernel
  exact ⟨_, _, _, hl, howed _ hl, hd, hdirective _ hd, hf, hfault _ hf⟩

end SceneTokens
