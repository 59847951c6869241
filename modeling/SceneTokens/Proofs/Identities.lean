import Mathlib.Data.List.Pairwise
import SceneTokens.Proofs.Contract
import SceneTokens.Proofs.Interning

/-!
# Identities are faithful

With the built-in vocabulary, the identity of a token tells its lexeme as far as a grammar needs
it. All numbers have one identity, all string literals have one, and two spellings of a reserved
word share theirs; otherwise two tokens of a course have the same identity if and only if they have
the same category and text (`Session.tokens_id_eq_iff`).

A word has its identity from the table, which numbers new words apart and from a number on that no
fixed identity has. The identities of other lexemes are the same on every course
(`Lexeme.standingId?`). The two kinds cannot meet: the entries of the vocabulary that have the
identity of a literal, a symbol or a sentinel are no words (`ReservedWord.builtIn_isWordless`), so
an identity tells the category (`TokenId.owner`).
-/

namespace SceneTokens

/-! ## The vocabulary -/

namespace TokenId

/-- An identity that no word has: the marker of a family, a sentinel, a kind of literals, or a
symbol. -/
def isWordless (id : TokenId) : Bool :=
  [floatFunct, vectorFunct, colourKey].contains id ||
    (notAToken.raw ≤ id.raw && id.raw ≤ relGe.raw)

/-- An identity of a symbol. -/
def isSymbolic (id : TokenId) : Bool :=
  exclamation.raw ≤ id.raw && id.raw ≤ relGe.raw

/-- The category of the lexemes that have an identity. -/
def owner (id : TokenId) : Category :=
  if id = float then .number
  else if id = stringLiteral then .string
  else if id.isSymbolic then .symbol
  else .word

theorem isFixed_above (n : Nat) : isFixed ⟨fixedCount + n⟩ = false := by
  simp [isFixed]

theorem isFixed_of_isWordless {id : TokenId} (h : id.isWordless = true) : id.isFixed = true := by
  have hmarkers : ∀ id ∈ [floatFunct, vectorFunct, colourKey], id.isFixed = true := by decide
  have hlast : relGe.raw < fixedCount := by decide
  rcases (Bool.or_eq_true _ _).mp h with hmarker | hrange
  · exact hmarkers id (List.contains_iff_mem.1 hmarker)
  · simp only [Bool.and_eq_true, decide_eq_true_eq] at hrange
    simp only [isFixed, decide_eq_true_eq]
    omega

theorem isWordless_of_isSymbolic {id : TokenId} (h : id.isSymbolic = true) :
    id.isWordless = true := by
  have hfirst : notAToken.raw ≤ exclamation.raw := by decide
  simp only [isSymbolic, Bool.and_eq_true, decide_eq_true_eq] at h
  have hrange : (notAToken.raw ≤ id.raw && id.raw ≤ relGe.raw) = true := by
    simp only [Bool.and_eq_true, decide_eq_true_eq]
    omega
  rw [isWordless, hrange, Bool.or_true]

theorem owner_of_isWordless {id : TokenId} (h : id.isWordless = false) : id.owner = .word := by
  have hfloat : id ≠ float := by
    rintro rfl
    cases h
  have hstring : id ≠ stringLiteral := by
    rintro rfl
    cases h
  have hsymbolic : ¬id.isSymbolic = true := fun hid => by
    cases (isWordless_of_isSymbolic hid).symm.trans h
  rw [owner, if_neg hfloat, if_neg hstring, if_neg hsymbolic]

theorem owner_of_isSymbolic {id : TokenId} (h : id.isSymbolic = true) : id.owner = .symbol := by
  have hfloat : id ≠ float := by
    rintro rfl
    cases h
  have hstring : id ≠ stringLiteral := by
    rintro rfl
    cases h
  rw [owner, if_neg hfloat, if_neg hstring, if_pos h]

end TokenId

namespace ReservedWord

/-- The words that the vocabulary has in two spellings. -/
def aliases : List (Bytes × Bytes) := [
  (Bytes.ofString "color", Bytes.ofString "colour"),
  (Bytes.ofString "gray", Bytes.ofString "grey")]

/-- Two spellings of one word. -/
def Alias (w₁ w₂ : Bytes) : Prop :=
  (w₁, w₂) ∈ aliases ∨ (w₂, w₁) ∈ aliases

instance (w₁ w₂ : Bytes) : Decidable (Alias w₁ w₂) :=
  inferInstanceAs (Decidable (_ ∨ _))

/-- Reserved words have fixed identities, below all numbers that are given to new words. -/
theorem builtIn_isFixed : ∀ r ∈ builtIn, r.id.isFixed = true := by decide

/-- No reserved word has the identity of a symbol, a literal or a marker. -/
theorem builtIn_isWordless {r : ReservedWord} (hr : r ∈ builtIn) (hword : r.isWord = true) :
    r.id.isWordless = false := by
  -- stated this way round, the names of few entries have to be looked at
  have hnames : ∀ r ∈ builtIn, r.id.isWordless = true → r.isWord = false := by decide +kernel
  by_contra hid
  have hnot := hnames r hr (by simpa using hid)
  simp [hword] at hnot

/-- Two entries with one identity are two spellings of one word. -/
theorem builtIn_alias {r₁ r₂ : ReservedWord} (h₁ : r₁ ∈ builtIn) (h₂ : r₂ ∈ builtIn)
    (hid : r₁.id = r₂.id) : r₁ = r₂ ∨ Alias r₁.bytes r₂.bytes := by
  have hpairs : builtIn.Pairwise fun r₁ r₂ => r₁.id = r₂.id → Alias r₁.bytes r₂.bytes := by
    decide +kernel
  have hsymm : Std.Symm fun r₁ r₂ : ReservedWord => r₁.id = r₂.id → Alias r₁.bytes r₂.bytes :=
    ⟨fun _ _ h hid => (h hid.symm).symm⟩
  by_cases heq : r₁ = r₂
  · exact Or.inl heq
  · exact Or.inr (hpairs.forall h₁ h₂ heq hid)

/-- Both spellings of a word have an entry, with one identity. -/
theorem exists_entry_of_alias {w₁ w₂ : Bytes} (h : Alias w₁ w₂) : ∃ r₁ r₂,
    entryFor? builtIn w₁ = some r₁ ∧ entryFor? builtIn w₂ = some r₂ ∧ r₁.id = r₂.id := by
  have hentries : ∀ x ∈ aliases, (entryFor? builtIn x.1).isSome ∧
      (entryFor? builtIn x.1).map id = (entryFor? builtIn x.2).map id := by
    decide +kernel
  have hpair {w₁ w₂ : Bytes} (hmem : (w₁, w₂) ∈ aliases) : ∃ r₁ r₂,
      entryFor? builtIn w₁ = some r₁ ∧ entryFor? builtIn w₂ = some r₂ ∧ r₁.id = r₂.id := by
    obtain ⟨hsome, hid⟩ := hentries _ hmem
    obtain ⟨r₁, hr₁⟩ := Option.isSome_iff_exists.1 hsome
    rw [hr₁, Option.map_some, eq_comm, Option.map_eq_some_iff] at hid
    obtain ⟨r₂, hr₂, hid⟩ := hid
    exact ⟨r₁, r₂, hr₁, hr₂, hid.symm⟩
  rcases h with hmem | hmem
  · exact hpair hmem
  · obtain ⟨r₂, r₁, hr₂, hr₁, hid⟩ := hpair hmem
    exact ⟨r₁, r₂, hr₁, hr₂, hid.symm⟩

theorem isWord_of_entryFor? {reserved : List ReservedWord} {w : Bytes} {r : ReservedWord}
    (h : entryFor? reserved w = some r) : r.isWord = true ∧ r.bytes = w := by
  simpa using (List.mem_filter.1 (List.mem_of_getLast? h)).2

end ReservedWord

namespace Symbol

/-- The symbols, as they stand in a scene. -/
def spelled : List (Bytes × TokenId) :=
  single.map (fun x => ([x.1], x.2)) ++ relations.map fun x => ([x.1, Byte.equals], x.2)

theorem mem_spelled_of_classify? {text : Bytes} {id : TokenId} (h : classify? text = some id) :
    (text, id) ∈ spelled := by
  unfold classify? at h
  split at h
  · obtain ⟨front, back, hsingle, -⟩ := List.lookup_eq_some_iff.1 h
    simp [spelled, hsingle]
  · split at h
    · rename_i hequals
      obtain ⟨front, back, hrelations, -⟩ := List.lookup_eq_some_iff.1 h
      simp [spelled, hrelations, hequals]
    · cases h
  · cases h

theorem isSymbolic_of_classify? {text : Bytes} {id : TokenId} (h : classify? text = some id) :
    id.isSymbolic = true := by
  have hids : ∀ x ∈ spelled, x.2.isSymbolic = true := by decide
  exact hids _ (mem_spelled_of_classify? h)

/-- Every symbol has an identity of its own. -/
theorem eq_of_classify? {text₁ text₂ : Bytes} {id : TokenId} (h₁ : classify? text₁ = some id)
    (h₂ : classify? text₂ = some id) : text₁ = text₂ := by
  have hids : ∀ x ∈ spelled, ∀ y ∈ spelled, x.2 = y.2 → x.1 = y.1 := by decide
  exact hids _ (mem_spelled_of_classify? h₁) _ (mem_spelled_of_classify? h₂) rfl

/-- No spelling of a word with two spellings is a symbol. -/
theorem classify?_of_alias {w₁ w₂ : Bytes} (h : ReservedWord.Alias w₁ w₂) :
    classify? w₁ = none := by
  have hnone : ∀ x ∈ ReservedWord.aliases, classify? x.1 = none ∧ classify? x.2 = none := by
    decide +kernel
  rcases h with hmem | hmem
  · exact (hnone _ hmem).1
  · exact (hnone _ hmem).2

end Symbol

/-! ## The words of a table -/

namespace WordTable.Interns

open ReservedWord

variable {table : WordTable} {words : List Bytes} {w w₁ w₂ : Bytes}
variable {known known₁ known₂ : KnownWord}

/-- A word that is known has an identity that words may have. -/
theorem isWordless (h : table.Interns builtIn words) (hw : table.get? w = some known) :
    known.id.isWordless = false := by
  rcases h.id_cases hw with ⟨r, hr, hid⟩ | ⟨k, -, hid⟩
  · rw [hid]
    exact builtIn_isWordless (mem_of_entryFor? hr) (isWord_of_entryFor? hr).1
  · by_contra hwordless
    have hfixed := TokenId.isFixed_of_isWordless (by simpa using hwordless)
    rw [hid, Nat.add_assoc, TokenId.isFixed_above] at hfixed
    cases hfixed

/-- Exactly the words without an entry have identities that are not fixed. -/
theorem isFixed_iff (h : table.Interns builtIn words) (hw : table.get? w = some known) :
    known.id.isFixed = false ↔ entryFor? builtIn w = none := by
  rcases h.id_cases hw with ⟨r, hr, hid⟩ | ⟨k, hk, hid⟩
  · have hfixed := builtIn_isFixed r (mem_of_entryFor? hr)
    simp [hid, hr, hfixed]
  · simp [hid, entryFor?_of_idxOf? hk, Nat.add_assoc, TokenId.isFixed_above]

/-- Words share an identity if and only if they are one word, in one spelling or in two. -/
theorem id_eq_iff (h : table.Interns builtIn words) (h₁ : table.get? w₁ = some known₁)
    (h₂ : table.get? w₂ = some known₂) :
    known₁.id = known₂.id ↔ w₁ = w₂ ∨ Alias w₁ w₂ := by
  constructor
  · intro hid
    by_cases hne : w₁ = w₂
    · exact Or.inl hne
    · obtain ⟨r₁, r₂, hr₁, hr₂, hid⟩ := h.reserved_of_id_eq builtIn_isFixed hne h₁ h₂ hid
      obtain ⟨-, hw₁⟩ := isWord_of_entryFor? hr₁
      obtain ⟨-, hw₂⟩ := isWord_of_entryFor? hr₂
      have halias := builtIn_alias (mem_of_entryFor? hr₁) (mem_of_entryFor? hr₂) hid
      rw [← hw₁, ← hw₂]
      exact halias.imp_left (congrArg bytes)
  · rintro (rfl | halias)
    · rw [Option.some.inj (h₁.symm.trans h₂)]
    · obtain ⟨r₁, r₂, hr₁, hr₂, hid⟩ := exists_entry_of_alias halias
      rw [h.entry _ _ hr₁] at h₁
      rw [h.entry _ _ hr₂] at h₂
      rw [← Option.some.inj h₁, ← Option.some.inj h₂, hid]

end WordTable.Interns

/-! ## The identity of a lexeme -/

namespace Lexeme

/-- The identity of a lexeme that is no word. No table of words has a say in it. -/
def standingId? (l : Lexeme) : Option TokenId :=
  match l.category with
  | .word => none
  | .number => some .float
  | .string => some .stringLiteral
  | .symbol => Symbol.classify? l.text

/-- Lexemes that a grammar need not tell apart: two numbers, two string literals, or the same text
up to the spelling of a word. -/
def Interchangeable (l₁ l₂ : Lexeme) : Prop :=
  l₁.category = l₂.category ∧
    (l₁.category = .number ∨ l₁.category = .string ∨ l₁.text = l₂.text ∨
      ReservedWord.Alias l₁.text l₂.text)

/-- A token that was read is a word, or has the identity of its lexeme. -/
theorem standingId?_of_interpret {input : Option Handle} {l : Lexeme} {words : WordTable}
    {t : Token} (h : (l.interpret input words).value = .ok t) :
    t.lexeme.category = .word ∨ t.lexeme.standingId? = some t.id := by
  cases hc : l.category with
  | word =>
    simp only [interpret, hc, interpretWord] at h
    split at h <;> cases h
    exact Or.inl hc
  | number =>
    simp only [interpret, hc, interpretNumber] at h
    split at h <;> cases h
    exact Or.inr (by simp [standingId?, Token.ofFloat, Token.plain, Token.withValue, hc])
  | string =>
    simp only [interpret, hc, interpretString] at h
    split at h
    · split at h <;> cases h
      exact Or.inr (by simp [standingId?, Token.ofString, Token.plain, Token.withValue, hc])
    · cases h
  | symbol =>
    simp only [interpret, hc, interpretSymbol] at h
    split at h <;> cases h
    rename_i id hid
    exact Or.inr (by simp [standingId?, Token.ofSymbol, Token.plain, hc, hid])

theorem owner_of_standingId? {l : Lexeme} {id : TokenId} (h : l.standingId? = some id) :
    id.owner = l.category := by
  unfold standingId? at h
  split at h
  · cases h
  · rename_i hc
    cases h
    rw [hc]
    rfl
  · rename_i hc
    cases h
    rw [hc]
    rfl
  · rename_i hc
    rw [hc]
    exact TokenId.owner_of_isSymbolic (Symbol.isSymbolic_of_classify? h)

theorem category_of_standingId? {l : Lexeme} {id : TokenId} (h : l.standingId? = some id) :
    l.category ≠ .word := by
  intro hc
  simp [standingId?, hc] at h

theorem isWordless_of_standingId? {l : Lexeme} {id : TokenId} (h : l.standingId? = some id) :
    id.isWordless = true := by
  unfold standingId? at h
  split at h
  · cases h
  · cases h
    rfl
  · cases h
    rfl
  · exact TokenId.isWordless_of_isSymbolic (Symbol.isSymbolic_of_classify? h)

/-- Of two lexemes of one category that are no words, equal identities mean that they are
interchangeable. For symbols this takes that no two of them share an identity. -/
theorem standingId?_eq_iff {l₁ l₂ : Lexeme} {id₁ id₂ : TokenId} (h₁ : l₁.standingId? = some id₁)
    (h₂ : l₂.standingId? = some id₂) (hcategory : l₁.category = l₂.category) :
    id₁ = id₂ ↔ l₁.Interchangeable l₂ := by
  cases hc : l₁.category with
  | word => simp [standingId?, hc] at h₁
  | number =>
    simp only [standingId?, ← hcategory, hc] at h₁ h₂
    have hid := Option.some.inj (h₁.symm.trans h₂)
    simp [Interchangeable, hid, hcategory, ← hc]
  | string =>
    simp only [standingId?, ← hcategory, hc] at h₁ h₂
    have hid := Option.some.inj (h₁.symm.trans h₂)
    simp [Interchangeable, hid, hcategory, ← hc]
  | symbol =>
    simp only [standingId?, ← hcategory, hc] at h₁ h₂
    constructor
    · rintro rfl
      exact ⟨hcategory, Or.inr (Or.inr (Or.inl (Symbol.eq_of_classify? h₁ h₂)))⟩
    · rintro ⟨-, hnumber | hstring | htext | halias⟩
      · cases hc.symm.trans hnumber
      · cases hc.symm.trans hstring
      · rw [htext] at h₁
        exact Option.some.inj (h₁.symm.trans h₂)
      · cases (Symbol.classify?_of_alias halias).symm.trans h₁

end Lexeme

namespace Token

/-- The token has the identity of its lexeme, which for a word is what the table says of it. -/
def KnownBy (table : WordTable) (t : Token) : Prop :=
  (t.lexeme.category = .word ∧ table.get? t.lexeme.text = some ⟨t.id, t.expression⟩) ∨
    t.lexeme.standingId? = some t.id

namespace KnownBy

open ReservedWord

variable {table : WordTable} {words : List Bytes} {t t₁ t₂ : Token}

/-- Words are told from other tokens by their identities. -/
theorem isWordless (h : t.KnownBy table) (hinterns : table.Interns builtIn words) :
    t.id.isWordless = false ↔ t.lexeme.category = .word := by
  rcases h with ⟨hword, hget⟩ | hid
  · simp [hword, hinterns.isWordless hget]
  · have hwordless := Lexeme.isWordless_of_standingId? hid
    have hcategory := Lexeme.category_of_standingId? hid
    simp [hwordless, hcategory]

/-- The identity of a token tells the category of its lexeme. -/
theorem owner (h : t.KnownBy table) (hinterns : table.Interns builtIn words) :
    t.id.owner = t.lexeme.category := by
  rcases h with ⟨hword, hget⟩ | hid
  · rw [hword, TokenId.owner_of_isWordless (hinterns.isWordless hget)]
  · exact Lexeme.owner_of_standingId? hid

/-- Words without an entry are the only tokens with an identity that is not fixed. -/
theorem isFixed_iff (h : t.KnownBy table) (hinterns : table.Interns builtIn words) :
    t.id.isFixed = false ↔
      t.lexeme.category = .word ∧ entryFor? builtIn t.lexeme.text = none := by
  rcases h with ⟨hword, hget⟩ | hid
  · rw [hinterns.isFixed_iff hget]
    simp [hword]
  · have hfixed := TokenId.isFixed_of_isWordless (Lexeme.isWordless_of_standingId? hid)
    simp [hfixed, Lexeme.category_of_standingId? hid]

/-- For two words the table decides, for two other lexemes the lexemes do. A word shares no identity
with any other lexeme. -/
theorem id_eq_iff (h₁ : t₁.KnownBy table) (h₂ : t₂.KnownBy table)
    (hinterns : table.Interns builtIn words) :
    t₁.id = t₂.id ↔ t₁.lexeme.Interchangeable t₂.lexeme := by
  by_cases hcategory : t₁.lexeme.category = t₂.lexeme.category
  · rcases h₁ with ⟨hword₁, hget₁⟩ | hid₁
    · rcases h₂ with ⟨hword₂, hget₂⟩ | hid₂
      · have hiff := hinterns.id_eq_iff hget₁ hget₂
        simpa [Lexeme.Interchangeable, hword₁, hword₂] using hiff
      · exact absurd (hcategory ▸ hword₁) (Lexeme.category_of_standingId? hid₂)
    · rcases h₂ with ⟨hword₂, hget₂⟩ | hid₂
      · exact absurd (hcategory ▸ hword₂) (Lexeme.category_of_standingId? hid₁)
      · exact Lexeme.standingId?_eq_iff hid₁ hid₂ hcategory
  · have hne : t₁.id ≠ t₂.id := fun hid => hcategory (by
      rw [← h₁.owner hinterns, ← h₂.owner hinterns, hid])
    exact iff_of_false hne fun h => hcategory h.1

end KnownBy

end Token

/-! ## The tokens of a course -/

namespace Tokenizer

/-- A token is a word, or its lexeme alone decides its identity. -/
theorem next_standing {σ : Type} [Scanner σ] {t : Tokenizer σ} {token : Token}
    (h : t.next.value = some (.ok token)) :
    token.lexeme.category = .word ∨ token.lexeme.standingId? = some token.id := by
  cases hl : (Scanner.next t.scanner).value with
  | none =>
    rw [next_of_none hl] at h
    cases h
  | some l =>
    rw [next_of_some hl] at h
    exact Lexeme.standingId?_of_interpret (Option.some.inj h)

theorem drain_standing {σ : Type} [Scanner σ] {t : Tokenizer σ} {token : Token}
    (h : .ok token ∈ t.drain.value) :
    token.lexeme.category = .word ∨ token.lexeme.standingId? = some token.id := by
  fun_induction drain t with
  | case1 t step hnone => cases h
  | case2 t step item hsome more ih =>
    rcases List.mem_cons.1 h with rfl | hmore
    · exact next_standing hsome
    · exact ih hmore

theorem nextDirective_standing {t : Tokenizer Reader} {token : Token}
    (h : t.nextDirective.value = some token) : token.lexeme.standingId? = some token.id := by
  obtain ⟨l, hl, rfl⟩ := Option.map_eq_some_iff.1 h
  obtain ⟨hc, htext⟩ : l.category = .symbol ∧ l.text = [Byte.hash] := by
    simpa [Lexeme.isHash] using Reader.nextDirective_isHash hl
  simp only [Lexeme.standingId?, Token.ofDirective, Token.plain, hc, htext]
  rfl

end Tokenizer

/-- The tokens that a reply returns. -/
def Reply.tokens : Reply → List Token
  | .item read => (read.bind Except.toOption).toList
  | .items read => read.filterMap Except.toOption
  | .token read => read.toList
  | _ => []

theorem Reply.mem_tokens {reply : Reply} {t : Token} (h : t ∈ reply.tokens) :
    .ok t ∈ reply.itemsRead ∨ reply = .token (some t) := by
  have hok {item : Item} (hitem : item.toOption = some t) : item = .ok t := by
    cases item <;> cases hitem
    rfl
  cases reply with
  | item read =>
    cases read with
    | none => cases h
    | some item =>
      refine Or.inl (List.mem_singleton.2 (hok ?_).symm)
      simpa [tokens] using h
  | items read =>
    obtain ⟨item, hitem, hread⟩ := List.mem_filterMap.1 h
    exact Or.inl (hok hread ▸ hitem)
  | token read =>
    obtain rfl := Option.mem_toList.1 h
    exact Or.inr rfl
  | _ => cases h

namespace Session

/-- The tokens that are returned on a list of requests, in order. -/
def tokens {σ : Type} [Scanner σ] (s : Session σ) (requests : List Request) : List Token :=
  (s.replies requests).flatMap Reply.tokens

/-- Only reading tokens returns words; a directive is a symbol. -/
theorem respond_standing (s : Session Reader) (r : Request) {t : Token}
    (ht : t ∈ (s.respond r).value.tokens) :
    (t.lexeme.category = .word ∧ .ok t ∈ (s.respond r).value.itemsRead) ∨
      t.lexeme.standingId? = some t.id := by
  cases r with
  | next =>
    have hitem := (Reply.mem_tokens ht).resolve_right nofun
    have hnext := Tokenizer.next_standing (Option.mem_toList.1 hitem)
    exact hnext.imp_left fun hword => ⟨hword, hitem⟩
  | drain =>
    have hitem := (Reply.mem_tokens ht).resolve_right nofun
    exact (Tokenizer.drain_standing hitem).imp_left fun hword => ⟨hword, hitem⟩
  | directive => exact Or.inr (Tokenizer.nextDirective_standing (Option.mem_toList.1 ht))
  | goHot slot =>
    simp only [respond] at ht
    split at ht
    · cases ht
    · rename_i m hm
      simp only [ofTokenizer] at ht
      cases h : (s.tokenizer.goHot m).value <;> cases h ▸ ht
  | goCold slot =>
    simp only [respond] at ht
    split at ht
    · cases ht
    · rename_i m hm
      simp only [ofTokenizer] at ht
      cases h : (s.tokenizer.goCold m).value <;> cases h ▸ ht
  | configure text =>
    simp only [respond] at ht
    split at ht <;> cases ht
  | _ => cases ht

/-- After a course, every token it returned has the identity that its lexeme has in the end. -/
theorem knownBy_after {requests : List Request} {s : Session Reader}
    (hforget : Request.forget ∉ requests) {t : Token} (ht : t ∈ s.tokens requests) :
    t.KnownBy (s.after requests).tokenizer.words := by
  have hcourse : (t.lexeme.category = .word ∧
      .ok t ∈ (s.replies requests).flatMap Reply.itemsRead) ∨
        t.lexeme.standingId? = some t.id := by
    clear hforget
    induction requests generalizing s with
    | nil => cases ht
    | cons r rs ih =>
      have hsplit : s.tokens (r :: rs) =
          (s.respond r).value.tokens ++ (s.respond r).state.tokens rs := rfl
      rcases List.mem_append.1 (hsplit ▸ ht) with hfirst | hrest
      · exact (s.respond_standing r hfirst).imp_left fun h => ⟨h.1, List.mem_append_left _ h.2⟩
      · exact (ih hrest).imp_left fun h => ⟨h.1, List.mem_append_right _ h.2⟩
  exact hcourse.imp_left fun ⟨hword, hread⟩ => ⟨hword, after_explains s hforget t hread hword⟩

/-- On any course the table numbers some words, even if numbers ran out. -/
theorem after_interns {σ : Type} [Scanner σ] (scanner : σ) (reserved : List ReservedWord)
    {requests : List Request} (hforget : Request.forget ∉ requests) : ∃ words,
      ((start scanner reserved).after requests).tokenizer.words.Interns reserved words := by
  obtain ⟨words, hwords⟩ := WordTable.exists_numbering reserved
    ((start scanner reserved).wordsRead requests)
  refine ⟨words, ?_⟩
  rw [after_words _ hforget]
  show ((WordTable.ofVocabulary reserved).resolveAll _).Interns reserved words
  rw [hwords]
  exact WordTable.interns_numbering _ _

/-- With the built-in vocabulary, on every course, tokens have the same identity if and only if a
grammar need not tell their lexemes apart. No word has the identity of a literal, a symbol or
a sentinel, and exactly the words without an entry have identities that are not fixed. -/
theorem tokens_id_eq_iff (scanner : Reader) {requests : List Request}
    (hforget : Request.forget ∉ requests) :
    let tokens := (start scanner ReservedWord.builtIn).tokens requests
    (∀ t₁ ∈ tokens, ∀ t₂ ∈ tokens,
      (t₁.id = t₂.id ↔ t₁.lexeme.Interchangeable t₂.lexeme)) ∧
    (∀ t ∈ tokens, t.id.isWordless = false ↔ t.lexeme.category = .word) ∧
    ∀ t ∈ tokens, t.id.isFixed = false ↔
      t.lexeme.category = .word ∧
        ReservedWord.entryFor? ReservedWord.builtIn t.lexeme.text = none := by
  intro tokens
  obtain ⟨words, hinterns⟩ := after_interns scanner ReservedWord.builtIn hforget
  refine ⟨fun t₁ ht₁ t₂ ht₂ => ?_, fun t ht => ?_, fun t ht => ?_⟩
  · exact (knownBy_after hforget ht₁).id_eq_iff (knownBy_after hforget ht₂) hinterns
  · exact (knownBy_after hforget ht).isWordless hinterns
  · exact (knownBy_after hforget ht).isFixed_iff hinterns

/-- A reader at the start of `grey a #1 "s" gray a`. -/
def greyScene : Reader :=
  .ofHandle ⟨0, ⟨"main", [103, 114, 101, 121, 32, 97, 32, 35, 49, 32, 34, 115, 34, 32, 103, 114,
    97, 121, 32, 97], by decide⟩⟩

/-- Reads `grey` and goes on to the directive, so that `a` is new behind it. Then it goes back and
reads on to the directive a second time. -/
def greyCourse : List Request :=
  [.saveHot "m", .next, .directive, .drain, .goHot "m", .setNested true, .directive]

/-- The two spellings share an identity, and the word that is new has one of its own that is not
fixed. -/
theorem tokens_id_eq_iff_greyCourse :
    let tokens := (start greyScene ReservedWord.builtIn).tokens greyCourse
    Request.forget ∉ greyCourse ∧ ∃ grey gray a : Token,
      (grey ∈ tokens ∧ gray ∈ tokens ∧ a ∈ tokens) ∧
      (grey.lexeme.text ≠ gray.lexeme.text ∧ grey.id = gray.id) ∧
      (grey.id ≠ a.id ∧ a.id.isWordless = false ∧ a.id.isFixed = false) ∧
      tokens.length = 7 := by
  intro tokens
  have hforget : Request.forget ∉ greyCourse := by decide
  obtain ⟨hids, hwords, hfixed⟩ := tokens_id_eq_iff greyScene hforget
  have hgrey : ⟨⟨.word, [103, 114, 101, 121], .start⟩, .gray, .colourKey, none⟩ ∈ tokens := by
    decide +kernel
  have hgray : ⟨⟨.word, [103, 114, 97, 121], ⟨14, 1, 15⟩⟩, .gray, .colourKey, none⟩ ∈ tokens := by
    decide +kernel
  have ha : ⟨⟨.word, [97], ⟨19, 1, 20⟩⟩, ⟨125⟩, .identifier, none⟩ ∈ tokens := by decide +kernel
  refine ⟨hforget, _, _, _, ⟨hgrey, hgray, ha⟩, ⟨by decide, ?_⟩, ⟨?_, ?_, ?_⟩, by decide +kernel⟩
  · exact (hids _ hgrey _ hgray).2 ⟨rfl, by decide +kernel⟩
  · exact fun hid => absurd ((hids _ hgrey _ ha).1 hid).2 (by decide +kernel)
  · exact (hwords _ ha).2 rfl
  · exact (hfixed _ ha).2 ⟨rfl, by decide +kernel⟩

end Session

end SceneTokens
