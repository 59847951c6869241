import Mathlib.Data.List.Induction
import SceneTokens.Proofs.Replay

/-!
# Which word gets which number

What a table of words should hold can be said without the table, from a vocabulary and the words
that were looked up (`WordTable.Interns`). A reserved word has what the last entry with its name
says of it. The other words are numbered in the order in which they first appear
(`WordTable.newWords`), from the seed of the counter on. The size of the table and the last number
it gave out follow.

Looking up words one by one leads there as long as there are numbers to give:
`WordTable.numbering` is the table with exactly these entries, and
`WordTable.resolveAll_ofVocabulary` says that it is the table of the vocabulary after the words.
-/

namespace SceneTokens

/-! ## First appearances -/

/-- The entry that counts for a word: of the entries that are words and have its name, the last. -/
def ReservedWord.entryFor? (reserved : List ReservedWord) (w : Bytes) : Option ReservedWord :=
  (reserved.filter fun r => r.isWord && r.bytes == w).getLast?

namespace WordTable

open ReservedWord

/-- The words without an entry, each once, in the order in which they first appear. -/
def newWords (reserved : List ReservedWord) (words : List Bytes) : List Bytes :=
  (words.filter fun w => (entryFor? reserved w).isNone).eraseDups

theorem eraseDups_concat (ws : List Bytes) (w : Bytes) :
    (ws ++ [w]).eraseDups = if w ∈ ws then ws.eraseDups else ws.eraseDups ++ [w] := by
  rw [List.eraseDups_append]
  by_cases hw : w ∈ ws
  · simp [hw, List.removeAll]
  · simp [hw, List.removeAll, List.eraseDups_cons]

theorem mem_newWords {reserved : List ReservedWord} {words : List Bytes} {w : Bytes} :
    w ∈ newWords reserved words ↔ w ∈ words ∧ entryFor? reserved w = none := by
  simp [newWords]

/-- The last word read is new if it has no entry and was not read before. -/
theorem newWords_concat (reserved : List ReservedWord) (words : List Bytes) (w : Bytes) :
    newWords reserved (words ++ [w]) =
      if entryFor? reserved w = none ∧ w ∉ newWords reserved words
      then newWords reserved words ++ [w] else newWords reserved words := by
  unfold newWords
  rw [List.filter_append]
  by_cases hw : entryFor? reserved w = none
  · have hkept : [w].filter (fun w => (entryFor? reserved w).isNone) = [w] := by simp [hw]
    rw [hkept, eraseDups_concat]
    by_cases hmem : w ∈ words
    · simp [hw, hmem]
    · simp [hw, hmem]
  · have hleft : [w].filter (fun w => (entryFor? reserved w).isNone) = [] := by
      simpa [Option.isNone_iff_eq_none] using hw
    rw [hleft, List.append_nil, if_neg fun h => hw h.1]

/-! ## The table of a vocabulary -/

theorem lookup_cons_eq (e : Bytes × KnownWord) (entries : List (Bytes × KnownWord)) (v : Bytes) :
    (e :: entries).lookup v = if v = e.1 then some e.2 else entries.lookup v := by
  rw [List.lookup_cons]
  by_cases hv : v = e.1
  · simp [hv]
  · have hne : (v == e.1) = false := by simpa using hv
    rw [hne, if_neg hv]

/-- Putting a word in its place changes what is known of this word alone. -/
theorem lookup_put (entries : List (Bytes × KnownWord)) (w : Bytes) (k : KnownWord) (v : Bytes) :
    (put entries w k).lookup v = if v = w then some k else entries.lookup v := by
  induction entries with
  | nil => exact lookup_cons_eq (w, k) [] v
  | cons e rest ih =>
    rw [put]
    by_cases he : e.1 = w
    · rw [if_pos he, lookup_cons_eq, lookup_cons_eq, he]
      by_cases hv : v = w
      · simp [hv]
      · simp [hv]
    · rw [if_neg he, lookup_cons_eq, lookup_cons_eq, ih]
      by_cases hv : v = w
      · simp [hv, Ne.symm he]
      · simp [hv]

/-- A word that is put twice keeps the place it had. -/
theorem map_fst_put (entries : List (Bytes × KnownWord)) (w : Bytes) (k : KnownWord) :
    (put entries w k).map Prod.fst =
      if w ∈ entries.map Prod.fst then entries.map Prod.fst else entries.map Prod.fst ++ [w] := by
  induction entries with
  | nil => simp [put]
  | cons e rest ih =>
    rw [put]
    by_cases he : e.1 = w
    · simp [he]
    · rw [if_neg he, List.map_cons, ih]
      by_cases hw : w ∈ rest.map Prod.fst
      · rw [if_pos hw, if_pos (by simp [hw])]
        rfl
      · have hcons : w ∉ (e :: rest).map Prod.fst := by
          rw [List.map_cons, List.mem_cons, not_or]
          exact ⟨Ne.symm he, hw⟩
        rw [if_neg hw, if_neg hcons]
        rfl

/-- The table of a vocabulary is built entry by entry, and the last is put last. -/
theorem ofVocabulary_concat (reserved : List ReservedWord) (r : ReservedWord) :
    (ofVocabulary (reserved ++ [r])).entries =
      if r.isWord then put (ofVocabulary reserved).entries r.bytes (ofReserved r)
      else (ofVocabulary reserved).entries := by
  unfold ofVocabulary
  rw [List.filter_append]
  by_cases hr : r.isWord
  · simp [hr]
  · simp [hr]

/-- The last entry counts before all others with its name. -/
theorem entryFor?_concat (reserved : List ReservedWord) (r : ReservedWord) (w : Bytes) :
    entryFor? (reserved ++ [r]) w =
      if r.isWord ∧ w = r.bytes then some r else entryFor? reserved w := by
  unfold entryFor?
  rw [List.filter_append, List.getLast?_append]
  by_cases hr : r.isWord ∧ w = r.bytes
  · simp [hr.1, hr.2]
  · have hnone : [r].filter (fun r => r.isWord && r.bytes == w) = [] := by
      refine List.filter_eq_nil_iff.2 fun x hx => ?_
      obtain rfl := List.mem_singleton.1 hx
      simpa using fun hword hname => hr ⟨hword, hname.symm⟩
    rw [hnone, if_neg hr]
    rfl

/-- Of two entries with one name the later counts. -/
theorem get?_ofVocabulary (reserved : List ReservedWord) (w : Bytes) :
    (ofVocabulary reserved).get? w = (entryFor? reserved w).map ofReserved := by
  unfold get?
  induction reserved using List.reverseRecOn with
  | nil => rfl
  | append_singleton reserved r ih =>
    rw [ofVocabulary_concat, entryFor?_concat]
    by_cases hr : r.isWord
    · rw [if_pos hr, lookup_put, ih]
      by_cases hw : w = r.bytes
      · simp [hr, hw]
      · simp [hw]
    · rw [if_neg hr, if_neg fun h => hr h.1, ih]

/-- The table of a vocabulary holds each word once, in the order of first entries. -/
theorem map_fst_ofVocabulary (reserved : List ReservedWord) :
    (ofVocabulary reserved).entries.map Prod.fst =
      ((reserved.filter ReservedWord.isWord).map ReservedWord.bytes).eraseDups := by
  induction reserved using List.reverseRecOn with
  | nil => rfl
  | append_singleton reserved r ih =>
    rw [ofVocabulary_concat, List.filter_append, List.map_append]
    by_cases hr : r.isWord
    · have hlast : [r].filter ReservedWord.isWord = [r] := by simp [hr]
      rw [if_pos hr, map_fst_put, ih, hlast, List.map_singleton, eraseDups_concat]
      simp only [List.mem_eraseDups]
    · simpa [hr] using ih

/-! ## Looking up words in turn -/

/-- Words with numbers from `n` on. -/
def numbered (n : Nat) (ws : List Bytes) : List (Bytes × KnownWord) :=
  (ws.zipIdx n).map fun x => (x.1, minted x.2)

/-- A word has the number of its place among the new ones. -/
theorem lookup_numbered (n : Nat) (ws : List Bytes) (w : Bytes) :
    (numbered n ws).lookup w = (ws.idxOf? w).map fun k => minted (n + k) := by
  induction ws generalizing n with
  | nil => rfl
  | cons v ws ih =>
    have hcons : numbered n (v :: ws) = (v, minted n) :: numbered (n + 1) ws := rfl
    rw [hcons, lookup_cons_eq, List.idxOf?_cons]
    by_cases hv : v = w
    · simp [hv]
    · have hshift : (fun k => minted (n + 1 + k)) = (fun k => minted (n + k)) ∘ (· + 1) := by
        funext k
        exact congrArg minted (by dsimp only; omega)
      rw [if_neg (Ne.symm hv), if_neg (by simpa using hv), ih, hshift, Option.map_map]

/-- The table of a vocabulary, with numbers for the new words among `words`. -/
def numbering (reserved : List ReservedWord) (words : List Bytes) : WordTable :=
  ⟨(ofVocabulary reserved).entries ++ numbered (seed + 1) (newWords reserved words),
    seed + (newWords reserved words).length⟩

/-- A word is known by its entry, and if it has none by its number. -/
theorem get?_numbering (reserved : List ReservedWord) (words : List Bytes) (w : Bytes) :
    (numbering reserved words).get? w = ((entryFor? reserved w).map ofReserved).or
      (((newWords reserved words).idxOf? w).map fun k => minted (seed + 1 + k)) := by
  have hreserved : (ofVocabulary reserved).entries.lookup w = _ := get?_ofVocabulary reserved w
  rw [get?, numbering, List.lookup_append, hreserved, lookup_numbered]

/-- Unknown are the words that have neither an entry nor a number. -/
theorem get?_numbering_eq_none_iff {reserved : List ReservedWord} {words : List Bytes}
    {w : Bytes} : (numbering reserved words).get? w = none ↔
      entryFor? reserved w = none ∧ w ∉ newWords reserved words := by
  rw [get?_numbering, Option.or_eq_none_iff, Option.map_eq_none_iff, Option.map_eq_none_iff,
    List.idxOf?_eq_none_iff]

/-- The step for a word that is unknown: it gets the next number, at the end of the table. -/
theorem numbering_concat {reserved : List ReservedWord} {words : List Bytes} {w : Bytes}
    (h : (numbering reserved words).get? w = none) :
    numbering reserved (words ++ [w]) =
      ⟨(numbering reserved words).entries ++
          [(w, minted ((numbering reserved words).counter + 1))],
        (numbering reserved words).counter + 1⟩ := by
  have hnumbered : numbered (seed + 1) (newWords reserved words ++ [w]) =
      numbered (seed + 1) (newWords reserved words) ++
        [(w, minted (seed + 1 + (newWords reserved words).length))] := by
    simp [numbered, List.zipIdx_append]
  have hnumber : seed + 1 + (newWords reserved words).length =
      seed + (newWords reserved words).length + 1 := by omega
  rw [numbering, newWords_concat, if_pos (get?_numbering_eq_none_iff.1 h), hnumbered, hnumber]
  simp [numbering, Nat.add_assoc]

/-- The step for a word that is known: the table stays as it is. -/
theorem numbering_concat_of_get? {reserved : List ReservedWord} {words : List Bytes} {w : Bytes}
    {k : KnownWord} (h : (numbering reserved words).get? w = some k) :
    numbering reserved (words ++ [w]) = numbering reserved words := by
  have hknown : ¬(entryFor? reserved w = none ∧ w ∉ newWords reserved words) := by
    rw [← get?_numbering_eq_none_iff, h]
    simp
  rw [numbering, newWords_concat, if_neg hknown, numbering]

/-- Looking up words numbers the new ones in turn, as long as there are numbers to give. -/
theorem resolveAll_ofVocabulary (reserved : List ReservedWord) {words : List Bytes}
    (h : ((ofVocabulary reserved).resolveAll words).counter + 1 < numberLimit) :
    (ofVocabulary reserved).resolveAll words = numbering reserved words := by
  induction words using List.reverseRecOn with
  | nil => simp [resolveAll, numbering, newWords, numbered, ofVocabulary]
  | append_singleton words w ih =>
    rw [resolveAll_append] at h ⊢
    -- a full table stays full, so there was a number to give before the last word too
    have hroom : ((ofVocabulary reserved).resolveAll words).counter + 1 < numberLimit := by
      by_contra hfull
      rw [resolveAll_of_full hfull] at h
      exact hfull h
    have hwords := ih hroom
    rw [hwords] at hroom ⊢
    show ((numbering reserved words).resolve w).state = _
    rcases (numbering reserved words).resolve_cases w with ⟨k, hk, hw⟩ | ⟨hk, -, hw⟩ | ⟨-, hfull, -⟩
    · rw [hw, numbering_concat_of_get? hk]
    · rw [hw, numbering_concat hk]
    · exact absurd hroom hfull

/-- Also when numbers run out, the table numbers some words. -/
theorem exists_numbering (reserved : List ReservedWord) (words : List Bytes) :
    ∃ numbered, (ofVocabulary reserved).resolveAll words = numbering reserved numbered := by
  induction words using List.reverseRecOn with
  | nil => exact ⟨[], by simp [resolveAll, numbering, newWords, numbered, ofVocabulary]⟩
  | append_singleton words w ih =>
    obtain ⟨ws, hws⟩ := ih
    have hlast : (ofVocabulary reserved).resolveAll (words ++ [w]) =
        ((numbering reserved ws).resolve w).state := by
      rw [resolveAll_append, hws]
      rfl
    rw [hlast]
    rcases (numbering reserved ws).resolve_cases w with ⟨k, -, hw⟩ | ⟨hk, -, hw⟩ | ⟨-, -, hw⟩
    · exact ⟨ws, by rw [hw]⟩
    · exact ⟨ws ++ [w], by rw [hw, numbering_concat hk]⟩
    · exact ⟨ws, by rw [hw]⟩

/-! ## Tables as they should be -/

/-- The table as the vocabulary and the words that were read determine it. -/
structure Interns (reserved : List ReservedWord) (words : List Bytes) (t : WordTable) : Prop where
  entry : ∀ w r, entryFor? reserved w = some r → t.get? w = some ⟨r.id, r.id.expressionClass⟩
  number : ∀ w k, (newWords reserved words).idxOf? w = some k →
    t.get? w = some ⟨⟨TokenId.fixedCount + 2 + k⟩, .identifier⟩
  unknown : ∀ w, entryFor? reserved w = none → w ∉ words → t.get? w = none
  size : t.size = ((reserved.filter ReservedWord.isWord).map ReservedWord.bytes).eraseDups.length +
    (newWords reserved words).length
  lastMinted : t.lastMinted? = if newWords reserved words = [] then none
    else some (TokenId.fixedCount + 1 + (newWords reserved words).length)

theorem entryFor?_of_idxOf? {reserved : List ReservedWord} {words : List Bytes} {w : Bytes}
    {k : Nat} (h : (newWords reserved words).idxOf? w = some k) : entryFor? reserved w = none := by
  obtain ⟨hk, rfl, -⟩ := List.idxOf?_eq_some_iff.1 h
  exact (mem_newWords.1 (List.getElem_mem hk)).2

/-- The numbered table is as it should be: each part is read off the lookup of a word. -/
theorem interns_numbering (reserved : List ReservedWord) (words : List Bytes) :
    (numbering reserved words).Interns reserved words where
  entry w r hr := by
    rw [get?_numbering, hr]
    rfl
  number w k hk := by
    rw [get?_numbering, entryFor?_of_idxOf? hk, hk]
    rfl
  unknown w hr hw := get?_numbering_eq_none_iff.2 ⟨hr, fun hmem => hw (mem_newWords.1 hmem).1⟩
  size := by
    rw [← map_fst_ofVocabulary]
    simp [WordTable.size, numbering, numbered]
  lastMinted := by
    cases hnew : newWords reserved words with
    | nil => simp [lastMinted?, numbering, hnew]
    | cons v vs =>
      have hne : seed + (v :: vs).length ≠ seed := by simp
      simp only [lastMinted?, numbering, hnew]
      rw [if_neg hne, if_neg (List.cons_ne_nil v vs)]
      rfl

theorem mem_of_entryFor? {reserved : List ReservedWord} {w : Bytes} {r : ReservedWord}
    (h : entryFor? reserved w = some r) : r ∈ reserved :=
  (List.mem_filter.1 (List.mem_of_getLast? h)).1

/-- A word that is known has an entry or a number. -/
theorem Interns.id_cases {reserved : List ReservedWord} {words : List Bytes} {t : WordTable}
    (h : t.Interns reserved words) {w : Bytes} {known : KnownWord} (hw : t.get? w = some known) :
    (∃ r, entryFor? reserved w = some r ∧ known.id = r.id) ∨
      ∃ k, (newWords reserved words).idxOf? w = some k ∧
        known.id = ⟨TokenId.fixedCount + 2 + k⟩ := by
  cases hr : entryFor? reserved w with
  | some r =>
    rw [h.entry w r hr] at hw
    exact Or.inl ⟨r, rfl, by rw [← Option.some.inj hw]⟩
  | none =>
    cases hk : (newWords reserved words).idxOf? w with
    | some k =>
      rw [h.number w k hk] at hw
      exact Or.inr ⟨k, rfl, by rw [← Option.some.inj hw]⟩
    | none =>
      have hnot : w ∉ words := fun hmem =>
        List.idxOf?_eq_none_iff.1 hk (mem_newWords.2 ⟨hmem, hr⟩)
      rw [h.unknown w hr hnot] at hw
      cases hw

/-- With fixed identities for the reserved words, only reserved words share an identity. -/
theorem Interns.reserved_of_id_eq {reserved : List ReservedWord} {words : List Bytes}
    {t : WordTable} (h : t.Interns reserved words) (hfixed : ∀ r ∈ reserved, r.id.isFixed = true)
    {w₁ w₂ : Bytes} {known₁ known₂ : KnownWord} (hne : w₁ ≠ w₂) (h₁ : t.get? w₁ = some known₁)
    (h₂ : t.get? w₂ = some known₂) (hid : known₁.id = known₂.id) :
    ∃ r₁ r₂, entryFor? reserved w₁ = some r₁ ∧ entryFor? reserved w₂ = some r₂ ∧
      r₁.id = r₂.id := by
  have hsmall {w : Bytes} {r : ReservedWord} (hr : entryFor? reserved w = some r) :
      r.id.raw < TokenId.fixedCount := by
    simpa [TokenId.isFixed] using hfixed r (mem_of_entryFor? hr)
  rcases h.id_cases h₁ with ⟨r₁, hr₁, hid₁⟩ | ⟨i, hi, hid₁⟩
  · rcases h.id_cases h₂ with ⟨r₂, hr₂, hid₂⟩ | ⟨j, hj, hid₂⟩
    · exact ⟨r₁, r₂, hr₁, hr₂, by rw [← hid₁, ← hid₂, hid]⟩
    · have hlt := hsmall hr₁
      rw [← hid₁, hid, hid₂] at hlt
      dsimp only at hlt
      omega
  · rcases h.id_cases h₂ with ⟨r₂, hr₂, hid₂⟩ | ⟨j, hj, hid₂⟩
    · have hlt := hsmall hr₂
      rw [← hid₂, ← hid, hid₁] at hlt
      dsimp only at hlt
      omega
    · rw [hid₁, hid₂] at hid
      obtain rfl : i = j := by simpa using hid
      obtain ⟨_, hw₁, -⟩ := List.idxOf?_eq_some_iff.1 hi
      obtain ⟨_, hw₂, -⟩ := List.idxOf?_eq_some_iff.1 hj
      exact absurd (hw₁.symm.trans hw₂) hne

end WordTable

end SceneTokens
