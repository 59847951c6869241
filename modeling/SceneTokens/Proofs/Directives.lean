import SceneTokens.Proofs.Progress
import SceneTokens.Proofs.Tiling

/-!
# Looking for directives

A directive is looked for by reading on to a sign that introduces one, past all other lexemes.
`Session.upcoming` counts the lexemes that lie ahead, so what is found can be said without the
search: it is the first of them that is the sign, and the reader is left as reading up to there
leaves it (`Session.nextDirective_of_first`). If there is none, the reader is led to the end of its
input.

A directive gets its token without being given a meaning. It is the token that the sign means
anyway, whatever the table of words (`Lexeme.interpret_of_introduces`). The sign is a tile of the
input, so its byte stands in no other, such as a literal or a comment
(`Session.signAt_of_upcoming`).
-/

namespace SceneTokens

open Grammar

/-! ## The sign and its token -/

namespace Lexeme

/-- The lexeme is the sign that introduces a directive. -/
def Introduces (l : Lexeme) : Prop :=
  l.category = .symbol ∧ l.text = [Byte.hash]

theorem isHash_iff {l : Lexeme} : l.isHash = true ↔ l.Introduces := by
  simp [isHash, Introduces]

/-- A sign means the token of a directive, and its meaning changes no table. -/
theorem interpret_of_introduces {l : Lexeme} (h : l.Introduces) (input : Option Handle)
    (words : WordTable) : l.interpret input words = understood (.ofDirective l) words [] := by
  obtain ⟨hcategory, htext⟩ := h
  have hid : Symbol.classify? [Byte.hash] = some .hash := by decide
  have hclass : TokenId.hash.expressionClass = .hash := by decide
  simp only [interpret, hcategory, interpretSymbol, htext, hid, Token.ofSymbol, hclass,
    Token.ofDirective]

end Lexeme

/-- Any scanner may have handed out the sign: its token is that of a directive. -/
theorem Tokenizer.next_of_introduces {σ : Type} [Scanner σ] {t : Tokenizer σ} {l : Lexeme}
    (hl : (Scanner.next t.scanner).value = some l) (h : l.Introduces) :
    t.next.value = some (.ok (.ofDirective l)) := by
  rw [next_of_some hl]
  dsimp only
  rw [Lexeme.interpret_of_introduces h]
  rfl

/-- The sign as a piece of a scene. -/
def Piece.sign : Piece :=
  ⟨.lexeme .symbol, [Byte.hash]⟩

theorem Piece.eq_sign {p : Piece} {l : Lexeme} {encoding : Encoding} {position : Position}
    (h : p.lexeme? encoding position = some l) (hl : l.Introduces) :
    p = sign ∧ position = l.position := by
  obtain ⟨kind, raw⟩ := p
  obtain ⟨category, text, position'⟩ := l
  obtain ⟨rfl, rfl⟩ : category = .symbol ∧ text = [Byte.hash] := hl
  cases kind <;> simp only [lexeme?, Option.some.injEq, Lexeme.mk.injEq, reduceCtorEq] at h
  obtain ⟨rfl, htext, rfl⟩ := h
  simp_all [Piece.text, sign]

namespace Reader

/-! ## The search -/

/-- In front of the sign, going on to a directive is reading one lexeme. -/
theorem nextDirective_of_introduces {r : Reader} {l : Lexeme} (h : r.next.value = some l)
    (hl : l.Introduces) : r.nextDirective = r.next := by
  rw [nextDirective]
  split
  · rfl
  · simp_all [Lexeme.isHash_iff.2 hl]

/-- In front of another lexeme it is the same as behind that lexeme. -/
theorem nextDirective_of_other {r : Reader} {l : Lexeme} (h : r.next.value = some l)
    (hl : ¬l.Introduces) : r.nextDirective.value = r.next.state.nextDirective.value ∧
      r.nextDirective.state = r.next.state.nextDirective.state := by
  have hother : l.isHash = false := by rwa [← Bool.not_eq_true, Lexeme.isHash_iff]
  rw [nextDirective]
  split
  · simp_all
  · simp_all

/-- Behind the last lexeme there is none. -/
theorem next_of_ended {r : Reader} (h : r.next.value = none) : r.next.state.next.value = none := by
  cases hc : r.cursor with
  | none =>
    have hstate : r.next.state = r := by simp [next, hc]
    rw [hstate, h]
  | some c =>
    obtain ⟨-, hstate⟩ := next_remainder hc h
    have hrest : (Cursor.mk c.handle (c.position.advance c.rest)).rest = [] :=
      Cursor.rest_advance (List.append_nil _).symm
    rw [hstate]
    simp [next, hrest, scan]

/-- A search in vain leads to the end of the input. -/
theorem Standing.nextDirective_ends {r : Reader} (h : r.Standing)
    (hnone : r.nextDirective.value = none) : ∀ c, r.cursor = some c →
      ∃ stop, r.nextDirective.state.cursor = some ⟨c.handle, stop⟩ ∧
        stop.offset = c.handle.content.length := by
  fun_induction Reader.nextDirective r with
  | case1 r step hend => exact fun c hc => next_ends hc (h c hc).1 hend
  | case2 r step lexeme hsome hash => cases hsome.symm.trans hnone
  | case3 r step lexeme hsome hash more ih =>
    intro c hc
    obtain ⟨stop, _, _, _, -, hstate⟩ := next_found hc hsome
    exact ih h.next hnone ⟨c.handle, stop⟩ (congrArg cursor hstate)

/-- Among the pieces of what a reader has left, the sign stands at `position`, and its byte is in no
other piece. -/
def SignAt (r : Reader) (position : Position) : Prop :=
  ∃ c, r.cursor = some c ∧ ∀ tiles, Tiled r.settings.nested c.position c.rest tiles →
    ⟨position, Piece.sign⟩ ∈ tiles ∧
      ∀ x ∈ tiles, x.Covers position.offset → x = ⟨position, Piece.sign⟩

end Reader

namespace Session

/-! ## Lexemes that lie ahead -/

/-- The lexeme behind the next `k` ones. There is none behind the last. -/
def upcoming (s : Session Reader) (k : Nat) : Option Lexeme :=
  (s.after (List.replicate k .lexeme)).scanner.next.value

theorem upcoming_of_ended {s : Session Reader} (h : s.scanner.next.value = none) (k : Nat) :
    s.upcoming k = none := by
  induction k generalizing s with
  | zero => exact h
  | succ k ih => exact ih (Reader.next_of_ended h)

/-- The first sign ahead is found, and the reader is left right behind it. -/
theorem nextDirective_of_first {s : Session Reader} {k : Nat} {l : Lexeme}
    (hl : s.upcoming k = some l) (hsign : l.Introduces)
    (hbefore : ∀ j < k, ∀ m, s.upcoming j = some m → ¬m.Introduces) :
    s.scanner.nextDirective.value = some l ∧
      s.scanner.nextDirective.state = (s.after (List.replicate (k + 1) .lexeme)).scanner := by
  induction k generalizing s with
  | zero =>
    have hnext : s.scanner.next.value = some l := hl
    rw [Reader.nextDirective_of_introduces hnext hsign]
    exact ⟨hnext, rfl⟩
  | succ k ih =>
    cases hnext : s.scanner.next.value with
    | none => cases (upcoming_of_ended hnext (k + 1)).symm.trans hl
    | some m =>
      have hm : ¬m.Introduces := hbefore 0 (Nat.succ_pos k) m hnext
      obtain ⟨hvalue, hstate⟩ := Reader.nextDirective_of_other hnext hm
      rw [hvalue, hstate]
      exact ih (s := (s.respond .lexeme).state) hl fun j hj =>
        hbefore (j + 1) (Nat.succ_lt_succ hj)

/-- Where no sign lies ahead, none is found. -/
theorem nextDirective_of_absent {s : Session Reader}
    (h : ∀ k l, s.upcoming k = some l → ¬l.Introduces) :
    s.scanner.nextDirective.value = none := by
  obtain ⟨k, -, hvalue, -⟩ := s.nextDirective_after_replicate
  cases hl : s.scanner.nextDirective.value with
  | none => rfl
  | some l =>
    have hsign := Lexeme.isHash_iff.1 (Reader.nextDirective_isHash hl)
    exact absurd hsign (h k l (hvalue.symm.trans hl))

/-! ## Signs among the tiles -/

/-- Each lexeme ahead is a tile of the bytes that are left. -/
theorem exists_tile_of_upcoming {s : Session Reader} {k : Nat} {l : Lexeme}
    (h : s.upcoming k = some l) : ∃ x ∈ s.scanner.tiles,
      x.piece.lexeme? s.scanner.settings.encoding x.position = some l := by
  induction k generalizing s with
  | zero =>
    have hmem : l ∈ s.scanner.next.value.toList := Option.mem_toList.2 h
    rw [← Reader.cuts_lexemes] at hmem
    obtain ⟨x, hx, hlexeme⟩ := List.mem_filterMap.1 hmem
    exact ⟨x, s.scanner.tiles_eq_cuts ▸ List.mem_append_left _ hx, hlexeme⟩
  | succ k ih =>
    obtain ⟨x, hx, hlexeme⟩ := ih (s := (s.respond .lexeme).state) h
    have hsettings : (s.respond .lexeme).state.scanner.settings = s.scanner.settings :=
      s.scanner.next_settings
    exact ⟨x, s.scanner.tiles_eq_cuts ▸ List.mem_append_right _ hx, hsettings ▸ hlexeme⟩

/-- A sign that lies ahead is a piece of its own. -/
theorem signAt_of_upcoming {s : Session Reader} {k : Nat} {l : Lexeme}
    (h : s.upcoming k = some l) (hsign : l.Introduces) : s.scanner.SignAt l.position := by
  obtain ⟨x, hx, hlexeme⟩ := exists_tile_of_upcoming h
  obtain ⟨position, piece⟩ := x
  obtain ⟨rfl, rfl⟩ := Piece.eq_sign hlexeme hsign
  cases hc : s.scanner.cursor with
  | none => simp [Reader.tiles, hc] at hx
  | some c =>
    refine ⟨c, hc, fun tiles htiles => ?_⟩
    have hmem : ⟨l.position, Piece.sign⟩ ∈ tiles := by
      rw [Reader.tiled_iff.1 htiles]
      simpa only [Reader.tiles, hc] using hx
    refine ⟨hmem, fun x hx hcovers => htiles.eq_of_covers hx hmem hcovers ?_⟩
    exact ⟨Nat.le_refl _, Nat.lt_succ_self _⟩

/-! ## What a search amounts to -/

/-- Looking for a directive finds the first sign among the lexemes ahead, with the token it would
have as the next one, and leaves the reader right behind it. Without a sign it finds nothing and
leads to the end. In either case no word becomes known. -/
theorem nextDirective_first {s : Session Reader} (hs : s.Reachable) :
    let sought := s.tokenizer.nextDirective
    sought.state.words = s.tokenizer.words ∧
    (∀ k l, s.upcoming k = some l → l.Introduces →
      (∀ j < k, ∀ m, s.upcoming j = some m → ¬m.Introduces) →
      ∃ token, sought.value = some token ∧ token.lexeme = l ∧
        sought.state.scanner = (s.after (List.replicate (k + 1) .lexeme)).scanner ∧
        s.scanner.SignAt l.position ∧
        ∀ {σ : Type} [Scanner σ] (t : Tokenizer σ), (Scanner.next t.scanner).value = some l →
          t.next.value = some (.ok token)) ∧
    ((∀ k l, s.upcoming k = some l → ¬l.Introduces) → sought.value = none ∧
      ∀ c, s.scanner.cursor = some c → ∃ stop,
        sought.state.scanner.cursor = some ⟨c.handle, stop⟩ ∧
          stop.offset = c.handle.content.length) := by
  intro sought
  refine ⟨rfl, fun k l hl hsign hbefore => ?_, fun habsent => ?_⟩
  · obtain ⟨hvalue, hstate⟩ := nextDirective_of_first hl hsign hbefore
    have hfound : sought.value = some (.ofDirective l) := congrArg (Option.map _) hvalue
    exact ⟨_, hfound, rfl, hstate, signAt_of_upcoming hl hsign,
      fun t ht => Tokenizer.next_of_introduces ht hsign⟩
  · have hnone := nextDirective_of_absent habsent
    have hvalue : sought.value = none := congrArg (Option.map _) hnone
    exact ⟨hvalue, hs.placed.standing.nextDirective_ends hnone⟩

/-- A session in front of `a "#\q" /*#*/ #b`, where the first two signs are hidden in a literal with
a malformed escape and in a comment. -/
def hiddenSigns : Session Reader :=
  (Session.start Reader.empty []).after
    [.attach ⟨0, ⟨"main", [97, 32, 34, 35, 92, 113, 34, 32, 47, 42, 35, 42, 47, 32, 35, 98],
      by decide⟩⟩]

/-- Neither hidden sign is a lexeme, and the third one is found. -/
theorem nextDirective_first_hiddenSigns :
    let sign : Lexeme := ⟨.symbol, [35], ⟨14, 1, 15⟩⟩
    hiddenSigns.Reachable ∧ hiddenSigns.upcoming 2 = some sign ∧ sign.Introduces ∧
      (∀ j < 2, ∀ m, hiddenSigns.upcoming j = some m → ¬m.Introduces) ∧
      hiddenSigns.tokenizer.nextDirective.state.words = hiddenSigns.tokenizer.words ∧
      hiddenSigns.tokenizer.nextDirective.state.scanner =
        (hiddenSigns.after [.lexeme, .lexeme, .lexeme]).scanner ∧
      hiddenSigns.scanner.SignAt sign.position := by
  intro sign
  have hreachable : hiddenSigns.Reachable := ⟨[], _, rfl⟩
  have hword : hiddenSigns.upcoming 0 = some ⟨.word, [97], .start⟩ := by decide +kernel
  have hliteral : hiddenSigns.upcoming 1 = some ⟨.string, [34, 35, 92, 113, 34], ⟨2, 1, 3⟩⟩ := by
    decide +kernel
  have hsign : hiddenSigns.upcoming 2 = some sign := by decide +kernel
  have hbefore : ∀ j < 2, ∀ m, hiddenSigns.upcoming j = some m → ¬m.Introduces := by
    intro j hj m hm
    match j, hj with
    | 0, _ =>
      obtain rfl := Option.some.inj (hword.symm.trans hm)
      simp [Lexeme.Introduces]
    | 1, _ =>
      obtain rfl := Option.some.inj (hliteral.symm.trans hm)
      simp [Lexeme.Introduces]
  obtain ⟨hwords, hfirst, -⟩ := nextDirective_first hreachable
  obtain ⟨token, -, -, hstate, hat, -⟩ := hfirst 2 sign hsign ⟨rfl, rfl⟩ hbefore
  exact ⟨hreachable, hsign, ⟨rfl, rfl⟩, hbefore, hwords, hstate, hat⟩

end Session

end SceneTokens
