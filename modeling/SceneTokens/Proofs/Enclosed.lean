import SceneTokens.Proofs.Grammar

/-!
# Literals and comments at a place

A string literal and a block comment run to the sign that closes them. For both, reading is exact:
what is read is of the grammar (`Piece.exists_literalBody`, `Piece.closes_of_body`), and what the
grammar puts at the front is read, whatever follows it (`Piece.literal_append`,
`Piece.body_append`). So there is at most one literal and one comment at a place, and one that is
not closed has none at its place (`Piece.not_literal_isPrefix`, `Piece.blockComment_cases`).

For comments the induction carries the number of comments around the present one. `Piece.Closes`
says what closes all of them.
-/

namespace SceneTokens

open Grammar

namespace Piece

/-! ## String literals -/

/-- Reading a literal stops at the first quote that is not protected. -/
theorem literal_append {p : Bytes} (hp : LiteralBody p) (rest : Bytes) :
    literal (p ++ Byte.quote :: rest) = some (p ++ [Byte.quote]) := by
  induction hp with
  | nil => cases rest <;> simp [literal]
  | @plain b p hq hb _ ih =>
    obtain ⟨c, tail, htail⟩ : ∃ c tail, p ++ Byte.quote :: rest = c :: tail :=
      List.exists_cons_of_ne_nil (by simp)
    rw [List.cons_append, htail, literal, if_neg hq, if_neg hb, ← htail, ih]
    rfl
  | @guarded c p _ ih =>
    have hne : Byte.backslash ≠ Byte.quote := by decide
    rw [List.cons_append, List.cons_append, literal, if_neg hne, if_pos rfl, ih]
    rfl

/-- What is read is the body of a literal and its closing quote. -/
theorem exists_literalBody {bytes body : Bytes} (h : literal bytes = some body) :
    ∃ p, LiteralBody p ∧ body = p ++ [Byte.quote] ∧ body <+: bytes := by
  fun_induction literal bytes generalizing body with
  | case1 => simp at h
  | case2 =>
    cases h
    exact ⟨[], .nil, rfl, by simp⟩
  | case3 b hb => simp at h
  | case4 c rest =>
    cases h
    exact ⟨[], .nil, rfl, by simp⟩
  | case5 c rest hq ih =>
    obtain ⟨tail, htail, rfl⟩ := Option.map_eq_some_iff.1 h
    obtain ⟨p, hp, rfl, hpre⟩ := ih htail
    exact ⟨_, .guarded (c := c) hp, by simp, by simpa using hpre⟩
  | case6 b c rest hq hb ih =>
    obtain ⟨tail, htail, rfl⟩ := Option.map_eq_some_iff.1 h
    obtain ⟨p, hp, rfl, hpre⟩ := ih htail
    exact ⟨_, .plain hq hb hp, by simp, by simpa using hpre⟩

/-- A literal in front of a byte string is what is read there. -/
theorem literal_of_isPrefix {q rest : Bytes} (hq : Literal q) (h : q <+: Byte.quote :: rest) :
    ∃ body, literal rest = some body ∧ q = Byte.quote :: body := by
  obtain ⟨hp⟩ := hq
  obtain ⟨tail, htail⟩ := h
  simp only [List.cons_append, List.append_assoc, List.cons.injEq, true_and] at htail
  rw [← htail]
  exact ⟨_, literal_append hp tail, rfl⟩

/-- The literal that is cut off is the only one at the front. -/
theorem literal_sole {rest body : Bytes} (h : literal rest = some body) :
    Sole Literal (Byte.quote :: body) (Byte.quote :: rest) := by
  obtain ⟨p, hp, hbody, hpre⟩ := exists_literalBody h
  refine ⟨hbody ▸ .mk hp, by simpa using hpre, fun q hq hqp => ?_⟩
  obtain ⟨body', hbody', rfl⟩ := literal_of_isPrefix hq hqp
  obtain rfl := Option.some.inj (h.symm.trans hbody')
  rfl

theorem not_literal_isPrefix {rest q : Bytes} (h : literal rest = none) (hq : Literal q) :
    ¬q <+: Byte.quote :: rest := by
  intro hqp
  obtain ⟨body, hbody, -⟩ := literal_of_isPrefix hq hqp
  simp [h] at hbody

/-! ## Comments -/

theorem after_after (front back : Bytes) (e : Comment.Ending) :
    (e.after back).after front = e.after (front ++ back) := by
  cases e <;> simp [Comment.Ending.after]

/-- Bytes that close a comment and the `outer` comments around it, one after another. -/
def Closes (nested : Bool) : Nat → Bytes → Prop
  | 0, w => CommentBody nested (Comment.maxDepth - 1) w
  | outer + 1, w => ∃ u v, w = u ++ v ∧
      CommentBody nested (Comment.maxDepth - 1 - (outer + 1)) u ∧ Closes nested outer v

/-- A closing sign ends the innermost of the open comments. -/
theorem Closes.close {nested : Bool} {outer : Nat} {w : Bytes} (h : Closes nested outer w) :
    Closes nested (outer + 1) (Byte.star :: Byte.slash :: w) :=
  ⟨[Byte.star, Byte.slash], w, rfl, CommentBody.close, h⟩

/-- A byte that starts no sign belongs to the innermost comment. -/
theorem Closes.byte {nested : Bool} {outer : Nat} {b : UInt8} {w : Bytes}
    (hopen : nested = true → ¬[Byte.slash, Byte.star] <+: b :: w)
    (hclose : ¬[Byte.star, Byte.slash] <+: b :: w) (h : Closes nested outer w) :
    Closes nested outer (b :: w) := by
  cases outer with
  | zero => exact CommentBody.byte hopen hclose h
  | succ outer =>
    obtain ⟨u, v, rfl, hu, hv⟩ := h
    have hpre : b :: u <+: b :: (u ++ v) := List.prefix_append (b :: u) v
    exact ⟨b :: u, v, rfl, CommentBody.byte (fun hn h => hopen hn (h.trans hpre))
      (fun h => hclose (h.trans hpre)) hu, hv⟩

/-- An opening sign adds a comment, which is closed first. -/
theorem Closes.comment {nested : Bool} {outer : Nat} {w : Bytes} (hn : nested = true)
    (hlt : outer + 1 < Comment.maxDepth) (h : Closes nested (outer + 1) w) :
    Closes nested outer (Byte.slash :: Byte.star :: w) := by
  obtain ⟨u, v, rfl, hu, hv⟩ := h
  cases outer with
  | zero => exact CommentBody.comment hn hu hv
  | succ outer =>
    obtain ⟨u', v', rfl, hu', hv'⟩ := hv
    have hdepth : Comment.maxDepth - 1 - (outer + 1) =
        Comment.maxDepth - 1 - (outer + 1 + 1) + 1 := by omega
    rw [hdepth] at hu'
    refine ⟨Byte.slash :: Byte.star :: (u ++ u'), v', by simp, ?_, hv'⟩
    rw [hdepth]
    exact CommentBody.comment hn hu hu'

theorem exists_of_after_eq_closed {front w : Bytes} {e : Comment.Ending}
    (h : e.after front = .closed w) : ∃ body, e = .closed body ∧ w = front ++ body := by
  cases e with
  | closed body => exact ⟨body, rfl, (Comment.Ending.closed.inj h).symm⟩
  | unclosed => cases h
  | tooDeep => cases h

/-- A comment that is closed has the body the grammar asks for. -/
theorem closes_of_body {nested : Bool} {outer : Nat} {bytes w : Bytes}
    (h : Comment.body nested outer bytes = .closed w) : Closes nested outer w ∧ w <+: bytes := by
  fun_induction Comment.body nested outer bytes generalizing w with
  | case1 => cases h
  | case2 => cases h
  | case3 outer a b rest hab hlt ih =>
    obtain ⟨⟨hn, rfl⟩, rfl⟩ : (nested = true ∧ a = Byte.slash) ∧ b = Byte.star := by
      simpa using hab
    obtain ⟨body, hbody, rfl⟩ := exists_of_after_eq_closed h
    obtain ⟨hc, hpre⟩ := ih hbody
    exact ⟨hc.comment hn hlt, by simpa using hpre⟩
  | case4 => cases h
  | case5 a b rest hopen hab =>
    obtain ⟨rfl, rfl⟩ : a = Byte.star ∧ b = Byte.slash := by simpa using hab
    cases h
    exact ⟨CommentBody.close, by simp⟩
  | case6 a b rest hopen hab outer ih =>
    obtain ⟨rfl, rfl⟩ : a = Byte.star ∧ b = Byte.slash := by simpa using hab
    obtain ⟨body, hbody, rfl⟩ := exists_of_after_eq_closed h
    obtain ⟨hc, hpre⟩ := ih hbody
    exact ⟨hc.close, by simpa using hpre⟩
  | case7 outer a b rest hopen hclose ih =>
    obtain ⟨body, hbody, rfl⟩ := exists_of_after_eq_closed h
    obtain ⟨hc, hpre⟩ := ih hbody
    have hpre' : a :: body <+: a :: b :: rest := by simpa using hpre
    refine ⟨hc.byte (fun hn hp => hopen ?_) (fun hp => hclose ?_), hpre'⟩
    · have := hp.trans hpre'
      simp only [List.cons_prefix_cons, List.nil_prefix, and_true] at this
      simp [hn, this.1, this.2]
    · have := hp.trans hpre'
      simp only [List.cons_prefix_cons, List.nil_prefix, and_true] at this
      simp [this.1, this.2]

/-- Behind an opening sign, one more comment is open. -/
theorem body_opening {outer : Nat} (h : outer + 1 < Comment.maxDepth) (rest : Bytes) :
    Comment.body true outer (Byte.slash :: Byte.star :: rest) =
      (Comment.body true (outer + 1) rest).after [Byte.slash, Byte.star] := by
  cases outer <;> simp [Comment.body, h]

theorem body_byte {nested : Bool} {a b : UInt8} (outer : Nat) (rest : Bytes)
    (hopen : nested = true → ¬[Byte.slash, Byte.star] <+: a :: b :: rest)
    (hclose : ¬[Byte.star, Byte.slash] <+: a :: b :: rest) :
    Comment.body nested outer (a :: b :: rest) =
      (Comment.body nested outer (b :: rest)).after [a] := by
  have h1 : ¬(nested && a == Byte.slash && b == Byte.star) = true := by
    intro h
    obtain ⟨⟨hn, rfl⟩, rfl⟩ : (nested = true ∧ a = Byte.slash) ∧ b = Byte.star := by simpa using h
    exact hopen hn (by simp)
  have h2 : ¬(a == Byte.star && b == Byte.slash) = true := by
    intro h
    obtain ⟨rfl, rfl⟩ : a = Byte.star ∧ b = Byte.slash := by simpa using h
    exact hclose (by simp)
  cases outer <;> rw [Comment.body, if_neg h1, if_neg h2]

/-- The body of a comment is read to its end, whatever follows it. `depth` is the number of
comments that may still be opened inside. -/
theorem body_append {nested : Bool} {depth : Nat} {w : Bytes} (hw : CommentBody nested depth w) :
    ∀ (outer : Nat) (rest : Bytes), depth + outer + 1 = Comment.maxDepth →
      Comment.body nested outer (w ++ rest) = match outer with
        | 0 => .closed w
        | outer + 1 => (Comment.body nested outer rest).after w := by
  induction hw with
  | close =>
    intro outer rest _
    have hne : (Byte.star == Byte.slash) = false := by decide
    cases outer <;> simp [Comment.body, hne]
  | @byte depth b w hopen hclose hw ih =>
    intro outer rest hdepth
    obtain ⟨c, w', rfl⟩ : ∃ c w', w = c :: w' := by
      cases hw <;> exact ⟨_, _, rfl⟩
    have hstep := body_byte outer (w' ++ rest) (fun hn h => hopen hn (by simpa using h))
      (fun h => hclose (by simpa using h))
    have ih' := ih outer rest hdepth
    simp only [List.cons_append] at ih' ⊢
    rw [hstep, ih']
    cases outer with
    | zero => rfl
    | succ outer => exact after_after [b] (c :: w') _
  | @comment depth u w hn hu hw ihu ihw =>
    intro outer rest hdepth
    subst hn
    have ihu' : Comment.body true (outer + 1) (u ++ (w ++ rest)) =
        (Comment.body true outer (w ++ rest)).after u := ihu (outer + 1) (w ++ rest) (by omega)
    have ihw' := ihw outer rest hdepth
    simp only [List.cons_append, List.append_assoc]
    rw [body_opening (by omega), ihu', ihw', after_after]
    cases outer with
    | zero => rfl
    | succ outer => exact after_after _ w _

/-- A comment in front of a byte string is what is read there. -/
theorem body_of_isPrefix {nested : Bool} {q rest : Bytes} (hq : BlockComment nested q)
    (h : q <+: Byte.slash :: Byte.star :: rest) :
    ∃ w, Comment.body nested 0 rest = .closed w ∧ q = Byte.slash :: Byte.star :: w := by
  obtain ⟨hw⟩ := hq
  obtain ⟨tail, htail⟩ := h
  simp only [List.cons_append, List.cons.injEq, true_and] at htail
  rw [← htail]
  exact ⟨_, body_append hw 0 tail rfl, rfl⟩

/-- There is at most one comment at a place. -/
theorem eq_of_isPrefix_comment {nested : Bool} {q q' rest : Bytes} (hq : BlockComment nested q)
    (hq' : BlockComment nested q') (h : q <+: Byte.slash :: Byte.star :: rest)
    (h' : q' <+: Byte.slash :: Byte.star :: rest) : q = q' := by
  obtain ⟨w, hw, rfl⟩ := body_of_isPrefix hq h
  obtain ⟨w', hw', rfl⟩ := body_of_isPrefix hq' h'
  obtain rfl := Comment.Ending.closed.inj (hw.symm.trans hw')
  rfl

/-- A comment is closed where the grammar closes it. One that the grammar closes nowhere takes all
that is left. -/
theorem blockComment_cases (nested : Bool) (rest : Bytes) :
    (∃ raw, blockComment nested (Byte.star :: rest) = ⟨.blockComment, raw⟩ ∧
      BlockComment nested raw ∧ raw <+: Byte.slash :: Byte.star :: rest) ∨
    ∃ kind, blockComment nested (Byte.star :: rest) = ⟨kind, Byte.slash :: Byte.star :: rest⟩ ∧
      (kind = .unclosedComment ∨ kind = .deepComment) ∧
      ∀ raw, BlockComment nested raw → ¬raw <+: Byte.slash :: Byte.star :: rest := by
  have hopen (h : ∀ w, Comment.body nested 0 rest ≠ .closed w) (raw : Bytes)
      (hraw : BlockComment nested raw) : ¬raw <+: Byte.slash :: Byte.star :: rest := by
    intro hpre
    obtain ⟨w, hw, -⟩ := body_of_isPrefix hraw hpre
    exact h w hw
  unfold blockComment
  rw [List.tail_cons]
  cases hbody : Comment.body nested 0 rest with
  | closed w =>
    obtain ⟨hw, hpre⟩ := closes_of_body hbody
    exact Or.inl ⟨_, rfl, .mk hw, by simpa using hpre⟩
  | unclosed => exact Or.inr ⟨_, rfl, Or.inl rfl, hopen (by simp [hbody])⟩
  | tooDeep => exact Or.inr ⟨_, rfl, Or.inr rfl, hopen (by simp [hbody])⟩

end Piece

end SceneTokens
