import SceneTokens.Proofs.Enclosed

/-!
# Comments that nest too deep

A block comment that is not closed either runs out of bytes or opens one comment too many.
`Grammar.TooDeep` says the second without a scanner, beside `Grammar.BlockComment`: reading gives up
on a comment for its depth exactly where the grammar has it too deep (`Piece.body_eq_tooDeep_iff`).

As for comments that are closed, the induction carries the number of comments around the present
one. `Piece.Overflows` says that one of them goes too deep after the inner ones are closed.
-/

namespace SceneTokens

namespace Grammar

/-- What follows the opening sign of a comment, if more than `depth` comments get open inside it at
once before it is closed. -/
inductive Overfull : Nat → Bytes → Prop
  | opening {rest : Bytes} : Overfull 0 (Byte.slash :: Byte.star :: rest)
  | byte {depth : Nat} {b : UInt8} {w : Bytes} : ¬[Byte.slash, Byte.star] <+: b :: w →
      ¬[Byte.star, Byte.slash] <+: b :: w → Overfull depth w → Overfull depth (b :: w)
  | comment {depth : Nat} {u w : Bytes} : CommentBody true depth u → Overfull (depth + 1) w →
      Overfull (depth + 1) (Byte.slash :: Byte.star :: (u ++ w))
  | inner {depth : Nat} {w : Bytes} : Overfull depth w →
      Overfull (depth + 1) (Byte.slash :: Byte.star :: w)

/-- Bytes that start with a comment in which too many comments get open at once. -/
inductive TooDeep (nested : Bool) : Bytes → Prop
  | mk {w : Bytes} : nested = true → Overfull (Comment.maxDepth - 1) w →
      TooDeep nested (Byte.slash :: Byte.star :: w)

theorem Overfull.ne_nil {depth : Nat} {w : Bytes} (h : Overfull depth w) : w ≠ [] := by
  cases h <;> simp

end Grammar

open Grammar

namespace Piece

/-- A comment inside `outer` others goes too deep, or is closed and one of those around it does. -/
def Overflows : Nat → Bytes → Prop
  | 0, w => Overfull (Comment.maxDepth - 1) w
  | outer + 1, w => Overfull (Comment.maxDepth - 1 - (outer + 1)) w ∨
      ∃ u v, w = u ++ v ∧ CommentBody true (Comment.maxDepth - 1 - (outer + 1)) u ∧
        Overflows outer v

/-- At the limit, one more opening sign is too many. -/
theorem overflows_opening {outer : Nat} (h : ¬outer + 1 < Comment.maxDepth) (rest : Bytes) :
    Overflows outer (Byte.slash :: Byte.star :: rest) := by
  cases outer with
  | zero => exact absurd (by decide) h
  | succ outer =>
    have hdepth : Comment.maxDepth - 1 - (outer + 1) = 0 := by omega
    refine Or.inl ?_
    rw [hdepth]
    exact .opening

theorem Overflows.close {outer : Nat} {w : Bytes} (h : Overflows outer w) :
    Overflows (outer + 1) (Byte.star :: Byte.slash :: w) :=
  Or.inr ⟨[Byte.star, Byte.slash], w, rfl, CommentBody.close, h⟩

theorem Overflows.byte {outer : Nat} {b : UInt8} {w : Bytes}
    (hopen : ¬[Byte.slash, Byte.star] <+: b :: w) (hclose : ¬[Byte.star, Byte.slash] <+: b :: w)
    (h : Overflows outer w) : Overflows outer (b :: w) := by
  cases outer with
  | zero => exact Overfull.byte hopen hclose h
  | succ outer =>
    rcases h with h | ⟨u, v, rfl, hu, hv⟩
    · exact Or.inl (.byte hopen hclose h)
    · have hpre : b :: u <+: b :: (u ++ v) := List.prefix_append (b :: u) v
      exact Or.inr ⟨b :: u, v, rfl, CommentBody.byte (fun _ h => hopen (h.trans hpre))
        (fun h => hclose (h.trans hpre)) hu, hv⟩

/-- An opening sign below the limit adds a comment, which goes too deep or is closed. -/
theorem Overflows.comment {outer : Nat} {w : Bytes} (hlt : outer + 1 < Comment.maxDepth)
    (h : Overflows (outer + 1) w) : Overflows outer (Byte.slash :: Byte.star :: w) := by
  cases outer with
  | zero =>
    rcases h with h | ⟨u, v, rfl, hu, hv⟩
    · exact Overfull.inner h
    · exact Overfull.comment hu hv
  | succ outer =>
    have hdepth : Comment.maxDepth - 1 - (outer + 1) =
        Comment.maxDepth - 1 - (outer + 1 + 1) + 1 := by omega
    -- too deep in the comment that opens here, in the one around it, or further out
    rcases h with h | ⟨u, v, rfl, hu, hv | ⟨u', v', rfl, hu', hv'⟩⟩
    · exact Or.inl (hdepth ▸ .inner h)
    · refine Or.inl ?_
      rw [hdepth] at hv ⊢
      exact .comment hu hv
    · refine Or.inr ⟨Byte.slash :: Byte.star :: (u ++ u'), v', by simp, ?_, hv'⟩
      rw [hdepth] at hu' ⊢
      exact CommentBody.comment rfl hu hu'

theorem after_eq_tooDeep {front : Bytes} {e : Comment.Ending} :
    e.after front = .tooDeep ↔ e = .tooDeep := by
  cases e <;> simp [Comment.Ending.after]

/-- Where reading gives up on a comment for its depth, the grammar has it too deep. -/
theorem overflows_of_body {nested : Bool} {outer : Nat} {bytes : Bytes}
    (h : Comment.body nested outer bytes = .tooDeep) : nested = true ∧ Overflows outer bytes := by
  fun_induction Comment.body nested outer bytes with
  | case1 => cases h
  | case2 => cases h
  | case3 outer a b rest hab hlt ih =>
    obtain ⟨⟨-, rfl⟩, rfl⟩ : (nested = true ∧ a = Byte.slash) ∧ b = Byte.star := by
      simpa using hab
    obtain ⟨hn, hrest⟩ := ih (after_eq_tooDeep.1 h)
    exact ⟨hn, hrest.comment hlt⟩
  | case4 outer a b rest hab hlt =>
    obtain ⟨⟨hn, rfl⟩, rfl⟩ : (nested = true ∧ a = Byte.slash) ∧ b = Byte.star := by
      simpa using hab
    exact ⟨hn, overflows_opening hlt rest⟩
  | case5 => cases h
  | case6 a b rest hopen hab outer ih =>
    obtain ⟨rfl, rfl⟩ : a = Byte.star ∧ b = Byte.slash := by simpa using hab
    obtain ⟨hn, hrest⟩ := ih (after_eq_tooDeep.1 h)
    exact ⟨hn, hrest.close⟩
  | case7 outer a b rest hopen hclose ih =>
    obtain ⟨hn, hrest⟩ := ih (after_eq_tooDeep.1 h)
    refine ⟨hn, hrest.byte (fun hp => hopen ?_) (fun hp => hclose ?_)⟩
    · obtain ⟨rfl, rfl⟩ : Byte.slash = a ∧ Byte.star = b := by simpa using hp
      simp [hn]
    · obtain ⟨rfl, rfl⟩ : Byte.star = a ∧ Byte.slash = b := by simpa using hp
      simp

/-- And where the grammar has a comment too deep, reading gives up on it. `depth` is the number of
comments that may still be opened inside. -/
theorem body_of_overfull {depth : Nat} {w : Bytes} (hw : Overfull depth w) :
    ∀ outer, depth + outer + 1 = Comment.maxDepth →
      Comment.body true outer w = .tooDeep := by
  induction hw with
  | opening =>
    intro outer hdepth
    have hge : ¬outer + 1 < Comment.maxDepth := by omega
    cases outer <;> simp [Comment.body, hge]
  | @byte depth b w hopen hclose hw ih =>
    intro outer hdepth
    obtain ⟨c, w, rfl⟩ := List.exists_cons_of_ne_nil hw.ne_nil
    rw [body_byte outer w (fun _ => hopen) hclose, ih outer hdepth]
    rfl
  | @comment depth u w hu hw ih =>
    intro outer hdepth
    have hinner : Comment.body true (outer + 1) (u ++ w) = (Comment.body true outer w).after u :=
      body_append hu (outer + 1) w (by omega)
    rw [body_opening (by omega), hinner, ih outer hdepth]
    rfl
  | @inner depth w hw ih =>
    intro outer hdepth
    rw [body_opening (by omega), ih (outer + 1) (by omega)]
    rfl

/-- A comment is given up for its depth if and only if the grammar has it too deep. -/
theorem body_eq_tooDeep_iff (nested : Bool) (rest : Bytes) :
    Comment.body nested 0 rest = .tooDeep ↔
      TooDeep nested (Byte.slash :: Byte.star :: rest) := by
  constructor
  · intro h
    obtain ⟨hn, hrest⟩ := overflows_of_body h
    exact .mk hn hrest
  · rintro ⟨rfl, hrest⟩
    exact body_of_overfull hrest 0 rfl

end Piece

end SceneTokens
