import Mathlib.Order.Bounds.Image
import SceneTokens.Proofs.Delimited

/-!
# Where block comments end

Where comments do not nest, a comment ends with the first closing sign behind its opening sign
(`Comment.body_flat`). Where they nest, it ends where the grammar has it end, with at most
`Comment.maxDepth` comments open at once. One that does not end takes all that is left
(`Piece.cut_comment_exact`).

`Comment.counted` reads a comment with a machine word that counts the open comments, and gives no
answer if that word would be lowered below zero. It always gives one, the same as `Comment.body`
(`Comment.counted_eq`).
-/

namespace SceneTokens

open Grammar

namespace Grammar

/-- The places from `start` on where the closing sign of a comment stands. -/
def closings (content : Bytes) (start : Nat) : Set Nat :=
  {i | start ≤ i ∧ [Byte.star, Byte.slash] <+: content.drop i}

theorem closings_eq_image (content : Bytes) (start : Nat) :
    closings content start = (start + ·) '' closings (content.drop start) 0 := by
  ext i
  simp only [closings, Set.mem_ofPred_eq, Set.mem_image, List.drop_drop]
  constructor
  · rintro ⟨hle, hi⟩
    obtain ⟨j, rfl⟩ := Nat.exists_eq_add_of_le hle
    exact ⟨j, ⟨Nat.zero_le j, hi⟩, rfl⟩
  · rintro ⟨j, ⟨-, hj⟩, rfl⟩
    exact ⟨Nat.le_add_right start j, hj⟩

theorem isLeast_closings {content : Bytes} {start i : Nat}
    (h : IsLeast (closings (content.drop start) 0) i) :
    IsLeast (closings content start) (start + i) := by
  rw [closings_eq_image]
  exact Monotone.map_isLeast (fun _ _ hle => Nat.add_le_add_left hle start) h

theorem closings_eq_empty {content : Bytes} {start : Nat}
    (h : closings (content.drop start) 0 = ∅) : closings content start = ∅ := by
  rw [closings_eq_image, h, Set.image_empty]

/-- A place without a closing sign does not count. -/
theorem closings_succ {content : Bytes} {start : Nat}
    (h : ¬[Byte.star, Byte.slash] <+: content.drop start) :
    closings content start = closings content (start + 1) := by
  ext i
  refine ⟨fun ⟨hle, hi⟩ => ⟨?_, hi⟩, fun ⟨hle, hi⟩ => ⟨by omega, hi⟩⟩
  rcases Nat.lt_or_eq_of_le hle with hlt | rfl
  · exact hlt
  · exact absurd hi h

end Grammar

namespace Comment

/-! ## Comments that do not nest -/

/-- A comment that does not nest is read up to the first closing sign. -/
theorem body_flat (bytes : Bytes) :
    (∃ i, IsLeast (closings bytes 0) i ∧ body false 0 bytes = .closed (bytes.take (i + 2))) ∨
      closings bytes 0 = ∅ ∧ body false 0 bytes = .unclosed := by
  induction bytes with
  | nil =>
    refine Or.inr ⟨?_, rfl⟩
    ext i
    simp [closings]
  | cons a tail ih =>
    by_cases hclose : [Byte.star, Byte.slash] <+: a :: tail
    · obtain ⟨rest, hrest⟩ := hclose
      obtain ⟨rfl, rfl⟩ := List.cons.inj hrest
      exact Or.inl ⟨0, ⟨⟨Nat.le_refl 0, rest, rfl⟩, fun _ _ => Nat.zero_le _⟩, rfl⟩
    · have hbody : body false 0 (a :: tail) = (body false 0 tail).after [a] := by
        cases tail with
        | nil => rfl
        | cons b rest => exact Piece.body_byte 0 rest nofun hclose
      have hlater : closings (a :: tail) 0 = closings (a :: tail) 1 := closings_succ hclose
      rw [hlater, hbody]
      rcases ih with ⟨i, hleast, hi⟩ | ⟨hnone, hi⟩
      · have hfirst : IsLeast (closings (a :: tail) 1) (1 + i) := isLeast_closings hleast
        refine Or.inl ⟨1 + i, hfirst, ?_⟩
        rw [hi, Nat.add_comm 1 i]
        rfl
      · have hempty : closings (a :: tail) 1 = ∅ := closings_eq_empty hnone
        refine Or.inr ⟨hempty, ?_⟩
        rw [hi]
        rfl

/-! ## Counting -/

/-- Reads on in a block comment, with the number of open comments in a machine word. There is no
answer if that number is to be lowered and is zero. -/
def counted (nested : Bool) : UInt32 → Bytes → Option Ending
  | _, [] => some .unclosed
  | _, [_] => some .unclosed
  | depth, a :: b :: rest =>
    if nested && a == Byte.slash && b == Byte.star then
      if depth + 1 ≤ UInt32.ofNat maxDepth then
        (counted nested (depth + 1) rest).map (Ending.after [a, b])
      else some .tooDeep
    else if a == Byte.star && b == Byte.slash then
      if depth = 0 then none
      else if depth - 1 = 0 then some (.closed [a, b])
      else (counted nested (depth - 1) rest).map (Ending.after [a, b])
    else (counted nested depth (b :: rest)).map (Ending.after [a])

/-- The count is one more than the number of comments around the present one, so it is never
lowered below zero. -/
theorem counted_eq (nested : Bool) {outer : Nat} {depth : UInt32}
    (hdepth : depth.toNat = outer + 1) (houter : outer < maxDepth) (bytes : Bytes) :
    counted nested depth bytes = some (body nested outer bytes) := by
  have hmax : maxDepth = 100 := rfl
  fun_induction body nested outer bytes generalizing depth with
  | case1 => rfl
  | case2 => rfl
  | case3 outer a b rest hab hlt ih =>
    have hsucc : (depth + 1).toNat = outer + 1 + 1 := by
      rw [UInt32.toNat_add, hdepth, UInt32.toNat_one]
      omega
    have hle : depth + 1 ≤ UInt32.ofNat maxDepth := by
      rw [UInt32.le_iff_toNat_le, hsucc]
      exact hlt
    rw [counted, if_pos hab, if_pos hle, ih hsucc hlt]
    rfl
  | case4 outer a b rest hab hlt =>
    have hgt : ¬depth + 1 ≤ UInt32.ofNat maxDepth := by
      rw [UInt32.le_iff_toNat_le, UInt32.toNat_add, hdepth, UInt32.toNat_one, hmax]
      simp only [UInt32.reduceOfNat, UInt32.reduceToNat]
      omega
    rw [counted, if_pos hab, if_neg hgt]
  | case5 a b rest hopen hab =>
    obtain rfl : depth = 1 := UInt32.toNat_inj.1 hdepth
    rw [counted, if_neg hopen, if_pos hab]
    rfl
  | case6 a b rest hopen hab outer ih =>
    have hpos : depth ≠ 0 := by
      rintro rfl
      cases hdepth
    have hpred : (depth - 1).toNat = outer + 1 := by
      rw [UInt32.toNat_sub_of_le _ _ (by rw [UInt32.le_iff_toNat_le, hdepth]; simp), hdepth]
      rfl
    have hmore : depth - 1 ≠ 0 := by
      intro hzero
      rw [hzero] at hpred
      cases hpred
    rw [counted, if_neg hopen, if_pos hab, if_neg hpos, if_neg hmore, ih hpred (by omega)]
    rfl
  | case7 outer a b rest hopen hclose ih =>
    rw [counted, if_neg hopen, if_neg hclose, ih hdepth houter]
    rfl

end Comment

namespace Grammar

/-- The piece that is cut where a comment opens ends with the first closing sign behind the opening
sign, or with the content if there is none. -/
structure FlatComment (content : Bytes) (offset : Nat) (p : Piece) : Prop where
  closed : ∀ i, IsLeast (closings content (offset + 2)) i →
    p.kind = .blockComment ∧ offset + p.raw.length = i + 2
  unclosed : closings content (offset + 2) = ∅ →
    p.kind = .unclosedComment ∧ offset + p.raw.length = content.length

/-- The piece that is cut where a comment opens ends where the bytes from there on are a comment of
the grammar, or with the content if they are none up to any place. -/
structure NestedComment (content : Bytes) (offset : Nat) (p : Piece) : Prop where
  closed : ∀ stop ≤ content.length, p.kind = .blockComment ∧ offset + p.raw.length = stop ↔
    BlockComment true (Reader.Reading.slice content offset stop)
  unclosed : (∀ stop ≤ content.length,
      ¬BlockComment true (Reader.Reading.slice content offset stop)) →
    (p.kind = .unclosedComment ∨ p.kind = .deepComment) ∧ offset + p.raw.length = content.length

end Grammar

namespace Piece

/-! ## The piece at an opening sign -/

variable {content rest : Bytes} {offset : Nat}

/-- If comments do not nest, the first closing sign ends the comment. -/
theorem flatComment_cut (hopen : content.drop offset = Byte.slash :: Byte.star :: rest) :
    FlatComment content offset (cut false (offset == 0) Byte.slash (Byte.star :: rest)) := by
  have hrest : content.drop (offset + 2) = rest := by
    rw [← List.drop_drop, hopen]
    rfl
  have hlength : content.length - offset = rest.length + 2 := by
    simpa using congrArg List.length hopen
  rw [cut_opening, blockComment, List.tail_cons]
  rcases Comment.body_flat rest with ⟨i, hleast, hbody⟩ | ⟨hnone, hbody⟩
  · have hfirst : IsLeast (closings content (offset + 2)) (offset + 2 + i) :=
      isLeast_closings (hrest.symm ▸ hleast)
    have hsize : 2 ≤ rest.length - i := by simpa using hleast.1.2.length_le
    rw [hbody]
    refine ⟨fun j hj => ⟨rfl, ?_⟩, fun hempty => ?_⟩
    · obtain rfl := hj.unique hfirst
      simp only [List.length_cons, List.length_take]
      omega
    · exact absurd hfirst.1 (hempty ▸ Set.notMem_empty _)
  · have hempty : closings content (offset + 2) = ∅ := closings_eq_empty (hrest.symm ▸ hnone)
    rw [hbody]
    refine ⟨fun i hi => ?_, fun _ => ⟨rfl, ?_⟩⟩
    · exact absurd hi.1 (hempty ▸ Set.notMem_empty i)
    · simp only [List.length_cons]
      omega

/-- If they nest, the comment that is cut is the only one of the grammar at that place. -/
theorem nestedComment_cut (hopen : content.drop offset = Byte.slash :: Byte.star :: rest) :
    NestedComment content offset (cut true (offset == 0) Byte.slash (Byte.star :: rest)) := by
  have hlength : content.length - offset = rest.length + 2 := by
    simpa using congrArg List.length hopen
  have hpre (stop : Nat) :
      Reader.Reading.slice content offset stop <+: Byte.slash :: Byte.star :: rest :=
    hopen ▸ List.take_prefix _ _
  rw [cut_opening]
  rcases blockComment_cases true rest with ⟨raw, hcut, hraw, after, hafter⟩ |
    ⟨kind, hcut, hkind, hnone⟩
  · obtain ⟨hslice, -⟩ := Reader.Reading.slice_of_drop (hopen.trans hafter.symm)
    have hsize : raw.length ≤ rest.length + 2 := by
      simpa using (List.IsPrefix.length_le ⟨after, hafter⟩)
    rw [hcut]
    refine ⟨fun stop hstop => ⟨?_, fun hcomment => ⟨rfl, ?_⟩⟩, fun hnone => ?_⟩
    · rintro ⟨-, rfl⟩
      exact hslice.symm ▸ hraw
    · have hsame := eq_of_isPrefix_comment hcomment hraw (hpre stop) ⟨after, hafter⟩
      have hspan := congrArg List.length hsame
      obtain ⟨-⟩ := hraw
      simp only [Reader.Reading.slice, List.length_take, List.length_drop, List.length_cons]
        at hspan ⊢
      omega
    · exact absurd (hslice.symm ▸ hraw) (hnone (offset + raw.length) (by omega))
  · rw [hcut]
    refine ⟨fun stop hstop => ⟨?_, fun hcomment => absurd (hpre stop) (hnone _ hcomment)⟩,
      fun _ => ⟨hkind, ?_⟩⟩
    · rintro ⟨hclosed, -⟩
      rcases hkind with rfl | rfl <;> cases hclosed
    · simp only [List.length_cons]
      omega

/-- At an opening sign a comment is cut off up to where it ends: with the first closing sign if
comments do not nest, and with its own closing sign if they do. -/
theorem cut_comment_exact (hopen : content.drop offset = Byte.slash :: Byte.star :: rest) :
    FlatComment content offset (cut false (offset == 0) Byte.slash (Byte.star :: rest)) ∧
      NestedComment content offset (cut true (offset == 0) Byte.slash (Byte.star :: rest)) ∧
      ∀ nested, Comment.counted nested 1 rest = some (Comment.body nested 0 rest) :=
  ⟨flatComment_cut hopen, nestedComment_cut hopen,
    fun nested => Comment.counted_eq nested rfl (by decide) rest⟩

/-- The bytes `a/*/**/*/x`, in which signs overlap. -/
def crossedSigns : Bytes :=
  [97, 47, 42, 47, 42, 42, 47, 42, 47, 120]

/-- The star of the opening sign closes nothing, although a slash follows it. The comment ends with
the first closing sign if comments do not nest, and with the second if they do. -/
theorem cut_comment_crossedSigns :
    let rest : Bytes := [47, 42, 42, 47, 42, 47, 120]
    crossedSigns.drop 1 = Byte.slash :: Byte.star :: rest ∧
      IsLeast (closings crossedSigns 3) 5 ∧
      (cut false false Byte.slash (Byte.star :: rest)).kind = .blockComment ∧
      1 + (cut false false Byte.slash (Byte.star :: rest)).raw.length = 7 ∧
      (cut true false Byte.slash (Byte.star :: rest)).kind = .blockComment ∧
      1 + (cut true false Byte.slash (Byte.star :: rest)).raw.length = 9 ∧
      BlockComment true (Reader.Reading.slice crossedSigns 1 9) ∧
      Comment.counted true 1 rest = some (Comment.body true 0 rest) := by
  intro rest
  have hopen : crossedSigns.drop 1 = Byte.slash :: Byte.star :: rest := by decide
  have hleast : IsLeast (closings crossedSigns 3) 5 := by
    refine ⟨⟨by decide, by decide⟩, fun i ⟨hle, hi⟩ => ?_⟩
    by_contra hlt
    have hnone : ∀ j < 5, 3 ≤ j → ¬[Byte.star, Byte.slash] <+: crossedSigns.drop j := by decide
    exact hnone i (by omega) hle hi
  obtain ⟨hflat, hnested, hcounted⟩ := cut_comment_exact hopen
  obtain ⟨hkind, hstop⟩ := hflat.closed 5 hleast
  have hkind' : (cut true false Byte.slash (Byte.star :: rest)).kind = .blockComment := by decide
  have hstop' : 1 + (cut true false Byte.slash (Byte.star :: rest)).raw.length = 9 := by decide
  exact ⟨hopen, hleast, hkind, hstop, hkind', hstop',
    (hnested.closed 9 (by decide)).1 ⟨hkind', hstop'⟩, hcounted true⟩

end Piece

end SceneTokens
