import SceneTokens.Proofs.Enclosed
import SceneTokens.Proofs.Numbers

/-!
# Pieces and the grammar

`Piece.cut` decides by the first one or two bytes what stands at the front of a byte string.
`Piece.cut_fits` holds every piece it cuts to the grammar: whatever the bytes are, the piece is of
its kind (`Piece.Fits`), in view of what follows it, and cutting loses no byte.
-/

namespace SceneTokens

open Grammar

namespace Piece

/-- What a piece that starts at `offset` is, in front of `after`. -/
def Fits (nested : Bool) (offset : Nat) (p : Piece) (after : Bytes) : Prop :=
  match p.kind with
  | .lexeme category => Spelled category p.raw after
  | .unclosedComment | .deepComment | .unclosedString => after = [] ∧ Unclosed nested p.raw
  | _ => Trivia nested offset p.raw after

/-- A block comment is closed as the grammar has it, or takes all that is left. -/
theorem blockComment_fits (nested : Bool) (offset : Nat) (rest : Bytes) :
    ∃ after, (blockComment nested (Byte.star :: rest)).raw ++ after =
        Byte.slash :: Byte.star :: rest ∧
      (blockComment nested (Byte.star :: rest)).Fits nested offset after := by
  rcases blockComment_cases nested rest with ⟨raw, hcut, hraw, after, hafter⟩ |
    ⟨kind, hcut, hkind, hnone⟩
  · rw [hcut]
    exact ⟨after, hafter, .blockComment hraw⟩
  · have hopen : Unclosed nested (Byte.slash :: Byte.star :: rest) := .comment (by simp) hnone
    rw [hcut]
    rcases hkind with rfl | rfl
    · exact ⟨[], by simp, rfl, hopen⟩
    · exact ⟨[], by simp, rfl, hopen⟩

/-- So is a string literal. -/
theorem stringLiteral_fits (nested : Bool) (offset : Nat) (rest : Bytes) :
    ∃ after, (stringLiteral rest).raw ++ after = Byte.quote :: rest ∧
      (stringLiteral rest).Fits nested offset after := by
  unfold stringLiteral
  cases hbody : literal rest with
  | some body =>
    have hsole := literal_sole hbody
    obtain ⟨after, hafter⟩ := hsole.2.1
    exact ⟨after, hafter, show Sole Literal _ _ by rw [hafter]; exact hsole⟩
  | none =>
    exact ⟨[], by simp, rfl, .literal rfl fun q hq => not_literal_isPrefix hbody hq⟩

theorem opensRelation_iff (b : UInt8) : Symbol.opensRelation b = true ↔ b ∈ comparisons := by
  simp only [Symbol.opensRelation, Symbol.relations, comparisons, List.any_cons, List.any_nil,
    Bool.or_false, Bool.or_eq_true, beq_iff_eq, List.mem_cons, List.not_mem_nil, or_false]
  constructor <;> rintro (rfl | rfl | rfl) <;> simp

/-- The piece cut off the front of a byte string is of its kind, and nothing is lost. -/
theorem cut_fits (nested : Bool) (offset : Nat) (b : UInt8) (rest : Bytes) :
    ∃ after, (cut nested (offset == 0) b rest).raw ++ after = b :: rest ∧
      (cut nested (offset == 0) b rest).Fits nested offset after := by
  unfold cut
  split_ifs with hmark hblank hline hblock hword hnumber hquote hrelation hvisible
  · obtain ⟨h0, hpre⟩ : offset = 0 ∧ mark <+: b :: rest := by simpa using hmark
    obtain ⟨after, hafter⟩ := hpre
    subst h0
    exact ⟨after, hafter, .mark⟩
  · exact ⟨rest, rfl, .blank hblank⟩
  · obtain ⟨rfl, hhead⟩ := hline
    obtain ⟨tail, rfl⟩ := List.head?_eq_some_iff.1 hhead
    have hs : (Byte.slash != Byte.newline) = true := by decide
    refine ⟨tail.dropWhile (· != Byte.newline), ?_, ?_⟩
    · simp [hs]
    · have hbody : Byte.newline ∉ tail.takeWhile (· != Byte.newline) := fun h => by
        simpa using List.mem_takeWhile_imp h
      have hstop : ∀ c, (tail.dropWhile (· != Byte.newline)).head? = some c →
          c = Byte.newline := fun c hc => by simpa using head?_dropWhile hc
      simpa [Fits, List.takeWhile_cons, hs] using Trivia.lineComment hbody hstop
  · obtain ⟨rfl, hhead⟩ := hblock
    obtain ⟨tail, rfl⟩ := List.head?_eq_some_iff.1 hhead
    exact blockComment_fits nested offset tail
  · exact ⟨rest.dropWhile Byte.isWordByte, by simp,
      ⟨hword, fun _ hc => List.mem_takeWhile_imp hc⟩, fun _ hc => head?_dropWhile hc⟩
  · have hlong := number_longest hnumber
    obtain ⟨after, hafter⟩ := hlong.2.1
    exact ⟨after, hafter, show Longest Number _ _ by rw [hafter]; exact hlong⟩
  · subst hquote
    exact stringLiteral_fits nested offset rest
  · obtain ⟨hb, hhead⟩ := hrelation
    obtain ⟨tail, rfl⟩ := List.head?_eq_some_iff.1 hhead
    exact ⟨tail, rfl, .relation ((opensRelation_iff b).1 hb)⟩
  · rw [opensRelation_iff] at hrelation
    simp only [Byte.isWordStart, startsNumber, Bool.or_eq_true, Bool.and_eq_true, beq_iff_eq,
      not_or, not_and, Bool.not_eq_true, Option.any_eq_true, not_exists] at hword hnumber
    refine ⟨rest, rfl, .single ⟨hvisible, hword.1, hnumber.1, hquote, hword.2⟩
      (fun hb h => hrelation ⟨hb, h⟩) (fun hb => ⟨fun h => hline ⟨hb, h⟩, fun h => hblock ⟨hb, h⟩⟩)
      fun hb c hc => ?_⟩
    simpa using hnumber.2 hb c hc
  · exact ⟨rest, rfl, .rejected (by simpa using hblank) (by simpa using hvisible)⟩

end Piece

end SceneTokens
