import SceneTokens.Lexing.Scanner

/-!
# Prepared lexemes

A `Script` is a scanner that hands out a list of lexemes prepared in advance, whatever they are.
It holds its place as a number, which goes up with every request, also past the end of the list.
-/

namespace SceneTokens

/-- A list of lexemes, the place in it, and the input they are said to come from. -/
structure Script where
  lexemes : List Lexeme
  place : Nat
  input : Option Handle
deriving DecidableEq, Repr

namespace Script

/-- A script at its start. -/
def ofList (lexemes : List Lexeme) (input : Option Handle) : Script :=
  ⟨lexemes, 0, input⟩

/-- Hands out the lexeme at the present place. -/
def next (s : Script) : Step Script (Option Lexeme) :=
  ⟨s.lexemes[s.place]?, { s with place := s.place + 1 }, []⟩

/-- Number of lexemes that are still to be handed out. -/
def remaining (s : Script) : Nat :=
  s.lexemes.length - s.place

theorem next_remaining (s : Script) (h : s.next.value.isSome) :
    s.next.state.remaining < s.remaining := by
  have : s.place < s.lexemes.length := by simpa [next] using h
  simp only [next, remaining]
  omega

/-- Goes back, or ahead, to a place within the list or right behind it. -/
def goTo (s : Script) (place : Nat) : Restoration Script :=
  if place ≤ s.lexemes.length then ⟨true, { s with place := place }⟩ else ⟨false, s⟩

instance : Scanner Script where
  Hot := Nat
  Cold := Nat
  next := next
  nextDirective := next
  attach s h := { s with input := some h }
  input? := input
  setEncoding s _ := s
  setNested s _ := s
  hotMark := place
  coldMark := place
  goHot := goTo
  goCold := goTo
  remaining := remaining
  next_remaining := next_remaining

end Script

end SceneTokens
