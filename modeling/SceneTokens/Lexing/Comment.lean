import SceneTokens.Bytes

/-!
# Block comments

A block comment runs from `/*` to `*/`. Where comments nest, an inner `/*` has to be closed too,
and at most `Comment.maxDepth` comments may be open at once. `Comment.body` reads a comment from
behind its opening sign.
-/

namespace SceneTokens

namespace Comment

/-- How many block comments may be open at once. -/
def maxDepth : Nat := 100

/-- How a block comment ends. -/
inductive Ending where
  /-- It is closed; these are its bytes behind the opening sign, closing sign included. -/
  | closed (body : Bytes)
  /-- The input ends before it is closed. -/
  | unclosed
  /-- It holds too many open comments. -/
  | tooDeep
deriving DecidableEq, Repr

/-- Puts bytes in front of the body of a comment that is closed. -/
def Ending.after (front : Bytes) : Ending → Ending
  | closed body => closed (front ++ body)
  | unclosed => unclosed
  | tooDeep => tooDeep

/-- Reads on in a block comment that stands inside `outer` others. -/
def body (nested : Bool) : Nat → Bytes → Ending
  | _, [] => .unclosed
  | _, [_] => .unclosed
  | outer, a :: b :: rest =>
    if nested && a == Byte.slash && b == Byte.star then
      if outer + 1 < maxDepth then (body nested (outer + 1) rest).after [a, b] else .tooDeep
    else if a == Byte.star && b == Byte.slash then
      match outer with
      | 0 => .closed [a, b]
      | outer + 1 => (body nested outer rest).after [a, b]
    else (body nested outer (b :: rest)).after [a]

end Comment

end SceneTokens
