import SceneTokens.Quoted.Encoding

/-!
# Settings of a reader

What can be chosen about reading a scene: how string literals are encoded, and whether block
comments nest.
-/

namespace SceneTokens

/-- The choices that govern how a scene is read. -/
structure Settings where
  encoding : Encoding
  nested : Bool
deriving DecidableEq, Repr

namespace Settings

/-- The settings used if nothing else is asked for: UTF-8, and comments do not nest. -/
def standard : Settings := ⟨.standard, false⟩

end Settings

end SceneTokens
