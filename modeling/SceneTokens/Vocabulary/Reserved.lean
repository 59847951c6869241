import SceneTokens.Bytes
import SceneTokens.Vocabulary.Identity

/-!
# Reserved words

The vocabulary of the scene language lists a name and an identity for every word, and also for
some symbols and for descriptions such as `end of file`, which no scene can spell as a word.
`ReservedWord.isWord` tells the words from the others.
-/

namespace SceneTokens

/-- An entry of the vocabulary. -/
structure ReservedWord where
  name : String
  id : TokenId
deriving DecidableEq, Repr

namespace ReservedWord

/-- The name as it stands in a scene. -/
def bytes (w : ReservedWord) : Bytes :=
  Bytes.ofString w.name

/-- Whether an entry is a word: it starts with a letter and holds no space. -/
def isWord (w : ReservedWord) : Bool :=
  w.bytes.head?.any Byte.isLetter && !w.bytes.contains Byte.space

/-- The vocabulary of the scene language. -/
def builtIn : List ReservedWord := [
  ⟨"!=", .relNe⟩,
  ⟨"#", .hash⟩,
  ⟨"<=", .relLe⟩,
  ⟨">=", .relGe⟩,
  ⟨"abs", .abs⟩,
  ⟨"acos", .acos⟩,
  ⟨"alpha", .alpha⟩,
  ⟨"ambient", .ambient⟩,
  ⟨"asin", .asin⟩,
  ⟨"atan", .atan⟩,
  ⟨"atan2", .atan2⟩,
  ⟨"blue", .blue⟩,
  ⟨"box", .box⟩,
  ⟨"camera", .camera⟩,
  ⟨"ceil", .ceil⟩,
  ⟨"clock", .clock⟩,
  ⟨"color", .colour⟩,
  ⟨"colour", .colour⟩,
  ⟨"cos", .cos⟩,
  ⟨"cylinder", .cylinder⟩,
  ⟨"declare", .declareWord⟩,
  ⟨"degrees", .degrees⟩,
  ⟨"diffuse", .diffuse⟩,
  ⟨"div", .div⟩,
  ⟨"else", .elseWord⟩,
  ⟨"end", .endWord⟩,
  ⟨"end of file", .endOfFile⟩,
  ⟨"exp", .exp⟩,
  ⟨"false", .falseWord⟩,
  ⟨"filter", .filter⟩,
  ⟨"finish", .finish⟩,
  ⟨"float constant", .float⟩,
  ⟨"floor", .floor⟩,
  ⟨"gray", .gray⟩,
  ⟨"green", .green⟩,
  ⟨"grey", .gray⟩,
  ⟨"if", .ifWord⟩,
  ⟨"include", .includeWord⟩,
  ⟨"int", .int⟩,
  ⟨"light_source", .lightSource⟩,
  ⟨"ln", .ln⟩,
  ⟨"local", .localWord⟩,
  ⟨"location", .location⟩,
  ⟨"log", .log⟩,
  ⟨"look_at", .lookAt⟩,
  ⟨"macro", .macroWord⟩,
  ⟨"max", .max⟩,
  ⟨"min", .min⟩,
  ⟨"mod", .mod⟩,
  ⟨"no", .no⟩,
  ⟨"normal", .normal⟩,
  ⟨"off", .off⟩,
  ⟨"on", .on⟩,
  ⟨"pi", .pi⟩,
  ⟨"pigment", .pigment⟩,
  ⟨"plane", .plane⟩,
  ⟨"pow", .pow⟩,
  ⟨"radians", .radians⟩,
  ⟨"rand", .rand⟩,
  ⟨"red", .red⟩,
  ⟨"rgb", .rgb⟩,
  ⟨"rgbf", .rgbf⟩,
  ⟨"rgbft", .rgbft⟩,
  ⟨"rgbt", .rgbt⟩,
  ⟨"rotate", .rotate⟩,
  ⟨"scale", .scale⟩,
  ⟨"sin", .sin⟩,
  ⟨"sphere", .sphere⟩,
  ⟨"sqrt", .sqrt⟩,
  ⟨"srgb", .srgb⟩,
  ⟨"string literal", .stringLiteral⟩,
  ⟨"t", .t⟩,
  ⟨"tan", .tan⟩,
  ⟨"texture", .texture⟩,
  ⟨"translate", .translate⟩,
  ⟨"transmit", .transmit⟩,
  ⟨"true", .trueWord⟩,
  ⟨"u", .u⟩,
  ⟨"v", .v⟩,
  ⟨"vaxis_rotate", .vaxisRotate⟩,
  ⟨"vcross", .vcross⟩,
  ⟨"vdot", .vdot⟩,
  ⟨"version", .version⟩,
  ⟨"vlength", .vlength⟩,
  ⟨"vnormalize", .vnormalize⟩,
  ⟨"vrotate", .vrotate⟩,
  ⟨"while", .whileWord⟩,
  ⟨"x", .x⟩,
  ⟨"y", .y⟩,
  ⟨"yes", .yes⟩,
  ⟨"z", .z⟩]

end ReservedWord

end SceneTokens
