/-!
# Token identities

Every token carries an identity, a number. The numbers below `TokenId.fixedCount` are fixed:
they belong to the words and symbols of the scene language and have names. Larger numbers are
minted for the words an author introduces.

The fixed identities come in an order that matters. Three families stand at its front, each a
contiguous run that ends with the marker of the family: built-ins that produce floats, built-ins
that produce vectors, and colour keywords. The expression class of an identity is the marker of
its family, and the identity itself if it is in none.
-/

namespace SceneTokens

/-- The identity of a token. -/
structure TokenId where
  raw : Nat
deriving DecidableEq, Repr

namespace TokenId

/-! ## Fixed identities -/

/-- The names of the fixed identities, in the order of their numbers. -/
def fixedNames : List String := [
  "ABS", "ACOS", "ASIN", "ATAN", "ATAN2", "CEIL", "CLOCK", "COS", "DEGREES", "DIV", "EXP",
  "FALSE", "FLOOR", "INT", "LN", "LOG", "MAX", "MIN", "MOD", "NO", "OFF", "ON", "PI", "POW",
  "RADIANS", "RAND", "SIN", "SQRT", "TAN", "TRUE", "VDOT", "VLENGTH", "YES", "FLOAT_FUNCT",
  "T", "U", "V", "VAXIS_ROTATE", "VCROSS", "VNORMALIZE", "VROTATE", "X", "Y", "Z",
  "VECTOR_FUNCT",
  "ALPHA", "BLUE", "FILTER", "GRAY", "GREEN", "RED", "RGB", "RGBF", "RGBFT", "RGBT", "SRGB",
  "TRANSMIT", "COLOUR_KEY",
  "NOT_A_TOKEN", "IDENTIFIER", "FLOAT", "STRING_LITERAL", "END_OF_FILE",
  "EXCLAMATION", "HASH", "DOLLAR", "PERCENT", "AMPERSAND", "SINGLE_QUOTE", "LEFT_PAREN",
  "RIGHT_PAREN", "STAR", "PLUS", "COMMA", "DASH", "PERIOD", "SLASH", "COLON", "SEMI_COLON",
  "LEFT_ANGLE", "EQUALS", "RIGHT_ANGLE", "QUESTION", "AT", "LEFT_SQUARE", "BACK_SLASH",
  "RIGHT_SQUARE", "HAT", "BACK_QUOTE", "LEFT_CURLY", "BAR", "RIGHT_CURLY", "TILDE", "REL_NE",
  "REL_LE", "REL_GE",
  "AMBIENT", "BOX", "CAMERA", "COLOUR", "CYLINDER", "DECLARE", "DIFFUSE", "ELSE", "END",
  "FINISH", "IF", "INCLUDE", "LIGHT_SOURCE", "LOCAL", "LOCATION", "LOOK_AT", "MACRO", "NORMAL",
  "PIGMENT", "PLANE", "ROTATE", "SCALE", "SPHERE", "TEXTURE", "TRANSLATE", "VERSION", "WHILE"]

/-! ### Built-ins that produce floats -/

def abs : TokenId := ⟨0⟩
def acos : TokenId := ⟨1⟩
def asin : TokenId := ⟨2⟩
def atan : TokenId := ⟨3⟩
def atan2 : TokenId := ⟨4⟩
def ceil : TokenId := ⟨5⟩
def clock : TokenId := ⟨6⟩
def cos : TokenId := ⟨7⟩
def degrees : TokenId := ⟨8⟩
def div : TokenId := ⟨9⟩
def exp : TokenId := ⟨10⟩
def falseWord : TokenId := ⟨11⟩
def floor : TokenId := ⟨12⟩
def int : TokenId := ⟨13⟩
def ln : TokenId := ⟨14⟩
def log : TokenId := ⟨15⟩
def max : TokenId := ⟨16⟩
def min : TokenId := ⟨17⟩
def mod : TokenId := ⟨18⟩
def no : TokenId := ⟨19⟩
def off : TokenId := ⟨20⟩
def on : TokenId := ⟨21⟩
def pi : TokenId := ⟨22⟩
def pow : TokenId := ⟨23⟩
def radians : TokenId := ⟨24⟩
def rand : TokenId := ⟨25⟩
def sin : TokenId := ⟨26⟩
def sqrt : TokenId := ⟨27⟩
def tan : TokenId := ⟨28⟩
def trueWord : TokenId := ⟨29⟩
def vdot : TokenId := ⟨30⟩
def vlength : TokenId := ⟨31⟩
def yes : TokenId := ⟨32⟩
def floatFunct : TokenId := ⟨33⟩

/-! ### Built-ins that produce vectors -/

def t : TokenId := ⟨34⟩
def u : TokenId := ⟨35⟩
def v : TokenId := ⟨36⟩
def vaxisRotate : TokenId := ⟨37⟩
def vcross : TokenId := ⟨38⟩
def vnormalize : TokenId := ⟨39⟩
def vrotate : TokenId := ⟨40⟩
def x : TokenId := ⟨41⟩
def y : TokenId := ⟨42⟩
def z : TokenId := ⟨43⟩
def vectorFunct : TokenId := ⟨44⟩

/-! ### Colour keywords -/

def alpha : TokenId := ⟨45⟩
def blue : TokenId := ⟨46⟩
def filter : TokenId := ⟨47⟩
def gray : TokenId := ⟨48⟩
def green : TokenId := ⟨49⟩
def red : TokenId := ⟨50⟩
def rgb : TokenId := ⟨51⟩
def rgbf : TokenId := ⟨52⟩
def rgbft : TokenId := ⟨53⟩
def rgbt : TokenId := ⟨54⟩
def srgb : TokenId := ⟨55⟩
def transmit : TokenId := ⟨56⟩
def colourKey : TokenId := ⟨57⟩

/-! ### Sentinels and kinds of literals -/

def notAToken : TokenId := ⟨58⟩
def identifier : TokenId := ⟨59⟩
def float : TokenId := ⟨60⟩
def stringLiteral : TokenId := ⟨61⟩
def endOfFile : TokenId := ⟨62⟩

/-! ### Symbols -/

def exclamation : TokenId := ⟨63⟩
def hash : TokenId := ⟨64⟩
def dollar : TokenId := ⟨65⟩
def percent : TokenId := ⟨66⟩
def ampersand : TokenId := ⟨67⟩
def singleQuote : TokenId := ⟨68⟩
def leftParen : TokenId := ⟨69⟩
def rightParen : TokenId := ⟨70⟩
def star : TokenId := ⟨71⟩
def plus : TokenId := ⟨72⟩
def comma : TokenId := ⟨73⟩
def dash : TokenId := ⟨74⟩
def period : TokenId := ⟨75⟩
def slash : TokenId := ⟨76⟩
def colon : TokenId := ⟨77⟩
def semiColon : TokenId := ⟨78⟩
def leftAngle : TokenId := ⟨79⟩
def equals : TokenId := ⟨80⟩
def rightAngle : TokenId := ⟨81⟩
def question : TokenId := ⟨82⟩
def atSign : TokenId := ⟨83⟩
def leftSquare : TokenId := ⟨84⟩
def backSlash : TokenId := ⟨85⟩
def rightSquare : TokenId := ⟨86⟩
def hat : TokenId := ⟨87⟩
def backQuote : TokenId := ⟨88⟩
def leftCurly : TokenId := ⟨89⟩
def bar : TokenId := ⟨90⟩
def rightCurly : TokenId := ⟨91⟩
def tilde : TokenId := ⟨92⟩
def relNe : TokenId := ⟨93⟩
def relLe : TokenId := ⟨94⟩
def relGe : TokenId := ⟨95⟩

/-! ### Other reserved words -/

def ambient : TokenId := ⟨96⟩
def box : TokenId := ⟨97⟩
def camera : TokenId := ⟨98⟩
def colour : TokenId := ⟨99⟩
def cylinder : TokenId := ⟨100⟩
def declareWord : TokenId := ⟨101⟩
def diffuse : TokenId := ⟨102⟩
def elseWord : TokenId := ⟨103⟩
def endWord : TokenId := ⟨104⟩
def finish : TokenId := ⟨105⟩
def ifWord : TokenId := ⟨106⟩
def includeWord : TokenId := ⟨107⟩
def lightSource : TokenId := ⟨108⟩
def localWord : TokenId := ⟨109⟩
def location : TokenId := ⟨110⟩
def lookAt : TokenId := ⟨111⟩
def macroWord : TokenId := ⟨112⟩
def normal : TokenId := ⟨113⟩
def pigment : TokenId := ⟨114⟩
def plane : TokenId := ⟨115⟩
def rotate : TokenId := ⟨116⟩
def scale : TokenId := ⟨117⟩
def sphere : TokenId := ⟨118⟩
def texture : TokenId := ⟨119⟩
def translate : TokenId := ⟨120⟩
def version : TokenId := ⟨121⟩
def whileWord : TokenId := ⟨122⟩

/-! ## Classes and names -/

/-- How many identities are fixed. -/
def fixedCount : Nat := 123

/-- Whether an identity is known before any scene is read. -/
def isFixed (id : TokenId) : Bool :=
  id.raw < fixedCount

/-- The class of an identity in expressions: the marker of its family, or the identity itself. -/
def expressionClass (id : TokenId) : TokenId :=
  if id.raw ≤ floatFunct.raw then floatFunct
  else if id.raw ≤ vectorFunct.raw then vectorFunct
  else if id.raw ≤ colourKey.raw then colourKey
  else id

/-- The name of a fixed identity. -/
def name? (id : TokenId) : Option String :=
  fixedNames[id.raw]?

/-- The fixed identity of a given name. -/
def ofName? (s : String) : Option TokenId :=
  (fixedNames.idxOf? s).map TokenId.mk

/-- How an identity is shown: its name, or its number if it has none. -/
def text (id : TokenId) : String :=
  match id.name? with
  | some name => name
  | none => "identifier#" ++ toString id.raw

end TokenId

end SceneTokens
