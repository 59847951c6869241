import Mathlib.Data.List.Forall2
import SceneTokens.Proofs.Delimited
import SceneTokens.Proofs.EscapeFaults
import SceneTokens.Proofs.Units

/-!
# All spellings of a string

A character can stand in a string literal as it is, behind a backslash, by its number, or in its
standard encoding (`Grammar.Spells`). Any row of such spellings is the body of a literal, and each
of them is one unit of it, since no spelling runs on into its neighbour
(`Grammar.Spells.payloadUnit`). So a literal that spells a string, whichever way, has the string as
its value (`Tokenizer.next_of_spells`).
-/

namespace SceneTokens

namespace Grammar

/-- Bytes that stand for a character in a string literal. -/
inductive Spells : Bytes → Char → Prop
  /-- An ASCII byte that needs no protection. -/
  | plain {b : UInt8} : Byte.isAscii b = true → b ≠ Byte.quote → b ≠ Byte.backslash →
      Spells [b] (Char.ofNat b.toNat)
  /-- A backslash with a letter, or with `u` or `U` and digits. -/
  | escape {e : Bytes} {c : Char} : Escape e c → Spells e c
  /-- The standard encoding of a character outside ASCII. -/
  | encoded {c : Char} : 0x80 ≤ c.toNat → Spells (Utf8.encode c) c

/-- A spelling can stand anywhere in a literal. -/
theorem Spells.literalBody {s p : Bytes} {c : Char} (h : Spells s c) (hp : LiteralBody p) :
    LiteralBody (s ++ p) := by
  cases h with
  | plain _ hquote hbackslash => exact .plain hquote hbackslash hp
  | escape he =>
    obtain ⟨b, d, rfl, -, hd⟩ := he.shape
    exact .guarded (hp.plain_append fun x hx => (hd.isAscii x hx).2)
  | encoded hc => exact hp.outside_append (Utf8.isAscii_encode hc)

/-- Spellings can follow each other in a literal. -/
theorem literalBody_flatten {ss : List Bytes} {cs : List Char} (h : List.Forall₂ Spells ss cs) :
    LiteralBody ss.flatten := by
  induction h with
  | nil => exact .nil
  | cons hs _ ih => exact hs.literalBody ih

/-- A spelling is one unit, whatever follows it. -/
theorem Spells.payloadUnit {s : Bytes} {c : Char} (h : Spells s c) (after : Bytes) :
    PayloadUnit s (some c) after := by
  cases h with
  | plain hascii _ hbackslash => exact .ascii hascii hbackslash
  | escape he => exact .escape he
  | encoded hc => exact .encoded hc after

/-- They are the units of its payload. The induction is on the spellings, and what follows one does
not change it. -/
theorem payloadUnits_flatten {ss : List Bytes} {cs : List Char} (h : List.Forall₂ Spells ss cs) :
    PayloadUnits ss.flatten (cs.map some) [] := by
  induction h with
  | nil => exact .nil
  | cons hs _ ih => exact .cons (hs.payloadUnit _) ih

end Grammar

open Grammar

namespace Payload

/-- A row of spellings is decoded to the characters it spells. -/
theorem decode_flatten {ss : List Bytes} {cs : List Char} (h : List.Forall₂ Spells ss cs) :
    decode ss.flatten = .ok (cs.map fun c => c.toNat.toUInt16) := by
  obtain ⟨units, hdecode, hvalues⟩ := decode_of_units (payloadUnits_flatten h)
  rw [hdecode, eq_map_of_unitValue hvalues]

end Payload

/-- A string literal means the string it spells. -/
theorem Lexeme.interpret_of_spells {l : Lexeme} {ss : List Bytes} {cs : List Char}
    (h : List.Forall₂ Spells ss cs) (hcategory : l.category = .string)
    (htext : l.text = Byte.quote :: (ss.flatten ++ [Byte.quote])) (input : Option Handle)
    (words : WordTable) :
    (l.interpret input words).value = .ok (.ofString l (cs.map fun c => c.toNat.toUInt16)) := by
  have hquoted : isQuoted l.text = true := by simp [isQuoted, htext, List.getLast?_cons]
  have hpayload : payload l.text = ss.flatten := by rw [htext, payload_quoted]
  simp only [interpret, hcategory, interpretString, hquoted, if_true, hpayload,
    Payload.decode_flatten h]
  rfl

/-- A scene that starts with a literal starts with the token of the string that the literal spells,
in whichever way: one unit for each character, the code point modulo `2 ^ 16`. -/
theorem Tokenizer.next_of_spells (h : Handle) {ss : List Bytes} {cs : List Char}
    (hspells : List.Forall₂ Spells ss cs) (after : Bytes)
    (hcontent : h.content = Byte.quote :: (ss.flatten ++ [Byte.quote]) ++ after) (nested : Bool)
    (reserved : List ReservedWord) :
    let units := cs.map fun c => c.toNat.toUInt16
    let start := Tokenizer.ofVocabulary
      (Scanner.configure (Reader.ofHandle h) ⟨.utf8, nested⟩) reserved
    start.next.value = some (.ok ⟨⟨.string, Byte.quote :: (ss.flatten ++ [Byte.quote]), .start⟩,
        .stringLiteral, .stringLiteral, some (.string units)⟩) ∧
      units.map UInt16.toNat = cs.map fun c => c.toNat % 2 ^ 16 := by
  intro units start
  let l : Lexeme := ⟨.string, Byte.quote :: (ss.flatten ++ [Byte.quote]), .start⟩
  have hliteral : Literal l.text := .mk (literalBody_flatten hspells)
  have hspelled : Spelled l.category l.text after := hliteral.sole after
  have hcursor : start.scanner.cursor = some (.ofHandle h) := rfl
  have hrest : (Cursor.ofHandle h).rest = [] ++ (l.text ++ after) := hcontent
  have htext : l.text = start.scanner.settings.encoding.transcodeAll l.text :=
    (Encoding.transcodeAll_utf8 l.text).symm
  have hgap : Blanks [] := nofun
  obtain ⟨hl, -, -⟩ := Reader.next_of_spelled hcursor hrest hgap hspelled htext rfl
  constructor
  · rw [next_of_some hl]
    exact congrArg some (Lexeme.interpret_of_spells hspells rfl rfl _ _)
  · simp [units]

/-- A literal in which a character is spelled in each way, and a quote behind it:
`"a\"\u00E9é\U01d11E\\""`. -/
def Tokenizer.mixedScene : Handle :=
  ⟨0, ⟨"main", [34, 97, 92, 34, 92, 117, 48, 48, 69, 57, 0xC3, 0xA9, 92, 85, 48, 49, 100, 49, 49,
    69, 92, 92, 34, 34], by decide⟩⟩

/-- The escaped quote does not end the literal, and the quote behind it is left alone. -/
theorem Tokenizer.next_mixedScene :
    let spellings : List Bytes := [[97], [92, 34], [92, 117, 48, 48, 69, 57], Utf8.encode 'é',
      [92, 85, 48, 49, 100, 49, 49, 69], [92, 92]]
    List.Forall₂ Spells spellings ['a', '"', 'é', 'é', '𝄞', '\\'] ∧
      (Tokenizer.ofVocabulary (Scanner.configure (Reader.ofHandle mixedScene)
        ⟨.utf8, true⟩) []).next.value =
          some (.ok ⟨⟨.string, mixedScene.content.take 23, .start⟩, .stringLiteral, .stringLiteral,
            some (.string [0x61, 0x22, 0xE9, 0xE9, 0xD11E, 0x5C])⟩) := by
  intro spellings
  have hspells : List.Forall₂ Spells spellings ['a', '"', 'é', 'é', '𝄞', '\\'] :=
    .cons (.plain (b := 97) (by decide) (by decide) (by decide)) <|
    .cons (.escape (.letter (by decide))) <|
    .cons (.escape (.numeric (d := [48, 48, 69, 57]) (by decide) (by decide) (by decide))) <|
    .cons (.encoded (by decide)) <|
    .cons (.escape (.numeric (d := [48, 49, 100, 49, 49, 69]) (by decide) (by decide)
      (by decide))) <|
    .cons (.escape (.letter (by decide))) .nil
  obtain ⟨hnext, -⟩ := next_of_spells mixedScene hspells [Byte.quote] (by decide) true []
  exact ⟨hspells, hnext⟩

end SceneTokens
