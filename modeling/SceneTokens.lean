import SceneTokens.Bytes
import SceneTokens.Input.Position
import SceneTokens.Input.Source
import SceneTokens.Utf8.Sequence
import SceneTokens.Utf8.Text
import SceneTokens.Decimal.Numeral
import SceneTokens.Decimal.Binary64
import SceneTokens.Quoted.Encoding
import SceneTokens.Quoted.Payload
import SceneTokens.Vocabulary.Identity
import SceneTokens.Vocabulary.Reserved
import SceneTokens.Vocabulary.Symbol
import SceneTokens.Vocabulary.WordTable
import SceneTokens.Lexing.Lexeme
import SceneTokens.Event
import SceneTokens.Lexing.Comment
import SceneTokens.Lexing.Piece
import SceneTokens.Lexing.Settings
import SceneTokens.Lexing.Scanner
import SceneTokens.Lexing.Reader
import SceneTokens.Lexing.Script
import SceneTokens.Input.Files
import SceneTokens.Tokens.Token
import SceneTokens.Tokens.Fault
import SceneTokens.Tokens.Meaning
import SceneTokens.Tokens.Tokenizer
import SceneTokens.Toml.Item
import SceneTokens.Toml.Text
import SceneTokens.Toml.Scalar
import SceneTokens.Toml.Document
import SceneTokens.SettingsFile
import SceneTokens.Tokens.Session
import SceneTokens.Proofs.Grammar
import SceneTokens.Proofs.Enclosed
import SceneTokens.Proofs.Numbers
import SceneTokens.Proofs.Pieces
import SceneTokens.Proofs.Course
import SceneTokens.Proofs.Reading
import SceneTokens.Proofs.Bookmarks
import SceneTokens.Proofs.Replay
import SceneTokens.Proofs.Contract
import SceneTokens.Proofs.Placement
import SceneTokens.Proofs.Escapes
import SceneTokens.Proofs.Units
import SceneTokens.Proofs.EscapeFaults
import SceneTokens.Proofs.Attachments
import SceneTokens.Proofs.Noninterference
import SceneTokens.Proofs.Cuts
import SceneTokens.Proofs.Interning
import SceneTokens.Proofs.Delimited
import SceneTokens.Proofs.Printing
import SceneTokens.Proofs.Blanking
import SceneTokens.Proofs.Concatenation
import SceneTokens.Proofs.Characters
import SceneTokens.Proofs.Spellings
import SceneTokens.Proofs.Bytewise
import SceneTokens.Proofs.Comments
import SceneTokens.Proofs.Identities
import SceneTokens.Proofs.Numerals
import SceneTokens.Proofs.Patterns
import SceneTokens.Proofs.Rounding
import SceneTokens.Proofs.Progress
import SceneTokens.Proofs.Nesting
import SceneTokens.Proofs.Tiling
import SceneTokens.Proofs.Warnings
import SceneTokens.Proofs.Directives
import SceneTokens.Proofs.Lines
import SceneTokens.Proofs.Boundaries
import SceneTokens.Proofs.Messages
import SceneTokens.Proofs.Sequences
import SceneTokens.Proofs.Decimals
import SceneTokens.Proofs.Guarded
import SceneTokens.Proofs.Counterparts
import SceneTokens.Proofs.Accesses
