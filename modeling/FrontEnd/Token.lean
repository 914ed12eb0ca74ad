import FrontEnd.Text.Escape
import FrontEnd.Text.Utf8

/-!
# Tokens

What a lexer returns and a parser reads.

## Main Definitions

* `TokenId` — identification of a kind of token
* `Token` — a part of the input that a lexer has recognized
-/

namespace FrontEnd

/-- Identification of a kind of token.  Matches of rules with a negative one are dropped. -/
abbrev TokenId := Int

namespace TokenId

/-- The end of the input. -/
def endOfInput : TokenId := 0

/-- The kind of the rules whose matches are dropped. -/
def skip : TokenId := -1

/-- A byte that no rule matches. -/
def invalid : TokenId := 2147483647

end TokenId

/-- A part of the input that a lexer has recognized. -/
structure Token where
  id : TokenId
  userData : Nat
  /-- Offset of the first byte. -/
  start : Nat
  /-- Offset behind the last byte. -/
  stop : Nat
  /-- Lexer state after the match. -/
  state : Nat
  /-- The bytes of the part. -/
  lexeme : List UInt8
deriving DecidableEq

namespace Token

/-- The token behind the last one of an input that ends at an offset. -/
def atEnd (position : Nat) : Token := ⟨TokenId.endOfInput, 0, position, position, 0, []⟩

/-- Whether the token stands for the end of the input. -/
def isEndOfInput (t : Token) : Bool := t.id == TokenId.endOfInput

/-- Whether the token stands for a byte that no rule matches. -/
def isInvalid (t : Token) : Bool := t.id == TokenId.invalid

/-- The bytes of the token as text. -/
def text (t : Token) : String := decodeUtf8 t.lexeme

/-- The token with its bytes and offsets in a readable form. -/
def display (t : Token) : String :=
  toString t.id ++ ":\"" ++ escapeBytes t.lexeme ++ "\" @" ++ toString t.start ++ "-" ++
    toString t.stop

end Token

end FrontEnd
