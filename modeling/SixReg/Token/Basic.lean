import SixReg.Operator
import SixReg.Source.Position

/-!
# Tokens

The words of the language and what can go wrong when a text is split into them. A `Lexeme` is a
token with the span of bytes that it was read from; a `LexicalError` says which characters belong
to no token and where they stand. A text has no negative numbers, but tokens can have them.
-/

namespace SixReg

/-- A word of the language. -/
inductive Token where
  | kwVar
  | kwPrint
  | kwIf
  | kwElse
  | kwWhile
  | ident (name : String)
  | number (value : Int)
  | op (operator : BinOp)
  | assign
  | tilde
  | openBrace
  | closeBrace
  | openParen
  | closeParen
  | colon
  | semicolon
deriving DecidableEq, Repr, Inhabited

/-- How a token is shown: identifiers in quotes, numbers in decimal, all others as written. -/
def Token.display : Token → String
  | .kwVar => "var"
  | .kwPrint => "print"
  | .kwIf => "if"
  | .kwElse => "else"
  | .kwWhile => "while"
  | .ident name => s!"'{name}'"
  | .number value => toString value
  | .op operator => operator.symbol
  | .assign => "="
  | .tilde => "~"
  | .openBrace => "\x7b"
  | .closeBrace => "\x7d"
  | .openParen => "("
  | .closeParen => ")"
  | .colon => ":"
  | .semicolon => ";"

/-- A token and the bytes that it was read from. -/
structure Lexeme where
  token : Token
  span : Span
deriving DecidableEq, Repr, Inhabited

/-- Why some characters are no token. -/
inductive LexicalFault where
  /-- No token starts with the character. -/
  | unexpectedCharacter
  /-- The digits stand for a number above `maxLiteral`. -/
  | numberOutOfRange
deriving DecidableEq, Repr, Inhabited

/-- The largest number that can be written in a program, 2^63 - 1. -/
def maxLiteral : Nat := 0x7fffffffffffffff

/-- Characters that are no token, and where they stand. -/
structure LexicalError where
  fault : LexicalFault
  /-- Byte offset of the first character. -/
  offset : Nat
  place : Place
  /-- The characters themselves. -/
  lexeme : String
  /-- The line that they stand on. -/
  context : String
deriving DecidableEq, Repr, Inhabited

/-- The wording of a lexical error. -/
def LexicalError.message (e : LexicalError) : String :=
  let subject := match e.fault with
    | .unexpectedCharacter => s!"Unexpected character '{e.lexeme}'"
    | .numberOutOfRange => s!"Number literal {e.lexeme} is too large"
  s!"{subject} at line {e.place.line}, column {e.place.column}\n  Context: {e.context}"

end SixReg
