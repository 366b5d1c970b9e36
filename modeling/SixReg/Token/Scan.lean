import SixReg.Token.Basic

/-!
# Splitting a text into tokens

A text is cut into `pieces` from left to right,

    text (List Char) ──pieces──▶ List Piece ──items──▶ List (Except LexicalError Lexeme)

each of which is as long as any rule allows: a run of white space, a comment, a token, or
characters that are no token. The texts of the pieces put together are the whole text, so nothing
is lost; `items` forgets the white space and the comments, and gives every other piece its place.
A piece that is no token does not stop the cut, which goes on right after it.
-/

namespace SixReg
namespace Scan

/-- What a piece of text is. -/
inductive Kind where
  /-- White space or a comment. -/
  | blank
  | token (token : Token)
  | fault (fault : LexicalFault)
deriving DecidableEq, Repr, Inhabited

/-- A maximal piece of a text. -/
@[ext]
structure Piece where
  kind : Kind
  text : List Char
deriving DecidableEq, Repr, Inhabited

/-- The characters that separate tokens. -/
def isSpace (c : Char) : Bool := c == ' ' || c == '\t' || c == '\r' || c == '\n'

/-- The characters that start a word. -/
def isWordStart (c : Char) : Bool := c.isAlpha || c == '_'

/-- The characters that go on a word. -/
def isWordChar (c : Char) : Bool := c.isAlphanum || c == '_'

/-- Comments end in front of a line feed, and nowhere else. -/
def inComment (c : Char) : Bool := c != '\n'

/-- The token that a word is: a keyword if it is spelled like one, otherwise an identifier. -/
def wordToken (name : String) : Token :=
  match name with
  | "var" => .kwVar
  | "print" => .kwPrint
  | "if" => .kwIf
  | "else" => .kwElse
  | "while" => .kwWhile
  | "rol" => .op (.arith .rol)
  | "ror" => .op (.arith .ror)
  | _ => .ident name

/-- The number that a run of decimal digits stands for. -/
def digitsValue (digits : List Char) : Nat :=
  digits.foldl (fun value d => value * 10 + (d.toNat - '0'.toNat)) 0

/-- The kind of a run of digits. -/
def numberKind (digits : List Char) : Kind :=
  if digitsValue digits ≤ maxLiteral then .token (.number (digitsValue digits))
  else .fault .numberOutOfRange

/-- The tokens of two signs. -/
def pairToken? : Char → Char → Option Token
  | '=', '=' => some (.op (.compare .eq))
  | '!', '=' => some (.op (.compare .ne))
  | '<', '=' => some (.op (.compare .le))
  | '>', '=' => some (.op (.compare .ge))
  | '<', '<' => some (.op (.arith .shl))
  | '>', '>' => some (.op (.arith .shr))
  | _, _ => none

/-- The tokens of one sign. -/
def signToken? : Char → Option Token
  | '=' => some .assign
  | '<' => some (.op (.compare .lt))
  | '>' => some (.op (.compare .gt))
  | '+' => some (.op (.arith .add))
  | '-' => some (.op (.arith .sub))
  | '*' => some (.op (.arith .mul))
  | '/' => some (.op (.arith .div))
  | '%' => some (.op (.arith .rem))
  | '&' => some (.op (.arith .and))
  | '|' => some (.op (.arith .or))
  | '^' => some (.op (.arith .xor))
  | '~' => some .tilde
  | '\x7b' => some .openBrace
  | '\x7d' => some .closeBrace
  | '(' => some .openParen
  | ')' => some .closeParen
  | ':' => some .colon
  | ';' => some .semicolon
  | _ => none

/-- The kind of the signs at the head of `c :: cs`, and how many characters of `cs` they take. -/
def signs (c : Char) (cs : List Char) : Kind × Nat :=
  match cs.head?.bind (pairToken? c) with
  | some token => (.token token, 1)
  | none =>
    match signToken? c with
    | some token => (.token token, 0)
    | none => (.fault .unexpectedCharacter, 0)

/-- The kind of the piece at the head of `c :: cs`, and how many characters of `cs` it takes. -/
def head (c : Char) (cs : List Char) : Kind × Nat :=
  if isSpace c then
    (.blank, (cs.takeWhile isSpace).length)
  else if c == '#' || (c == '/' && cs.head? == some '/') then
    (.blank, (cs.takeWhile inComment).length)
  else if isWordStart c then
    let tail := cs.takeWhile isWordChar
    (.token (wordToken (String.ofList (c :: tail))), tail.length)
  else if c.isDigit then
    let tail := cs.takeWhile Char.isDigit
    (numberKind (c :: tail), tail.length)
  else
    signs c cs

/-- Cuts a text into its pieces. -/
def pieces : Source → List Piece
  | [] => []
  | c :: cs =>
    let (kind, n) := head c cs
    ⟨kind, c :: cs.take n⟩ :: pieces (cs.drop n)
termination_by text => text.length
decreasing_by simp only [List.length_drop, List.length_cons]; omega

/-- Nothing is lost: the texts of the pieces, put together, are the text. -/
theorem flatMap_text_pieces (source : Source) : (pieces source).flatMap Piece.text = source := by
  fun_induction pieces source with
  | case1 => rfl
  | case2 c cs kind n h ih => simp [ih]

/-- The tokens and faults among `pieces` that start at the given byte offset of `source`. -/
def locate (source : Source) : Nat → List Piece → List (Except LexicalError Lexeme)
  | _, [] => []
  | offset, piece :: rest =>
    let stop := offset + Source.byteLength piece.text
    match piece.kind with
    | .blank => locate source stop rest
    | .token token => .ok ⟨token, ⟨offset, stop⟩⟩ :: locate source stop rest
    | .fault fault =>
      .error
        { fault
          offset
          place := source.place offset
          lexeme := String.ofList piece.text
          context := source.context offset } :: locate source stop rest

end Scan

/-- Every token of a text and every fault in it, in order. -/
def scan (source : Source) : List (Except LexicalError Lexeme) :=
  Scan.locate source 0 (Scan.pieces source)

/-- The tokens of a text, or the first fault in it. -/
def tokenize (source : Source) : Except LexicalError (List Lexeme) :=
  (scan source).mapM id

end SixReg
