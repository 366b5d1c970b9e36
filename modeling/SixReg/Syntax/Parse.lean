import SixReg.Syntax.Basic
import SixReg.Token.Scan

/-!
# From tokens to trees

A recursive-descent parser for

    statement  = "var" name "=" expression ";" | "print" expression ";" | block
               | "if" expression ":" block ("else" ":"? block)? | "while" expression ":" block
    block      = "{" statement* "}"
    expression = atom (operator expression)*      with the levels of `BinOp.level`
    atom       = number | name | "(" expression ")" | "~" atom

Every parser is given the tokens that are left and the number of groups that are open around
them; braces, parentheses and complements are groups, and at most `maxNesting` may be open. It
replies with what it read and what is then left, which is shorter. The mutual recursion ends
because every call either shortens the tokens or steps down from a rule to the one inside it. A
parser that is stuck replies with the tokens and the nesting at that moment, which is where a
`Cursor` then stands.
-/

namespace SixReg

/-- How many groups may be open at once. -/
def maxNesting : Nat := 256

/-- What the grammar asks for at some point. -/
inductive Expected where
  | identifier
  | operand
  | statement
  | assign
  | semicolon
  | colon
  | openBrace
  | closeBrace
  | closeParen
deriving DecidableEq, Repr, Inhabited

namespace Expected

/-- How an error message names what was asked for. -/
def describe : Expected → String
  | .identifier => "identifier"
  | .operand => "number, identifier, '(' or '~'"
  | .statement => "a statement"
  | .assign => "'='"
  | .semicolon => "';'"
  | .colon => "':'"
  | .openBrace => "'\x7b'"
  | .closeBrace => "'\x7d'"
  | .closeParen => "')'"

end Expected

/-- Why a parser cannot go on. -/
inductive ParseFault where
  /-- The next token, if there is one, is not what the grammar asks for. -/
  | unexpected (found : Option Token) (expected : Expected)
  /-- One more group would be open than `maxNesting`. -/
  | nestedTooDeeply
deriving DecidableEq, Repr, Inhabited

/-- The wording of a fault. -/
def ParseFault.message : ParseFault → String
  | .unexpected (some token) expected =>
    s!"Unexpected token '{token.display}'. Expected {expected.describe}"
  | .unexpected none expected => s!"Unexpected end of input. Expected {expected.describe}"
  | .nestedTooDeeply => s!"Input nested too deeply (limit {maxNesting})"

/-- A fault and where in the text it was met. -/
structure ParseError where
  place : Place
  /-- The line of that place. -/
  context : String
  fault : ParseFault
deriving DecidableEq, Repr, Inhabited

/-- The wording of a parse error. -/
def ParseError.message (e : ParseError) : String :=
  s!"Parse error ({e.place.line}:{e.place.column}) - {e.fault.message}\n  Context: {e.context}"

namespace Parse

/-- Where and why a parser is stuck. -/
structure Stuck where
  fault : ParseFault
  /-- The tokens that are left, the offending one first. -/
  rest : List Lexeme
  /-- The number of open groups. -/
  depth : Nat
deriving DecidableEq, Repr, Inhabited

/-- A parser's reply: a value together with fewer than `n` tokens that are left, or the point where
it is stuck. -/
inductive Reply (n : Nat) (α : Type) where
  | ok (value : α) (rest : List Lexeme) (short : rest.length < n)
  | error (stuck : Stuck)

namespace Reply

/-- Goes on with the tokens that are left. -/
def bind {m n : Nat} {α β : Type} (reply : Reply m α)
    (next : α → (rest : List Lexeme) → rest.length < m → Reply n β) : Reply n β :=
  match reply with
  | .ok value rest short => next value rest short
  | .error stuck => .error stuck

@[simp]
theorem bind_ok {m n : Nat} {α β : Type} (value : α) (rest : List Lexeme) (short : rest.length < m)
    (next : α → (rest : List Lexeme) → rest.length < m → Reply n β) :
    (Reply.ok value rest short).bind next = next value rest short := rfl

@[simp]
theorem bind_error {m n : Nat} {α β : Type} (stuck : Stuck)
    (next : α → (rest : List Lexeme) → rest.length < m → Reply n β) :
    (Reply.error stuck : Reply m α).bind next = .error stuck := rfl

end Reply

/-- Stuck because the next token is not what is expected. -/
def unexpected {n : Nat} {α : Type} (depth : Nat) (expected : Expected) (tokens : List Lexeme) :
    Reply n α :=
  .error ⟨.unexpected (tokens.head?.map Lexeme.token) expected, tokens, depth⟩

/-- Reads one given token. -/
def expect (depth : Nat) (token : Token) (expected : Expected) (tokens : List Lexeme) :
    Reply tokens.length Unit :=
  match tokens with
  | [] => unexpected depth expected []
  | lexeme :: rest =>
    if lexeme.token = token then .ok () rest (Nat.lt_succ_self _)
    else unexpected depth expected (lexeme :: rest)

/-- Reads a name. -/
def name (depth : Nat) (tokens : List Lexeme) : Reply tokens.length (String × Span) :=
  match tokens with
  | ⟨.ident id, span⟩ :: rest => .ok (id, span) rest (Nat.lt_succ_self _)
  | tokens => unexpected depth .identifier tokens

mutual

/-- Reads an atom. -/
def atom (depth : Nat) (tokens : List Lexeme) : Reply tokens.length Expr :=
  match tokens with
  | ⟨.number value, _⟩ :: rest => .ok (.number value) rest (Nat.lt_succ_self _)
  | ⟨.ident id, span⟩ :: rest => .ok (.var id span) rest (Nat.lt_succ_self _)
  | ⟨.openParen, _⟩ :: rest =>
    if depth < maxNesting then
      (binary (depth + 1) 0 rest).bind fun inner rest _ =>
      (expect (depth + 1) .closeParen .closeParen rest).bind fun _ rest _ =>
        .ok inner rest (by simp only [List.length_cons]; omega)
    else .error ⟨.nestedTooDeeply, rest, depth⟩
  | ⟨.tilde, _⟩ :: rest =>
    if depth < maxNesting then
      (atom (depth + 1) rest).bind fun operand rest _ =>
        .ok (.not operand) rest (by simp only [List.length_cons]; omega)
    else .error ⟨.nestedTooDeeply, rest, depth⟩
  | tokens => unexpected depth .operand tokens
termination_by 2 * tokens.length
decreasing_by all_goals simp only [List.length_cons] at *; omega

/-- Reads an atom and the operators after it that bind at least as tightly as `level`. -/
def binary (depth level : Nat) (tokens : List Lexeme) : Reply tokens.length Expr :=
  (atom depth tokens).bind fun left rest _ =>
  (chain depth level left rest).bind fun whole rest _ =>
    .ok whole rest (by omega)
termination_by 2 * tokens.length + 1
decreasing_by all_goals omega

/-- Goes on from the operand `left` with every operator that binds at least as tightly as `level`.
A comparison ends the chain. -/
def chain (depth level : Nat) (left : Expr) (tokens : List Lexeme) :
    Reply (tokens.length + 1) Expr :=
  match tokens with
  | ⟨.op op, span⟩ :: rest =>
    if op.level < level then .ok left (⟨.op op, span⟩ :: rest) (Nat.lt_succ_self _)
    else
      (binary depth (op.level + 1) rest).bind fun right rest _ =>
        if op.isComparison then
          .ok (.binary op left right) rest (by simp only [List.length_cons]; omega)
        else
          (chain depth level (.binary op left right) rest).bind fun whole rest _ =>
            .ok whole rest (by simp only [List.length_cons]; omega)
  | tokens => .ok left tokens (Nat.lt_succ_self _)
termination_by 2 * tokens.length
decreasing_by all_goals simp only [List.length_cons] at *; omega

end

/-- Reads an expression. -/
def expression (depth : Nat) (tokens : List Lexeme) : Reply tokens.length Expr :=
  binary depth 0 tokens

mutual

/-- Reads a statement. -/
def statement (depth : Nat) (tokens : List Lexeme) : Reply tokens.length Stmt :=
  match tokens with
  | ⟨.kwVar, _⟩ :: rest =>
    (name depth rest).bind fun target rest _ =>
    (expect depth .assign .assign rest).bind fun _ rest _ =>
    (expression depth rest).bind fun value rest _ =>
    (expect depth .semicolon .semicolon rest).bind fun _ rest _ =>
      .ok (.declare target.1 target.2 value) rest (by simp only [List.length_cons]; omega)
  | ⟨.kwPrint, _⟩ :: rest =>
    (expression depth rest).bind fun value rest _ =>
    (expect depth .semicolon .semicolon rest).bind fun _ rest _ =>
      .ok (.print value) rest (by simp only [List.length_cons]; omega)
  | ⟨.kwIf, _⟩ :: rest =>
    (expression depth rest).bind fun condition rest _ =>
    (expect depth .colon .colon rest).bind fun _ rest _ =>
    (block depth rest).bind fun body rest _ =>
      match rest with
      | ⟨.kwElse, _⟩ :: ⟨.colon, _⟩ :: rest =>
        (block depth rest).bind fun other rest _ =>
          .ok (.ifElse condition body other) rest (by simp only [List.length_cons] at *; omega)
      | ⟨.kwElse, _⟩ :: rest =>
        (block depth rest).bind fun other rest _ =>
          .ok (.ifElse condition body other) rest (by simp only [List.length_cons] at *; omega)
      | rest => .ok (.ifThen condition body) rest (by simp only [List.length_cons] at *; omega)
  | ⟨.kwWhile, _⟩ :: rest =>
    (expression depth rest).bind fun condition rest _ =>
    (expect depth .colon .colon rest).bind fun _ rest _ =>
    (block depth rest).bind fun body rest _ =>
      .ok (.loop condition body) rest (by simp only [List.length_cons]; omega)
  | ⟨.openBrace, span⟩ :: rest =>
    (block depth (⟨.openBrace, span⟩ :: rest)).bind fun body rest short =>
      .ok (.block body) rest short
  | tokens => unexpected depth .statement tokens
termination_by 3 * tokens.length + 1
decreasing_by all_goals simp only [List.length_cons] at *; omega

/-- Reads a block with its braces. -/
def block (depth : Nat) (tokens : List Lexeme) : Reply tokens.length Block :=
  (expect depth .openBrace .openBrace tokens).bind fun _ rest _ =>
    if depth < maxNesting then
      (blockEnd (depth + 1) rest).bind fun body rest _ => .ok body rest (by omega)
    else .error ⟨.nestedTooDeeply, rest, depth⟩
termination_by 3 * tokens.length
decreasing_by all_goals omega

/-- Reads the statements of a block and its closing brace. -/
def blockEnd (depth : Nat) (tokens : List Lexeme) : Reply tokens.length Block :=
  match tokens with
  | [] => unexpected depth .closeBrace []
  | ⟨.closeBrace, _⟩ :: rest => .ok [] rest (Nat.lt_succ_self _)
  | tokens =>
    (statement depth tokens).bind fun first rest _ =>
    (blockEnd depth rest).bind fun others rest _ => .ok (first :: others) rest (by omega)
termination_by 3 * tokens.length + 2
decreasing_by all_goals omega

end

/-- Reads statements up to the last token. -/
def program (depth : Nat) (tokens : List Lexeme) : Except Stuck Program :=
  match tokens with
  | [] => .ok []
  | lexeme :: tokens =>
    match statement depth (lexeme :: tokens) with
    | .error stuck => .error stuck
    | .ok first rest _ =>
      match program depth rest with
      | .error stuck => .error stuck
      | .ok others => .ok (first :: others)
termination_by tokens.length
decreasing_by simp only [List.length_cons] at *; omega

end Parse

/-- A text that is being parsed: the tokens that are left and the number of open groups. -/
structure Cursor where
  source : Source
  rest : List Lexeme
  depth : Nat
deriving DecidableEq, Repr, Inhabited

namespace Cursor

/-- Starts on the tokens of a text. -/
def start (source : Source) (tokens : List Lexeme) : Cursor := ⟨source, tokens, 0⟩

/-- The byte offset of the next token, or the end of the text. -/
def offset (cursor : Cursor) : Nat :=
  match cursor.rest with
  | [] => cursor.source.byteLength
  | lexeme :: _ => lexeme.span.start

/-- The error for a fault that was met at the cursor. -/
def fail (cursor : Cursor) (fault : ParseFault) : ParseError where
  place := cursor.source.place cursor.offset
  context := cursor.source.context cursor.offset
  fault

/-- The cursor at the point where a parser is stuck. -/
def stuckAt (cursor : Cursor) (stuck : Parse.Stuck) : Cursor :=
  { cursor with rest := stuck.rest, depth := stuck.depth }

/-- Reads one expression. After an error the cursor stays at the offending token, with the groups
open that were open there. -/
def expression (cursor : Cursor) : Except ParseError Expr × Cursor :=
  match Parse.expression cursor.depth cursor.rest with
  | .ok value rest _ => (.ok value, { cursor with rest })
  | .error stuck => (.error ((cursor.stuckAt stuck).fail stuck.fault), cursor.stuckAt stuck)

/-- Reads statements up to the end of the text. -/
def program (cursor : Cursor) : Except ParseError Program :=
  match Parse.program cursor.depth cursor.rest with
  | .ok statements => .ok statements
  | .error stuck => .error ((cursor.stuckAt stuck).fail stuck.fault)

end Cursor

end SixReg
