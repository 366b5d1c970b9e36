import SixReg.Proofs.Computation
import SixReg.Proofs.Syntax.Stuck

/-!
# Parsers that walk over their tokens

The parsers are functions of the tokens that are left and of the number of open groups, and a group
is closed by going back to the number from before. A parser that works in place has one cursor and
one counter instead, which all of its calls share: it looks at the token under the cursor, moves on,
counts a group that it enters and discounts it when it leaves. Three things can go wrong with this
that have no place in the functions: a token may be taken from behind the end, a group may be left
that is not open, and the calls may never come to an end. `InPlace` has the parsers in this form,
and each of the three is a failure of its own there.

A walk and a parser agree (`Agrees`) if the walk ends with what the parser replies, with the cursor
in front of what the parser leaves and with as many groups open. There is a rule for each step of a
walk (`Agrees.bind`, `Agrees.peek`, `Agrees.expect`, `Agrees.group`, ...), so that no proof about a
walk has to look at the reader.
-/

namespace SixReg.Parse

/-! ## Parsers in place -/

/-- A parser under way: its tokens, the index of the next one and the number of open groups. -/
structure Reader where
  tokens : Array Lexeme
  pos : Nat
  depth : Nat

/-- Why a walk ends without a result. -/
inductive Failure where
  /-- The text is at fault. -/
  | fault (fault : ParseFault)
  /-- A token was taken from behind the last one. -/
  | outOfRange
  /-- A group was left, and none was open. -/
  | noGroup
  /-- More calls are nested than were allowed. -/
  | outOfFuel

/-- A walk over tokens. One that fails leaves the cursor and the counter as they were then. -/
abbrev InPlace := EStateM Failure Reader

namespace InPlace

/-- The token under the cursor. -/
def peek : InPlace (Option Token) := do
  let r ← get
  return r.tokens[r.pos]?.map Lexeme.token

/-- Moves on by one token, if there is one. -/
def advance : InPlace (Option Lexeme) := do
  let r ← get
  match r.tokens[r.pos]? with
  | none => return none
  | some lexeme =>
    set { r with pos := r.pos + 1 }
    return some lexeme

/-- Fails because the token under the cursor is not what is expected. -/
def unexpected {α : Type} (expected : Expected) : InPlace α := do
  throw (.fault (.unexpected (← peek) expected))

/-- Moves on behind one given token and takes its span. -/
def expect (token : Token) (expected : Expected) : InPlace Span := do
  if (← peek) ≠ some token then
    unexpected expected
  else
    modify fun r => { r with pos := r.pos + 1 }
    let r ← get
    match r.tokens[r.pos - 1]? with
    | some lexeme => return lexeme.span
    | none => throw .outOfRange

/-- Moves on behind a name. -/
def name : InPlace (String × Span) := do
  let r ← get
  match r.tokens[r.pos]? with
  | some ⟨.ident id, span⟩ =>
    set { r with pos := r.pos + 1 }
    return (id, span)
  | _ => unexpected .identifier

/-- Counts a group that is entered. -/
def enter : InPlace Unit := do
  let r ← get
  if maxNesting ≤ r.depth then
    throw (.fault .nestedTooDeeply)
  else
    set { r with depth := r.depth + 1 }

/-- Discounts a group that is left. -/
def leave : InPlace Unit := do
  let r ← get
  match r.depth with
  | 0 => throw .noGroup
  | depth + 1 => set { r with depth }

mutual

/-- Reads an atom. -/
def atom : Nat → InPlace Expr
  | 0 => throw .outOfFuel
  | fuel + 1 => do
    match ← peek with
    | some (.number value) =>
      let _ ← advance
      return .number value
    | some (.ident _) =>
      let (id, span) ← name
      return .var id span
    | some .openParen =>
      let _ ← advance
      enter
      let inner ← binary fuel 0
      let _ ← expect .closeParen .closeParen
      leave
      return inner
    | some .tilde =>
      let _ ← advance
      enter
      let operand ← atom fuel
      leave
      return .not operand
    | _ => unexpected .operand

/-- Reads an atom and the operators after it that bind at least as tightly as `level`. -/
def binary : Nat → Nat → InPlace Expr
  | 0, _ => throw .outOfFuel
  | fuel + 1, level => do
    let left ← atom fuel
    chain fuel level left

/-- Goes on from an operand, once for each operator. -/
def chain : Nat → Nat → Expr → InPlace Expr
  | 0, _, _ => throw .outOfFuel
  | fuel + 1, level, left => do
    match ← peek with
    | some (.op op) =>
      if op.level < level then
        return left
      else
        let _ ← advance
        let right ← binary fuel (op.level + 1)
        if op.isComparison then
          return .binary op left right
        else
          chain fuel level (.binary op left right)
    | _ => return left

end

/-- Reads an expression. -/
def expression (fuel : Nat) : InPlace Expr := binary fuel 0

/-- Moves on behind a token, if it is the given one. -/
def skip (token : Token) : InPlace Unit := do
  if (← peek) = some token then
    let _ ← advance
    return ()

/-- Reads a declaration, with a walk for its expression. -/
def declaration (expression : InPlace Expr) : InPlace Stmt := do
  -- The keyword was seen before, so that this cannot fail.
  let _ ← expect .kwVar .statement
  let (id, span) ← name
  let _ ← expect .assign .assign
  let value ← expression
  let _ ← expect .semicolon .semicolon
  return .declare id span value

/-- Reads a conditional, with walks for its condition and its blocks. -/
def conditional (expression : InPlace Expr) (block : InPlace Block) : InPlace Stmt := do
  let _ ← expect .kwIf .statement
  let condition ← expression
  let _ ← expect .colon .colon
  let body ← block
  if (← peek) = some .kwElse then
    let _ ← advance
    skip .colon
    return .ifElse condition body (← block)
  else
    return .ifThen condition body

mutual

/-- Reads a statement. -/
def statement : Nat → InPlace Stmt
  | 0 => throw .outOfFuel
  | fuel + 1 => do
    match ← peek with
    | some .kwVar => declaration (expression fuel)
    | some .kwPrint =>
      let _ ← advance
      let value ← expression fuel
      let _ ← expect .semicolon .semicolon
      return .print value
    | some .kwIf => conditional (expression fuel) (block fuel)
    | some .kwWhile =>
      let _ ← advance
      let condition ← expression fuel
      let _ ← expect .colon .colon
      let body ← block fuel
      return .loop condition body
    | some .openBrace => return .block (← block fuel)
    | _ => unexpected .statement

/-- Reads a block with its braces. -/
def block : Nat → InPlace Block
  | 0 => throw .outOfFuel
  | fuel + 1 => do
    let _ ← expect .openBrace .openBrace
    enter
    let body ← statements fuel
    let _ ← expect .closeBrace .closeBrace
    leave
    return body

/-- Reads statements up to a closing brace. -/
def statements : Nat → InPlace Block
  | 0 => throw .outOfFuel
  | fuel + 1 => do
    match ← peek with
    | some .closeBrace => return []
    | none => unexpected .closeBrace
    | some _ =>
      let first ← statement fuel
      let others ← statements fuel
      return first :: others

end

end InPlace

/-! ## Readers and what is left to them -/

namespace Reader

/-- The tokens from the cursor on. -/
def rest (r : Reader) : List Lexeme := r.tokens.toList.drop r.pos

/-- The reader with the cursor in front of the given tokens. -/
def goto (r : Reader) (rest : List Lexeme) : Reader := { r with pos := r.tokens.size - rest.length }

/-- The reader at the point where a parser is stuck. -/
def stopAt (r : Reader) (stuck : Stuck) : Reader := { r.goto stuck.rest with depth := stuck.depth }

/-- The reader in one more group. -/
def entered (r : Reader) : Reader := { r with depth := r.depth + 1 }

/-- The cursor and the counter are within their bounds, and the given tokens are left. -/
structure Has (r : Reader) (tokens : List Lexeme) : Prop where
  pos_le : r.pos ≤ r.tokens.size
  depth_le : r.depth ≤ maxNesting
  rest_eq : r.rest = tokens

namespace Has

variable {r : Reader} {lexeme : Lexeme} {tokens rest : List Lexeme}

theorem length_eq (h : r.Has tokens) : tokens.length = r.tokens.size - r.pos := by
  rw [← h.rest_eq, Reader.rest, List.length_drop, Array.length_toList]

theorem goto_self (h : r.Has tokens) : r.goto tokens = r := by
  have hpos : r.tokens.size - tokens.length = r.pos := by
    have := h.pos_le
    rw [h.length_eq]
    omega
  rw [Reader.goto, hpos]

/-- From any end of the tokens on, those are what is left. -/
theorem goto (h : r.Has tokens) (hrest : rest <:+ tokens) : (r.goto rest).Has rest := by
  have hsuffix : rest <:+ r.tokens.toList :=
    (h.rest_eq ▸ hrest).trans (List.drop_suffix r.pos r.tokens.toList)
  refine ⟨Nat.sub_le _ _, h.depth_le, ?_⟩
  rw [Reader.rest, Reader.goto, ← Array.length_toList]
  exact (List.suffix_iff_eq_drop.mp hsuffix).symm

theorem getElem?_pos (h : r.Has tokens) : r.tokens[r.pos]? = tokens.head? := by
  rw [← h.rest_eq, Reader.rest, List.head?_drop, Array.getElem?_toList]

theorem entered (h : r.Has tokens) (hdepth : r.depth < maxNesting) : r.entered.Has tokens :=
  ⟨h.pos_le, hdepth, h.rest_eq⟩

theorem goto_tail (h : r.Has (lexeme :: rest)) : { r with pos := r.pos + 1 } = r.goto rest := by
  have hlength := h.length_eq
  rw [List.length_cons] at hlength
  have hpos : r.tokens.size - rest.length = r.pos + 1 := by omega
  rw [Reader.goto, hpos]

end Has

/-- How a walk ends if it does what a parser replies. -/
def settle {n : Nat} {α : Type} (r : Reader) (reply : Reply n α) :
    EStateM.Result Failure Reader α :=
  match reply with
  | .ok value rest _ => .ok value (r.goto rest)
  | .error stuck => .error (.fault stuck.fault) (r.stopAt stuck)

end Reader

/-! ## The steps of a walk -/

namespace Reader.Has

variable {α : Type} {r : Reader} {lexeme : Lexeme} {tokens rest : List Lexeme} {token : Token}
  {expected : Expected}

theorem peek_apply (h : r.Has tokens) : InPlace.peek r = .ok (Parse.peek tokens) r := by
  rw [Parse.peek, ← h.getElem?_pos]
  rfl

theorem advance_apply (h : r.Has (lexeme :: rest)) :
    InPlace.advance r = .ok (some lexeme) (r.goto rest) := by
  rw [InPlace.advance, EStateM.get_bind, h.getElem?_pos, ← h.goto_tail]
  rfl

theorem skip_apply {span : Span} (h : r.Has (⟨token, span⟩ :: rest)) :
    InPlace.skip token r = .ok () (r.goto rest) := by
  have hpeek : Parse.peek (⟨token, span⟩ :: rest) = some token := rfl
  rw [InPlace.skip, EStateM.bind_of_ok h.peek_apply, if_pos hpeek,
    EStateM.bind_of_ok h.advance_apply]
  rfl

theorem unexpected_apply (h : r.Has tokens) :
    (InPlace.unexpected expected : InPlace α) r =
      .error (.fault (.unexpected (Parse.peek tokens) expected)) r := by
  rw [InPlace.unexpected, EStateM.bind_of_ok h.peek_apply]
  rfl

theorem name_apply {id : String} {span : Span} (h : r.Has (⟨.ident id, span⟩ :: rest)) :
    InPlace.name r = .ok (id, span) (r.goto rest) := by
  rw [InPlace.name, EStateM.get_bind, h.getElem?_pos, ← h.goto_tail]
  rfl

theorem expect_apply (h : r.Has (lexeme :: rest)) :
    InPlace.expect lexeme.token expected r = .ok lexeme.span (r.goto rest) := by
  have hpeek : Parse.peek (lexeme :: rest) = some lexeme.token := rfl
  have hmove : (modify fun r => { r with pos := r.pos + 1 } : InPlace PUnit) r =
      .ok () (r.goto rest) := by
    rw [← h.goto_tail]
    rfl
  -- The token that is taken is the one that was under the cursor before.
  have hindex : (r.goto rest).tokens[(r.goto rest).pos - 1]? = some lexeme := by
    rw [← h.goto_tail, Nat.add_sub_cancel]
    exact h.getElem?_pos
  rw [InPlace.expect, EStateM.bind_of_ok h.peek_apply, if_neg (not_not_intro hpeek),
    EStateM.bind_of_ok hmove, EStateM.get_bind, hindex]
  rfl

theorem expect_apply_of_ne (h : r.Has tokens) (hne : Parse.peek tokens ≠ some token) :
    InPlace.expect token expected r =
      .error (.fault (.unexpected (Parse.peek tokens) expected)) r := by
  rw [InPlace.expect, EStateM.bind_of_ok h.peek_apply, if_pos hne, h.unexpected_apply]

end Reader.Has

/-! ## Walks that agree with a parser -/

/-- What a parser leaves of the tokens it was given is an end of them. It closes all groups that it
opens, unless it is stuck: then some may be open, but not too many. -/
def Reply.Keeps {n : Nat} {α : Type} (depth : Nat) (tokens : List Lexeme) : Reply n α → Prop
  | .ok _ rest _ => rest <:+ tokens
  | .error stuck => stuck.rest <:+ tokens ∧ depth ≤ stuck.depth ∧ stuck.depth ≤ maxNesting

/-- The walk does, from where the reader is, what the parser replies. -/
structure Agrees {n : Nat} {α : Type} (x : InPlace α) (r : Reader) (reply : Reply n α) : Prop where
  run : x r = r.settle reply
  keeps : reply.Keeps r.depth r.rest

namespace Agrees

variable {m n : Nat} {α β : Type} {r : Reader} {lexeme : Lexeme} {tokens rest : List Lexeme}
  {token : Token} {expected : Expected} {x y : InPlace α} {reply : Reply n α}

theorem congr (h : Agrees y r reply) (hrun : x r = y r) : Agrees x r reply :=
  ⟨hrun.trans h.run, h.keeps⟩

/-- A walk goes on from a later point, and only the cursor has moved. -/
theorem shift (h : r.Has tokens) (hrest : rest <:+ tokens) (hrun : x r = y (r.goto rest))
    (hy : Agrees y (r.goto rest) reply) : Agrees x r reply := by
  refine ⟨hrun.trans hy.run, ?_⟩
  have hkeeps := hy.keeps
  rw [(h.goto hrest).rest_eq] at hkeeps
  rw [h.rest_eq]
  cases reply with
  | ok value rest' short => exact List.IsSuffix.trans hkeeps hrest
  | error stuck => exact ⟨hkeeps.1.trans hrest, hkeeps.2⟩

theorem bind {x : InPlace β} {f : β → InPlace α} {reply : Reply m β}
    {next : β → (rest : List Lexeme) → rest.length < m → Reply n α}
    (h : r.Has tokens) (hx : Agrees x r reply)
    (hf : ∀ value rest short, (r.goto rest).Has rest →
      Agrees (f value) (r.goto rest) (next value rest short)) :
    Agrees (x >>= f) r (reply.bind next) := by
  cases reply with
  | error stuck => exact ⟨EStateM.bind_of_error hx.run, hx.keeps⟩
  | ok value rest short =>
      have hrest : rest <:+ tokens := h.rest_eq ▸ hx.keeps
      exact shift h hrest (EStateM.bind_of_ok hx.run) (hf value rest short (h.goto hrest))

/-- A walk goes on behind the token under the cursor. -/
theorem step {x : InPlace β} {value : β} {f : β → InPlace α} (h : r.Has (lexeme :: rest))
    (hx : x r = .ok value (r.goto rest))
    (hf : (r.goto rest).Has rest → Agrees (f value) (r.goto rest) reply) :
    Agrees (x >>= f) r reply := by
  have hrest : rest <:+ lexeme :: rest := List.suffix_cons lexeme rest
  exact shift h hrest (EStateM.bind_of_ok hx) (hf (h.goto hrest))

theorem pure {value : α} {short : tokens.length < n} (h : r.Has tokens) :
    Agrees (Pure.pure value) r (.ok value tokens short) := by
  refine ⟨?_, ?_⟩
  · rw [Reader.settle, h.goto_self]
    rfl
  · show tokens <:+ r.rest
    exact h.rest_eq ▸ List.suffix_rfl

theorem ite {c : Prop} [Decidable c] {reply' : Reply n α} (hx : c → Agrees x r reply)
    (hy : ¬c → Agrees y r reply') :
    Agrees (if c then x else y) r (if c then reply else reply') := by
  by_cases h : c
  · rw [if_pos h, if_pos h]
    exact hx h
  · rw [if_neg h, if_neg h]
    exact hy h

/-- The bound on what is left plays no part in a walk. -/
theorem weaken {reply : Reply m α}
    {short' : ∀ (_ : α) (rest : List Lexeme), rest.length < m → rest.length < n}
    (hx : Agrees x r reply) :
    Agrees x r (reply.bind fun value rest short => .ok value rest (short' value rest short)) := by
  cases reply with
  | error stuck => exact ⟨hx.run, hx.keeps⟩
  | ok value rest short => exact ⟨hx.run, hx.keeps⟩

theorem peek {f : Option Token → InPlace α} (h : r.Has tokens)
    (hf : Agrees (f (Parse.peek tokens)) r reply) : Agrees (InPlace.peek >>= f) r reply :=
  hf.congr (EStateM.bind_of_ok h.peek_apply)

/-- A token that is not there is not skipped. -/
theorem skip_of_ne {f : Unit → InPlace α} (h : r.Has tokens)
    (hne : Parse.peek tokens ≠ some token) (hf : Agrees (f ()) r reply) :
    Agrees (InPlace.skip token >>= f) r reply := by
  have hstep : InPlace.skip token r = .ok () r := by
    rw [InPlace.skip, EStateM.bind_of_ok h.peek_apply, if_neg hne]
    rfl
  exact hf.congr (EStateM.bind_of_ok hstep)

theorem unexpected (h : r.Has tokens) :
    Agrees (InPlace.unexpected expected : InPlace α) r
      (Parse.unexpected r.depth expected tokens : Reply n α) := by
  refine ⟨?_, ?_⟩
  · rw [h.unexpected_apply, Parse.unexpected, Reader.settle, Reader.stopAt, h.goto_self]
    rfl
  · rw [h.rest_eq]
    exact ⟨List.suffix_rfl, Nat.le_refl _, h.depth_le⟩

theorem expect {f : Span → InPlace α}
    {next : Unit → (rest : List Lexeme) → rest.length < tokens.length → Reply n α}
    (h : r.Has tokens)
    (hf : ∀ span rest short, (r.goto rest).Has rest →
      Agrees (f span) (r.goto rest) (next () rest short)) :
    Agrees (InPlace.expect token expected >>= f) r
      ((Parse.expect r.depth token expected tokens).bind next) := by
  by_cases hpeek : Parse.peek tokens = some token
  · obtain ⟨span, rest, rfl⟩ := peek_eq_some.mp hpeek
    rw [Parse.expect, if_pos rfl]
    exact Agrees.step h h.expect_apply (hf span rest (Nat.lt_succ_self _))
  · have hreply : Parse.expect r.depth token expected tokens =
        Parse.unexpected r.depth expected tokens := by
      cases tokens with
      | nil => rfl
      | cons lexeme rest => exact if_neg fun hlexeme => hpeek (congrArg some hlexeme)
    rw [hreply]
    refine (Agrees.unexpected h).congr ?_
    rw [EStateM.bind_of_error (h.expect_apply_of_ne hpeek), h.unexpected_apply]

theorem name (h : r.Has tokens) : Agrees InPlace.name r (Parse.name r.depth tokens) := by
  have hstep : InPlace.name r = _ := EStateM.get_bind _ r
  rw [h.getElem?_pos] at hstep
  cases tokens with
  | nil => exact (Agrees.unexpected h).congr hstep
  | cons lexeme rest =>
      obtain ⟨token, span⟩ := lexeme
      cases token with
      | ident id =>
          have hrest : rest <:+ ⟨.ident id, span⟩ :: rest := List.suffix_cons _ rest
          exact shift h hrest h.name_apply (Agrees.pure (h.goto hrest))
      | _ => exact (Agrees.unexpected h).congr hstep

/-- A walk through a group counts it and discounts it again. One that is stuck within leaves it
open. -/
theorem group (h : r.Has tokens) (hx : r.entered.Has tokens → Agrees x r.entered reply) :
    Agrees (do InPlace.enter; let value ← x; InPlace.leave; return value) r
      (if r.depth < maxNesting then reply else .error ⟨.nestedTooDeeply, tokens, r.depth⟩) := by
  by_cases hdepth : r.depth < maxNesting
  · have henter : InPlace.enter r = .ok () r.entered := by
      rw [InPlace.enter, EStateM.get_bind, if_neg (Nat.not_le_of_lt hdepth)]
      rfl
    have hx := hx (h.entered hdepth)
    rw [if_pos hdepth]
    cases reply with
    | error stuck =>
        refine ⟨?_, hx.keeps.1, Nat.le_of_succ_le hx.keeps.2.1, hx.keeps.2.2⟩
        rw [EStateM.bind_of_ok henter, EStateM.bind_of_error hx.run]
        rfl
    | ok value rest short =>
        refine ⟨?_, hx.keeps⟩
        rw [EStateM.bind_of_ok henter, EStateM.bind_of_ok hx.run]
        rfl
  · have henter : InPlace.enter r = .error (.fault .nestedTooDeeply) r := by
      rw [InPlace.enter, EStateM.get_bind, if_pos (Nat.le_of_not_lt hdepth)]
      rfl
    rw [if_neg hdepth]
    refine ⟨?_, ?_⟩
    · rw [EStateM.bind_of_error henter, Reader.settle, Reader.stopAt, h.goto_self]
    · rw [h.rest_eq]
      exact ⟨List.suffix_rfl, Nat.le_refl _, h.depth_le⟩

end Agrees

end SixReg.Parse
