import SixReg.Proofs.Syntax.Walk

/-!
# The cursor and the counter of a parser

Every walk does what the parser of the same name replies (`expression_agrees`, `statement_agrees`,
`block_agrees`), if calls may be nested up to a bound in proportion to the tokens that are left; it
is the measure by which the parsers end. So nothing goes wrong that can go wrong in place only, and
the cursor and the counter are in order after every call, whatever calls came before it
(`cursor_discipline`).
-/

namespace SixReg.Parse

/-! ## Every walk agrees with its parser -/

mutual

theorem atom_agrees (fuel : Nat) {r : Reader} {tokens : List Lexeme} (h : r.Has tokens)
    (hfuel : 2 * tokens.length + 1 ≤ fuel) :
    Agrees (InPlace.atom fuel) r (atom r.depth tokens) := by
  cases fuel with
  | zero => omega
  | succ fuel =>
      rw [InPlace.atom]
      unfold atom
      refine Agrees.peek h ?_
      cases tokens with
      | nil => exact Agrees.unexpected h
      | cons lexeme rest =>
          obtain ⟨token, span⟩ := lexeme
          rw [List.length_cons] at hfuel
          cases token with
          | number value => exact Agrees.step h h.advance_apply Agrees.pure
          | ident id => exact Agrees.step h h.name_apply Agrees.pure
          | openParen =>
              refine Agrees.step h h.advance_apply fun h => ?_
              -- All that stands between `enter` and `leave` is one walk.
              refine (Agrees.group (x := do
                let inner ← InPlace.binary fuel 0
                let _ ← InPlace.expect .closeParen .closeParen
                return inner) h fun h => ?_).congr ?_
              · exact Agrees.bind h (binary_agrees fuel 0 h (by omega)) fun inner _ _ h =>
                  Agrees.expect h fun _ _ _ => Agrees.pure
              · simp only [bind_assoc, pure_bind]
          | tilde =>
              refine Agrees.step h h.advance_apply fun h => ?_
              refine (Agrees.group (x := do
                let operand ← InPlace.atom fuel
                return .not operand) h fun h => ?_).congr ?_
              · exact Agrees.bind h (atom_agrees fuel h (by omega)) fun _ _ _ => Agrees.pure
              · simp only [bind_assoc, pure_bind]
          | _ => exact Agrees.unexpected h
termination_by fuel

theorem binary_agrees (fuel level : Nat) {r : Reader} {tokens : List Lexeme} (h : r.Has tokens)
    (hfuel : 2 * tokens.length + 2 ≤ fuel) :
    Agrees (InPlace.binary fuel level) r (binary r.depth level tokens) := by
  cases fuel with
  | zero => omega
  | succ fuel =>
      rw [InPlace.binary, binary]
      refine Agrees.bind h (atom_agrees fuel h (by omega)) fun left rest short h => ?_
      exact Agrees.weaken (chain_agrees fuel level left h (by omega))
termination_by fuel

theorem chain_agrees (fuel level : Nat) (left : Expr) {r : Reader} {tokens : List Lexeme}
    (h : r.Has tokens) (hfuel : 2 * tokens.length + 1 ≤ fuel) :
    Agrees (InPlace.chain fuel level left) r (chain r.depth level left tokens) := by
  cases fuel with
  | zero => omega
  | succ fuel =>
      rw [InPlace.chain]
      unfold chain
      refine Agrees.peek h ?_
      cases tokens with
      | nil => exact Agrees.pure h
      | cons lexeme rest =>
          obtain ⟨token, span⟩ := lexeme
          rw [List.length_cons] at hfuel
          cases token with
          | op op =>
              refine Agrees.ite (fun _ => Agrees.pure h) fun _ => ?_
              refine Agrees.step h h.advance_apply fun h => ?_
              refine Agrees.bind h (binary_agrees fuel _ h (by omega)) fun right rest short h => ?_
              refine Agrees.ite (fun _ => Agrees.pure h) fun _ => Agrees.weaken ?_
              exact chain_agrees fuel level _ h (by omega)
          | _ => exact Agrees.pure h
termination_by fuel

end

theorem expression_agrees (fuel : Nat) {r : Reader} {tokens : List Lexeme} (h : r.Has tokens)
    (hfuel : 2 * tokens.length + 2 ≤ fuel) :
    Agrees (InPlace.expression fuel) r (expression r.depth tokens) :=
  binary_agrees fuel 0 h hfuel

mutual

theorem statement_agrees (fuel : Nat) {r : Reader} {tokens : List Lexeme} (h : r.Has tokens)
    (hfuel : 3 * tokens.length + 2 ≤ fuel) :
    Agrees (InPlace.statement fuel) r (statement r.depth tokens) := by
  cases fuel with
  | zero => omega
  | succ fuel =>
      rw [InPlace.statement]
      unfold statement
      refine Agrees.peek h ?_
      cases tokens with
      | nil => exact Agrees.unexpected h
      | cons lexeme rest =>
          obtain ⟨token, span⟩ := lexeme
          rw [List.length_cons] at hfuel
          cases token with
          | kwVar =>
              refine Agrees.step h h.expect_apply fun h => ?_
              refine Agrees.bind h (Agrees.name h) fun target rest short h => ?_
              refine Agrees.expect h fun _ rest short h => ?_
              have hvalue := expression_agrees fuel h (by omega)
              refine Agrees.bind h hvalue fun value rest short h => ?_
              exact Agrees.expect h fun _ _ _ => Agrees.pure
          | kwPrint =>
              refine Agrees.step h h.advance_apply fun h => ?_
              have hvalue := expression_agrees fuel h (by omega)
              refine Agrees.bind h hvalue fun value rest short h => ?_
              exact Agrees.expect h fun _ _ _ => Agrees.pure
          | kwIf =>
              refine Agrees.step h h.expect_apply fun h => ?_
              have hcondition := expression_agrees fuel h (by omega)
              refine Agrees.bind h hcondition fun condition rest short h => ?_
              refine Agrees.expect h fun _ rest short h => ?_
              have hbody := block_agrees fuel h (by omega)
              refine Agrees.bind h hbody fun body rest short h => ?_
              refine Agrees.peek h ?_
              -- Behind the body there may be an `else`, and behind this a colon.
              cases rest with
              | nil => exact Agrees.pure h
              | cons lexeme rest =>
                  obtain ⟨token, span⟩ := lexeme
                  cases token with
                  | kwElse =>
                      refine Agrees.step h h.advance_apply fun h => ?_
                      cases rest with
                      | nil =>
                          refine Agrees.skip_of_ne h nofun ?_
                          have hother := block_agrees fuel h (by rw [List.length_nil]; omega)
                          exact Agrees.bind h hother fun _ _ _ => Agrees.pure
                      | cons lexeme rest =>
                          obtain ⟨token, span⟩ := lexeme
                          simp only [List.length_cons] at short
                          cases token with
                          | colon =>
                              refine Agrees.step h h.skip_apply fun h => ?_
                              have hother := block_agrees fuel h (by omega)
                              exact Agrees.bind h hother fun _ _ _ => Agrees.pure
                          | _ =>
                              refine Agrees.skip_of_ne h nofun ?_
                              have hother := block_agrees fuel h (by rw [List.length_cons]; omega)
                              exact Agrees.bind h hother fun _ _ _ => Agrees.pure
                  | _ => exact Agrees.pure h
          | kwWhile =>
              refine Agrees.step h h.advance_apply fun h => ?_
              have hcondition := expression_agrees fuel h (by omega)
              refine Agrees.bind h hcondition fun condition rest short h => ?_
              refine Agrees.expect h fun _ rest short h => ?_
              have hbody := block_agrees fuel h (by omega)
              exact Agrees.bind h hbody fun _ _ _ => Agrees.pure
          | openBrace =>
              have hbody := block_agrees fuel h (by rw [List.length_cons]; omega)
              exact Agrees.bind h hbody fun _ _ _ => Agrees.pure
          | _ => exact Agrees.unexpected h
termination_by fuel

theorem block_agrees (fuel : Nat) {r : Reader} {tokens : List Lexeme} (h : r.Has tokens)
    (hfuel : 3 * tokens.length + 1 ≤ fuel) :
    Agrees (InPlace.block fuel) r (block r.depth tokens) := by
  cases fuel with
  | zero => omega
  | succ fuel =>
      rw [InPlace.block, block]
      refine Agrees.expect h fun _ rest short h => ?_
      refine (Agrees.group (x := do
        let body ← InPlace.statements fuel
        let _ ← InPlace.expect .closeBrace .closeBrace
        return body) h fun h => ?_).congr ?_
      · exact Agrees.weaken (blockEnd_agrees fuel h (by omega))
      · simp only [bind_assoc, pure_bind]
termination_by fuel

/-- The loop stops in front of the closing brace, and the parser behind it. -/
theorem blockEnd_agrees (fuel : Nat) {r : Reader} {tokens : List Lexeme} (h : r.Has tokens)
    (hfuel : 3 * tokens.length + 3 ≤ fuel) :
    Agrees (do
      let body ← InPlace.statements fuel
      let _ ← InPlace.expect .closeBrace .closeBrace
      return body) r (blockEnd r.depth tokens) := by
  cases fuel with
  | zero => omega
  | succ fuel =>
      rw [InPlace.statements]
      unfold blockEnd
      rw [bind_assoc]
      refine Agrees.peek h ?_
      cases tokens with
      | nil =>
          refine (Agrees.unexpected h).congr ?_
          exact (EStateM.bind_of_error h.unexpected_apply).trans h.unexpected_apply.symm
      | cons lexeme rest =>
          obtain ⟨token, span⟩ := lexeme
          cases token with
          | closeBrace =>
              refine Agrees.congr (y := do
                let _ ← InPlace.expect .closeBrace .closeBrace
                return []) ?_ (congrFun (pure_bind ..) r)
              exact Agrees.step h h.expect_apply Agrees.pure
          | _ =>
              have hfirst := statement_agrees fuel h (by omega)
              refine Agrees.congr ?_ (congrFun (bind_assoc ..) r)
              refine Agrees.bind h hfirst fun first rest short h => ?_
              have hothers := blockEnd_agrees fuel h (by rw [List.length_cons] at *; omega)
              refine (Agrees.bind h hothers fun _ _ _ => Agrees.pure).congr ?_
              simp only [bind_assoc, pure_bind]
termination_by fuel

end

/-! ## Calls, one after the other -/

/-- What can be asked of a reader. -/
inductive Call where
  | expression
  | statement
  | block

namespace Call

/-- What a call reads. -/
def Value : Call → Type
  | .expression => Expr
  | .statement => Stmt
  | .block => Block

/-- The walk of a call. -/
def walk (fuel : Nat) : (call : Call) → InPlace call.Value
  | .expression => InPlace.expression fuel
  | .statement => InPlace.statement fuel
  | .block => InPlace.block fuel

/-- What the parser for a call replies. -/
def reply (depth : Nat) (tokens : List Lexeme) : (call : Call) → Reply tokens.length call.Value
  | .expression => Parse.expression depth tokens
  | .statement => Parse.statement depth tokens
  | .block => Parse.block depth tokens

theorem walk_agrees (call : Call) {fuel : Nat} {r : Reader} {tokens : List Lexeme}
    (h : r.Has tokens) (hfuel : 3 * tokens.length + 2 ≤ fuel) :
    Agrees (call.walk fuel) r (call.reply r.depth tokens) := by
  cases call with
  | expression => exact expression_agrees fuel h (by omega)
  | statement => exact statement_agrees fuel h hfuel
  | block => exact block_agrees fuel h (by omega)

end Call

namespace Reader

/-- How deep calls can be nested with the tokens that are left. -/
def fuel (r : Reader) : Nat := 3 * (r.tokens.size - r.pos) + 2

/-- The cursor and the counter are in order after a walk. A walk that has a result has moved on and
closed what it opened; one that has none is stuck on the text. -/
def InOrder {α : Type} (r : Reader) : EStateM.Result Failure Reader α → Prop
  | .ok _ r' =>
    r'.tokens = r.tokens ∧ r.pos < r'.pos ∧ r'.pos ≤ r.tokens.size ∧ r'.depth = r.depth
  | .error (.fault _) r' =>
    r'.tokens = r.tokens ∧ r.pos ≤ r'.pos ∧ r'.pos ≤ r.tokens.size ∧
      r.depth ≤ r'.depth ∧ r'.depth ≤ maxNesting
  | .error _ _ => False

/-- The reader that a walk leaves, whether or not it has a result. -/
def left {α : Type} : EStateM.Result Failure Reader α → Reader
  | .ok _ r => r
  | .error _ r => r

/-- The reader that a call leaves. -/
def next (r : Reader) (call : Call) : Reader := left (call.walk r.fuel r)

/-- The reader that calls leave, one after the other. -/
def after (r : Reader) (calls : List Call) : Reader := calls.foldl next r

/-- Where the reader stands in a text. -/
def cursor (r : Reader) (source : Source) : Cursor := ⟨source, r.rest, r.depth⟩

end Reader

theorem Agrees.inOrder {α : Type} {r : Reader} {tokens : List Lexeme} {x : InPlace α}
    {reply : Reply tokens.length α} (h : r.Has tokens) (hx : Agrees x r reply) :
    r.InOrder (x r) := by
  have hlength := h.length_eq
  have hle := h.pos_le
  have hkeeps := hx.keeps
  rw [h.rest_eq] at hkeeps
  rw [hx.run]
  cases reply with
  | ok value rest short =>
      have hpos : (r.goto rest).pos = r.tokens.size - rest.length := rfl
      exact ⟨rfl, by omega, Nat.sub_le _ _, rfl⟩
  | error stuck =>
      have hpos : (r.stopAt stuck).pos = r.tokens.size - stuck.rest.length := rfl
      have hrest := hkeeps.1.length_le
      exact ⟨rfl, by omega, Nat.sub_le _ _, hkeeps.2⟩

namespace Reader.Has

variable {r : Reader} {tokens : List Lexeme}

theorem fuel_eq (h : r.Has tokens) : r.fuel = 3 * tokens.length + 2 := by
  rw [Reader.fuel, h.length_eq]

/-- A call leaves the reader with the same tokens and within its bounds, also when it fails. -/
theorem next (h : r.Has tokens) (call : Call) :
    (r.next call).tokens = r.tokens ∧ (r.next call).Has (r.next call).rest := by
  have horder := (call.walk_agrees h (Nat.le_of_eq h.fuel_eq.symm)).inOrder h
  rw [Reader.next]
  generalize call.walk r.fuel r = result at horder
  cases result with
  | ok value r' =>
      obtain ⟨htokens, _, hpos, hdepth⟩ := horder
      exact ⟨htokens, htokens ▸ hpos, hdepth ▸ h.depth_le, rfl⟩
  | error failure r' =>
      cases failure with
      | fault fault =>
          obtain ⟨htokens, _, hpos, _, hdepth⟩ := horder
          exact ⟨htokens, htokens ▸ hpos, hdepth, rfl⟩
      | _ => exact horder.elim

theorem after (h : r.Has tokens) (calls : List Call) :
    (r.after calls).tokens = r.tokens ∧ (r.after calls).Has (r.after calls).rest := by
  induction calls generalizing r tokens with
  | nil =>
      rw [Reader.after, List.foldl_nil]
      exact ⟨rfl, h.pos_le, h.depth_le, rfl⟩
  | cons call calls ih =>
      obtain ⟨htokens, hnext⟩ := h.next call
      obtain ⟨htokens', hafter⟩ := ih hnext
      exact ⟨htokens'.trans htokens, hafter⟩

/-- The cursor of a text goes where the reader goes. -/
theorem cursor_next (h : r.Has r.rest) (source : Source) :
    (r.cursor source).expression.2 = (r.next .expression).cursor source := by
  have hagrees : Agrees (InPlace.expression r.fuel) r (Parse.expression r.depth r.rest) :=
    Call.walk_agrees .expression h (Nat.le_of_eq h.fuel_eq.symm)
  have hkeeps := hagrees.keeps
  have hnext : r.next .expression = left (InPlace.expression r.fuel r) := rfl
  rw [hnext, hagrees.run, Cursor.expression]
  cases hreply : Parse.expression r.depth r.rest with
  | ok value rest short =>
      rw [hreply] at hkeeps
      have hrest : (r.goto rest).rest = rest := (h.goto hkeeps).rest_eq
      simp only [Reader.cursor, hreply, Reader.settle, left, hrest]
      rfl
  | error stuck =>
      rw [hreply] at hkeeps
      have hrest : (r.stopAt stuck).rest = stuck.rest := (h.goto hkeeps.1).rest_eq
      simp only [Reader.cursor, hreply, Reader.settle, left, hrest]
      rfl

end Reader.Has

/-- **The cursor and the counter are in order over any history of calls.** A reader that starts
within its bounds stays within them over any calls, also over ones that fail, and the cursor of a
text goes along with it. Whatever is asked of it then, with calls nested as deep as the tokens
allow, it ends with what the parser replies: no token is taken from behind the end, no group is left
that is not open, and no more calls are needed. With a result it has moved on and as many groups are
open as before; without one it has not moved back, and there are no fewer and not too many. -/
theorem cursor_discipline (r : Reader) (hpos : r.pos ≤ r.tokens.size)
    (hdepth : r.depth ≤ maxNesting) (calls : List Call) :
    ((r.after calls).tokens = r.tokens ∧ (r.after calls).pos ≤ r.tokens.size ∧
      (r.after calls).depth ≤ maxNesting) ∧
    (∀ source, ((r.after calls).cursor source).expression.2 =
      ((r.after calls).next .expression).cursor source) ∧
    ∀ (call : Call) (fuel : Nat), (r.after calls).fuel ≤ fuel →
      (r.after calls).InOrder (call.walk fuel (r.after calls)) ∧
      call.walk fuel (r.after calls) =
        (r.after calls).settle (call.reply (r.after calls).depth (r.after calls).rest) := by
  have hstart : r.Has r.rest := ⟨hpos, hdepth, rfl⟩
  obtain ⟨htokens, hafter⟩ := hstart.after calls
  refine ⟨⟨htokens, htokens ▸ hafter.pos_le, hafter.depth_le⟩, hafter.cursor_next, ?_⟩
  intro call fuel hfuel
  rw [hafter.fuel_eq] at hfuel
  have hagrees := call.walk_agrees hafter hfuel
  exact ⟨hagrees.inOrder hafter, hagrees.run⟩

/-- With 255 groups open, `((1` fails at the second parenthesis, and 256 groups are left open. Then
the number is read, and they stay so. -/
theorem cursor_discipline_after_failure :
    ∃ r : Reader, r.depth = 255 ∧
      ((r.after [.expression]).pos = 2 ∧ (r.after [.expression]).depth = 256) ∧
      ((r.after [.expression, .expression]).pos = 3 ∧
        (r.after [.expression, .expression]).depth = 256) ∧
      (r.after [.expression]).InOrder (Call.walk 5 .expression (r.after [.expression])) := by
  refine ⟨⟨#[⟨.openParen, ⟨0, 1⟩⟩, ⟨.openParen, ⟨1, 2⟩⟩, ⟨.number 1, ⟨2, 3⟩⟩], 0, 255⟩, rfl,
    by decide +kernel, by decide +kernel, ?_⟩
  have hdiscipline := cursor_discipline
    ⟨#[⟨.openParen, ⟨0, 1⟩⟩, ⟨.openParen, ⟨1, 2⟩⟩, ⟨.number 1, ⟨2, 3⟩⟩], 0, 255⟩
    (by decide) (by decide) [.expression]
  exact (hdiscipline.2.2 .expression 5 (by decide +kernel)).1

end SixReg.Parse
