import SixReg.Source.Blank

/-!
# Positions in a program text

A program text is a list of characters. Positions in it are offsets into its UTF-8 form, so a
character takes one to four of them; people are told a `Place`, a line and a column, where the
column counts characters. `Source.place` goes from the first to the second, and `Source.context`
quotes the line that an offset falls on.
-/

namespace SixReg

/-- A program text, as its characters. -/
abbrev Source := List Char

/-- A half-open range of byte offsets. -/
structure Span where
  /-- Offset of the first byte. -/
  start : Nat
  /-- Offset just past the last byte. -/
  stop : Nat
deriving DecidableEq, Repr, Inhabited

/-- A line and a column of a text, both counted from one. -/
structure Place where
  line : Nat
  /-- Counted in characters. -/
  column : Nat
deriving DecidableEq, Repr, Inhabited

namespace Source

/-- The length of a text in UTF-8 bytes. -/
def byteLength : Source → Nat
  | [] => 0
  | c :: cs => c.utf8Size + byteLength cs

theorem byteLength_append (s t : Source) :
    byteLength (s ++ t) = byteLength s + byteLength t := by
  induction s with
  | nil => simp [byteLength]
  | cons c s ih => rw [List.cons_append, byteLength, byteLength, ih, Nat.add_assoc]

/-- The characters in front of a byte offset, if the offset lies in the text and on the boundary
of a character. -/
def before? : Source → Nat → Option (List Char)
  | _, 0 => some []
  | [], _ + 1 => none
  | c :: cs, n + 1 =>
    if c.utf8Size ≤ n + 1 then (before? cs (n + 1 - c.utf8Size)).map (c :: ·) else none

/-- In front of the offset where `t` starts stands what goes before `t`. -/
theorem before?_append (s t : Source) : before? (s ++ t) (byteLength s) = some s := by
  induction s with
  | nil => simp [byteLength, before?]
  | cons c s ih =>
    obtain ⟨n, hn⟩ : ∃ n, c.utf8Size + byteLength s = n + 1 :=
      ⟨c.utf8Size + byteLength s - 1, by have := c.utf8Size_pos; omega⟩
    rw [List.cons_append, byteLength, hn, before?, if_pos (by omega), ← hn,
      Nat.add_sub_cancel_left, ih]
    rfl

/-- The characters in front of a byte offset. An offset that is no position of the text counts as
its end. -/
def before (text : Source) (offset : Nat) : List Char :=
  (before? text offset).getD text

/-- Line and column of a byte offset: one more than the line feeds in front of it, and one more
than the characters since the last of those. -/
def place (text : Source) (offset : Nat) : Place where
  line := (before text offset).count '\n' + 1
  column := ((before text offset).reverse.takeWhile (· != '\n')).length + 1

/-- The line with the given number, counted from zero, without its line feed. A text has no
characters on lines past its last. -/
def lineAt : Source → Nat → List Char
  | text, 0 => text.takeWhile (· != '\n')
  | [], _ + 1 => []
  | c :: cs, n + 1 => if c = '\n' then lineAt cs n else lineAt cs (n + 1)

/-- The text of a line, counted from one, with its blank ends dropped. Line zero is read as line
one. -/
def lineText (text : Source) (line : Nat) : String :=
  String.ofList (trim (lineAt text (line - 1)))

/-- The line that a byte offset falls on, as quoted under an error message. -/
def context (text : Source) (offset : Nat) : String :=
  lineText text (place text offset).line

end Source

end SixReg
