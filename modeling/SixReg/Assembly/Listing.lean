import SixReg.Assembly.Lower

/-!
# Listings

A machine program as text: each instruction behind its address, and the labels on lines of their
own. The labels are taken in the order of their numbers: as long as the next one stands at the
address that is reached, its line goes in front of the instruction. A label that stands before an
earlier-numbered one is thereby passed over, and ends up behind the last instruction with all that
follow it.
-/

namespace SixReg

/-- A text with blanks in front, at least `width` characters in all. -/
def padLeft (width : Nat) (text : String) : String :=
  String.ofList (List.replicate (width - text.length) ' ') ++ text

namespace Listing

/-- The line for an instruction at an address. -/
def instructionLine (offset : Nat) (instr : Instruction) : String :=
  s!"  {padLeft 4 (toString offset)}  {instr.text}"

/-- The line for a label. -/
def labelLine (entry : Label × Nat) : String := s!"{entry.1.text}:"

/-- The lines for the instructions from an address on, with the labels not yet listed. -/
def lines (offset : Nat) : List Instruction → List (Label × Nat) → List String
  | [], labels => labels.map labelLine
  | instr :: instrs, labels =>
    (labels.takeWhile (·.2 == offset)).map labelLine ++
      instructionLine offset instr ::
        lines (offset + wordsPerInstruction) instrs (labels.dropWhile (·.2 == offset))

end Listing

/-- The lines for a machine program. -/
def Lowered.lines (l : Lowered) : List String := Listing.lines 0 l.instrs l.labels.toList

end SixReg
