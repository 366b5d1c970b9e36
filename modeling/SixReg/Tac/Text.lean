import SixReg.Tac.Basic

/-!
# Three-address code as text

One line an instruction; labels stand at the margin and all else is indented.
-/

namespace SixReg

/-- How a temporary is written. -/
def Temp.text (t : Temp) : String := s!"t{t.id}"

/-- How a label is written. -/
def Label.text (l : Label) : String := s!"L{l.id}"

/-- How a variable is written: its name and, in brackets, its slot. -/
def Symbol.text (s : Symbol) : String := s!"{s.name}[{s.slot}]"

namespace Tac

/-- How an operand is written. -/
def Operand.text : Operand → String
  | .temp t => t.text
  | .const value => toString value

/-- How an instruction is written. -/
def Instr.text : Instr → String
  | .const dst value => s!"{dst.text} = {value}"
  | .load dst src => s!"{dst.text} = load {src.text}"
  | .store dst src => s!"store {dst.text}, {src.text}"
  | .binary dst left op right => s!"{dst.text} = {left.text} {op.symbol} {right.text}"
  | .not dst src => s!"{dst.text} = ~{src.text}"
  | .branch left right rel target =>
    s!"if {left.text} {rel.symbol} {right.text} goto {target.text}"
  | .jump target => s!"goto {target.text}"
  | .label place => s!"{place.text}:"
  | .print value => s!"print {value.text}"

/-- The line for an instruction. -/
def Instr.line (instr : Instr) : String :=
  match instr with
  | .label _ => instr.text
  | _ => "  " ++ instr.text

/-- The lines for a program. -/
def Code.lines (code : Code) : List String := code.instrs.map Instr.line

end Tac

end SixReg
