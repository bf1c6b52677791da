import MiniGoc.Assembly.Printer

/-!
# Lines from operands

A `LineForm` says how a line is made from a list of operands of any kind.  The number
of operands is checked first, then their kinds and ranges.
-/

namespace MiniGoc

/-- An operand that is written as it stands. -/
def Operand.ofNode : Node → Except Fault Operand
  | .int i => .ok (.number i)
  | n => do return .word (← n.render)

def Node.asText : Node → Except Fault String
  | text s => .ok s
  | _ => .error .wrongKind

/-- How a line is made. -/
inductive LineForm where
  /-- Without operands. -/
  | fixed (line : Line)
  | operand (make : Operand → Line)
  | named (make : String → Line)
  /-- From two texts. -/
  | member (make : String → String → Line)
  /-- From a slot that is read. -/
  | load (bank : Bank)
  /-- From a slot that is written. -/
  | store (bank : Bank)
  /-- From an integer that is part of the name. -/
  | iconst
  /-- From an integer of one byte that `iconst` does not cover. -/
  | bipush
  /-- From an integer of two bytes that `bipush` does not cover. -/
  | sipush
  /-- From a floating point number that is part of the name. -/
  | fconst
  /-- From the name and type of a constructor, or none. -/
  | invokeSpecial
  /-- From the parts of a variable. -/
  | var
  | method
  | field (isStatic : Bool)

namespace LineForm

/-- A line from a slot.  A truth value counts as a low slot. -/
def slotLine (make : Int → Instr) (word : String) : Node → Except Fault Line
  | .int i => .ok (.instr (make i))
  | .bool b => .ok (.raw ("\t" ++ word ++ "_" ++ Node.boolText b ++ "\n"))
  | _ => .error .wrongKind

/-- A line from an integer within two ranges. -/
def rangeLine (make : Int → Instr) (within : Int → Bool) : Node → Except Fault Line
  | .int i => if within i then .ok (.instr (make i)) else .error .operandRange
  | .bool _ => .error .operandRange
  | _ => .error .wrongKind

/-- The small floating point numbers. -/
def fconstLine : Node → Except Fault Line
  | .text "0.0" => .ok (.instr (.fconst 0))
  | .text "1.0" => .ok (.instr (.fconst 1))
  | .text "2.0" => .ok (.instr (.fconst 2))
  | _ => .error .operandRange

/-- The call of a constructor: of the one that is named, or of the one of all
objects.  With only one of name and type there is no line. -/
def specialPiece (name type : Node) : Except Fault Piece :=
  match name, type with
  | .none, .none => .ok (some [.instr (.invokeSpecial "java/lang/Object/<init>" "()V")])
  | .none, _ => .ok none
  | _, .none => .ok none
  | n, t => do return some [.instr (.invokeSpecial (← n.asText) (← t.asText))]

/-- The value of a field, if there is one. -/
def fieldValue (v : Node) : Except Fault (Option String) :=
  if v.truthy then do return some (← v.asText) else .ok none

/-- The line with the given operands. -/
def apply : LineForm → List Node → Except Fault Piece
  | fixed l, [] => .ok (some [l])
  | operand make, [n] => do return some [make (← Operand.ofNode n)]
  | named make, [n] => do return some [make (← n.asText)]
  | member make, [n, t] => do return some [make (← n.asText) (← t.asText)]
  | load b, [n] => do return some [← slotLine (.load b) (b.letter ++ "load") n]
  | store b, [n] => do return some [← slotLine (.store b) (b.letter ++ "store") n]
  | iconst, [.bool b] => .ok (some [.instr (.iconstFlag b)])
  | iconst, [n] => do return some [← rangeLine .iconst (fun _ => true) n]
  | bipush, [n] => do
      return some [← rangeLine .bipush
        (fun i => (-128 ≤ i && i < -1) || (5 < i && i ≤ 127)) n]
  | sipush, [n] => do
      return some [← rangeLine .sipush
        (fun i => (-32768 ≤ i && i < -128) || (127 < i && i ≤ 32767)) n]
  | fconst, [n] => do return some [← fconstLine n]
  | invokeSpecial, [] => specialPiece .none .none
  | invokeSpecial, [n] => specialPiece n .none
  | invokeSpecial, [n, t] => specialPiece n t
  | var, [i, n, t, first, last] => do
      return some [.var (← Operand.ofNode i) (← n.asText) (← t.asText) (← Operand.ofNode first)
        (← Operand.ofNode last)]
  | method, [n, t, s] => do return some [.method s.truthy (← n.asText) (← t.asText)]
  | field isStatic, [n, t, f, v] => do
      return some [.field isStatic f.truthy (← n.asText) (← t.asText) (← fieldValue v)]
  | _, _ => .error .wrongCount

end LineForm

end MiniGoc
