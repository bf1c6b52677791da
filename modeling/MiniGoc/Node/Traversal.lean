import MiniGoc.Fault
import MiniGoc.Node

/-!
# The default traversal

A traversal of a program has a rule for each kind of node, and is entered at a node
with a parameter.  The rules of the default traversal take a node and no parameter,
and come to nothing.  So they can be applied but not entered.
-/

namespace MiniGoc

inductive DefaultUse where
  /-- A rule is applied to a number of operands. -/
  | rule (operands : Nat)
  /-- The traversal is entered with some operands. -/
  | enter (operands : List Node)
  /-- A rule that does not exist is applied. -/
  | unknown

/-- What a use of the default traversal comes to. -/
def DefaultUse.run : DefaultUse → Except Fault Unit
  | rule n => if n = 1 then .ok () else .error .wrongCount
  | enter [n, _] => if n.hasRule then .error .wrongCount else .error .missingPart
  | enter _ => .error .wrongCount
  | unknown => .error .missingPart

end MiniGoc
