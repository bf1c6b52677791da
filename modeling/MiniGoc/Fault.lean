/-!
# Faults

A fault is the cause for which an operation of the compiler has no result.  The
operations are total on all nodes, well formed or not, so most causes say that
a node is not of the shape that the operation asks for.
-/

namespace MiniGoc

/-- Why an operation has no result. -/
inductive Fault where
  /-- A value is of a kind for which the operation has no rule. -/
  | wrongKind
  /-- An operation is called with the wrong number of operands. -/
  | wrongCount
  /-- A value lacks a part that the operation asks for. -/
  | missingPart
  /-- A text is not a number. -/
  | badNumeral
  /-- A position lies outside a list or a text. -/
  | outOfRange
  /-- The surroundings do not provide something by its name. -/
  | missingKey
  /-- A variable is read that nothing has set. -/
  | unset
  /-- The operand stack has fewer values than are taken from it. -/
  | emptyStack
  /-- The operand stack still holds values. -/
  | stackNotEmpty
  | noScope
  | noLoop
  /-- An instruction cannot have the operand. -/
  | operandRange
  /-- An operator is not computed in advance. -/
  | notConstant
  /-- An operand for which there is no code. -/
  | illegalOperand (what : String)
  /-- A fault of the frame. -/
  | illegalRuntime (what : String)
  /-- A type that has no descriptor. -/
  | illegalType (type : String)
  /-- A method that the type of its receiver does not have. -/
  | noMethod (method receiver : String)
deriving DecidableEq, Repr, Inhabited

def Fault.message? : Fault → Option String
  | illegalOperand s => some ("Illegal Operand: " ++ s ++ "\n")
  | illegalRuntime s => some ("Illegal Runtime: " ++ s ++ "\n")
  | illegalType s => some ("getFullType: unexpected type " ++ s)
  | noMethod m r =>
      some ("CodeGen Error: Method '" ++ m ++ "' not found for receiver type '" ++ r
        ++ "' or is static.")
  | _ => none

/-- A computation in two steps has a result if both have. -/
theorem bind_eq_ok {ε α β : Type} {x : Except ε α} {f : α → Except ε β} {b : β} :
    x >>= f = .ok b ↔ ∃ a, x = .ok a ∧ f a = .ok b := by
  cases x with
  | error e => simp [bind, Except.bind]
  | ok a => simp [bind, Except.bind]

theorem pure_eq_ok {ε α : Type} {a b : α} : (pure a : Except ε α) = .ok b ↔ a = b :=
  Except.ok.injEq a b ▸ Iff.rfl

end MiniGoc
