import MiniGoc.Act

/-!
# Frames

A frame keeps count while the code of one method is generated: the depth that
the operand stack will have, the next local slot, the next label, and the open
scopes and loops with their labels.  A slot taken in a scope is free again when the
scope is left; a label is never used twice.

The depth may fall below zero: taking a value from an empty stack is a fault, but
it counts.
-/

namespace MiniGoc

structure Frame.Scope where
  start : Nat
  /-- The label at its end. -/
  stop : Nat
  /-- The next local slot when the scope was entered. -/
  saved : Int
deriving DecidableEq, Repr, Inhabited

structure Frame.Loop where
  /-- The label where the next round starts. -/
  next : Nat
  /-- The label behind the loop. -/
  exit : Nat
deriving DecidableEq, Repr, Inhabited

/-- The counters of one method. -/
structure Frame where
  label : Nat := 0
  /-- The number of values on the operand stack. -/
  depth : Int := 0
  /-- The largest depth so far. -/
  maxDepth : Int := 0
  /-- The next local slot. -/
  index : Int := 0
  /-- The number of local slots so far. -/
  maxIndex : Int := 0
  /-- The open scopes, the innermost first. -/
  scopes : List Frame.Scope := []
  /-- The open loops, the innermost first. -/
  loops : List Frame.Loop := []
deriving DecidableEq, Repr, Inhabited

namespace Frame

/-- The label and the frame in which it is used up. -/
def newLabel : Act Frame Nat := do
  let f ← get
  set { f with label := f.label + 1 }
  return f.label

/-- A local slot that is taken from now on. -/
def newIndex : Act Frame Int := do
  let f ← get
  set { f with index := f.index + 1, maxIndex := max f.maxIndex (f.index + 1) }
  return f.index

/-- Makes a slot the next one. -/
def setIndex (i : Int) : Act Frame Unit := modify fun f => { f with index := i }

/-- One more value on the operand stack. -/
def push : Act Frame Unit :=
  modify fun f => { f with depth := f.depth + 1, maxDepth := max f.maxDepth (f.depth + 1) }

/-- One value less on the operand stack. -/
def pop : Act Frame Unit := do
  modify fun f => { f with depth := f.depth - 1 }
  if (← get).depth < 0 then throw .emptyStack

/-- Some values less on the operand stack. -/
def popMany : Nat → Act Frame Unit
  | 0 => pure ()
  | n + 1 => do pop; popMany n

/-- Tests that the operand stack is empty. -/
def checkEmpty : Act Frame Unit := do
  if (← get).depth ≠ 0 then throw .stackNotEmpty

/-- Opens a scope with two new labels.  The scope of a whole method starts the
two maxima again. -/
def enterScope (whole : Bool) : Act Frame Unit := do
  let start ← newLabel
  let stop ← newLabel
  modify fun f => { f with scopes := ⟨start, stop, f.index⟩ :: f.scopes }
  if whole then modify fun f => { f with maxDepth := 0, maxIndex := 0 }

/-- Leaves the innermost scope and frees its slots. -/
def exitScope : Act Frame Unit := do
  let f ← get
  match f.scopes with
  | [] => throw .noScope
  | s :: ss => set { f with scopes := ss, index := s.saved }

def scope : Act Frame Scope := do Act.ofOption .noScope (← get).scopes.head?

/-- The label at the start of the innermost scope. -/
def startLabel : Act Frame Nat := do return (← scope).start

/-- The label at the end of the innermost scope. -/
def endLabel : Act Frame Nat := do return (← scope).stop

/-- Opens a loop with two new labels. -/
def enterLoop : Act Frame Unit := do
  let next ← newLabel
  let exit ← newLabel
  modify fun f => { f with loops := ⟨next, exit⟩ :: f.loops }

/-- Leaves the innermost loop. -/
def exitLoop : Act Frame Unit := do
  let f ← get
  match f.loops with
  | [] => throw .noLoop
  | _ :: ls => set { f with loops := ls }

def loop : Act Frame Loop := do Act.ofOption .noLoop (← get).loops.head?

/-- The label where the next round of the innermost loop starts. -/
def continueLabel : Act Frame Nat := do return (← loop).next

/-- The label behind the innermost loop. -/
def breakLabel : Act Frame Nat := do return (← loop).exit

end Frame

end MiniGoc
