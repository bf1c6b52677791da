import MiniGoc.Assembly.Form
import MiniGoc.Listing.Decl

/-!
# The workbench

On the workbench single actions are tried one after the other, with one frame, one
listing and one environment.  An action that fails does not stop the next one.  For
each there is a report: its result, what it printed, and the frame it left.
-/

namespace MiniGoc

/-- A state on which actions are tried. -/
structure Workbench where
  /-- The frame, the listing and the files. -/
  work : Workspace
  /-- Whether there is a scope at all.  The names of the innermost one are the
  globals of the workspace. -/
  hasScope : Bool
  /-- The scopes around the innermost one. -/
  outer : List (List Symbol)
  /-- What the actions have to do without. -/
  missing : List Need

namespace Workbench

def make (scopes : List (List Symbol)) (missing : List Need) : Workbench where
  work := { current := ⟨Listing.fileName mainClass, []⟩, globals := scopes.head?.getD [] }
  hasScope := !scopes.isEmpty
  outer := scopes.tail
  missing := missing

/-- What surrounds the next action. -/
def context (b : Workbench) : Context where
  scopes := if b.hasScope then b.work.globals :: b.outer else []
  missing := b.missing

/-- What came of one action. -/
structure Report where
  result : Except Fault Node
  printed : List Piece
  /-- Whether it threw away what had been printed. -/
  cleared : Bool
  frame : Frame

/-- What was printed, if anything was. -/
def Report.text? (r : Report) : Option String :=
  if r.printed.isEmpty then none else some (Listing.mk "" r.printed).text

/-- Tries an action. -/
def perform (b : Workbench) (m : Context → Gen Node) : Report × Workbench :=
  let before := b.work.current.pieces.length
  let (result, work) := Act.start (m b.context) b.work
  let pieces := work.current.pieces
  let cleared := pieces.length < before
  ({ result, printed := if cleared then pieces else pieces.drop before, cleared,
     frame := work.frame }, { b with work })

/-! ## Actions with operands of any kind -/

/-- An action on the frame with a piece of code as its result. -/
def piece (m : Act Frame Piece) : Gen Node := do return Visited.codeNode (← Gen.onFrame m)

/-- An action on the frame with code as its result. -/
def code (m : Act Frame Code) : Gen Node := piece do return some (← m)

/-- An action that asks for a text.  For another operand it fails, but the frame
counts it. -/
def withText {α : Type} (n : Node) (m : String → Act Frame α) : Act Frame α :=
  match n with
  | .text s => m s
  | _ => do
      let _ ← m ""
      throw .wrongKind

/-- An action that asks for an operand to be written as it stands. -/
def withOperand {α : Type} (n : Node) (m : Operand → Act Frame α) : Act Frame α := do
  m (← Act.ofExcept (Operand.ofNode n))

/-- An action that asks for the name of a variable, which is only shown. -/
def withName {α : Type} (n : Node) (m : String → Act Frame α) : Act Frame α := do
  m (← Act.ofExcept n.render)

def readVar (name type slot : Node) : Act Frame Piece := withName name fun n => do
  let b ← Emit.readBank n type
  Act.ofExcept ((LineForm.load b).apply [slot])

def writeVar (name type slot : Node) : Act Frame Piece := withName name fun n => do
  let b ← Emit.writeBank n type
  Act.ofExcept ((LineForm.store b).apply [slot])

def field (name type isStatic isFinal value : Node) : Act Frame Piece := do
  let t ← Emit.descriptor type
  Act.ofExcept ((LineForm.field isStatic.truthy).apply [name, .text t, isFinal, value])

def varLine (slot name type first last : Node) : Act Frame Piece := do
  let t ← Emit.descriptor type
  Act.ofExcept (LineForm.var.apply [slot, name, .text t, first, last])

def method (name type isStatic : Node) : Act Frame Piece := do
  let t ← Emit.descriptor type
  Act.ofExcept (LineForm.method.apply [name, .text t, isStatic])

/-- Calls a constructor.  Without name and type it is the one of all objects, and
with only one of them there is no code. -/
def invokeSpecial (name type : Node) : Act Frame Piece :=
  match name, type with
  | .none, .none => do return some (← Emit.invokeObjectInit)
  | .none, _ => return none
  | _, .none => return none
  | n, t => do return some (← withText n fun n => Emit.invokeSpecial n t)

/-- The head of a class or an interface. -/
def prolog (name parent isInterface : Node) : Act Frame Piece := do
  let n ← Act.ofExcept name.asText
  if isInterface.truthy then return some (Emit.prolog n "" true)
  return some (Emit.prolog n (← Act.ofExcept parent.asText) false)

/-- Prints a text, or a piece that is missing. -/
def printOut : Node → Gen Node
  | .none => do
      Gen.printPiece none
      return .none
  | n => do
      Gen.print [.raw (← Act.ofExcept n.render)]
      return .none

/-- Throws away what has been printed. -/
def clear : Gen Node := do
  modify fun w => { w with current := { w.current with pieces := [] } }
  return .none

def writeFile : Gen Node := do
  Gen.writeFile
  return .none

def visit (n : Node) (ctx : Context) : Gen Node := do
  return (← Gen.visit Gen.depthLimit ctx n).node

/-- The value of a node that is known in advance. -/
def constant (n : Node) (ctx : Context) : Gen Node := Gen.constant ctx n

def staticInit (items : List (Symbol × Node)) (ctx : Context) : Gen Node := do
  let globals ← Act.ofOption .outOfRange ctx.scopes.head?
  Gen.staticInit (Gen.visit Gen.depthLimit) items globals
  return .none

end Workbench

end MiniGoc
