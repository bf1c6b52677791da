import MiniGoc.Assembly.Emit
import MiniGoc.Symbol

/-!
# Listings

A listing is the assembly text of one class while it is being printed.  The
`Workspace` holds the frame of the method at hand, the listing that is printed to,
the other listings, and the files that are finished.  A file is written in one go
from a listing; if something is missing in the listing, the file is left empty.
-/

namespace MiniGoc

/-- What has been printed for one class. -/
structure Listing where
  file : String
  /-- The pieces in the order of printing. -/
  pieces : List Piece := []
deriving Repr, Inhabited

def Listing.fileName (className : String) : String := className ++ ".j"

/-- The text of a piece; a missing one is marked. -/
def Listing.pieceText : Piece → String
  | some c => c.render
  | none => "<None>"

/-- All that has been printed. -/
def Listing.text (l : Listing) : String := String.join (l.pieces.map pieceText)

/-- The state of code generation. -/
structure Workspace where
  /-- The frame of the method at hand. -/
  frame : Frame := {}
  current : Listing
  /-- The other listings, in the order in which they were started. -/
  others : List Listing := []
  /-- The files written so far with their contents. -/
  files : List (String × String) := []
  /-- The names declared at the top level of the program. -/
  globals : List Symbol := []
deriving Inhabited

/-- An action of the code generator. -/
abbrev Gen (α : Type) := Act Workspace α

/-- The things around a piece of a program that its code may need. -/
inductive Need where
  | scopes
  | frame
  | listing
deriving DecidableEq, Repr, Inhabited

/-- What surrounds a piece of a program. -/
structure Context where
  /-- The known names, the innermost scope first. -/
  scopes : List (List Symbol)
  /-- What is not there. -/
  missing : List Need := []
deriving Inhabited

namespace Context

/-- Asks for something. -/
def need (ctx : Context) (n : Need) : Gen Unit :=
  if n ∈ ctx.missing then throw .missingKey else pure ()

/-- Asks for the two things that code of a method needs. -/
def needMethod (ctx : Context) : Gen Unit := do
  ctx.need .listing
  ctx.need .frame

/-- The first symbol of a name, the innermost scope first. -/
def find? (ctx : Context) (name : String) : Gen (Option Symbol) := do
  ctx.need .scopes
  return Symbol.find? name ctx.scopes.flatten

def find (ctx : Context) (name : String) : Gen Symbol := do
  Act.ofOption .missingPart (← ctx.find? name)

/-- A scope inside, in which all needs are met. -/
def enter (ctx : Context) (scope : List Symbol) : Context := ⟨scope :: ctx.scopes, []⟩

end Context

namespace Gen

def onFrame {α : Type} (m : Act Frame α) : Gen α :=
  Act.onPart Workspace.frame (fun f w => { w with frame := f }) m

def printPiece (p : Piece) : Gen Unit :=
  modify fun w => { w with current := { w.current with pieces := w.current.pieces ++ [p] } }

def print (c : Code) : Gen Unit := printPiece (some c)

/-- Prints the code of an action on the frame. -/
def emit (m : Act Frame Code) : Gen Unit := do print (← onFrame m)

def printLabel (m : Act Frame Nat) : Gen Unit := emit do
  return Emit.label (Operand.ofNat (← m))

/-- A part that has to be there. -/
def require {α : Type} (a : Option α) : Gen α := Act.ofOption .missingPart a

/-- Pieces one after the other; one that is missing is a fault. -/
def join (ps : List Piece) : Gen Code := Act.ofExcept (Emit.join ps)

/-- An action with a frame of its own. -/
def withFrame {α : Type} (m : Gen α) : Gen α := do
  let outer := (← get).frame
  Act.andFinally (do modify fun w => { w with frame := {} }; m) fun w => { w with frame := outer }

/-- An action with a listing of its own, which is kept among the others. -/
def withListing {α : Type} (file : String) (m : Gen α) : Gen α := do
  let outer := (← get).current
  let place := (← get).others.length
  Act.andFinally
    (do
      modify fun w => { w with current := ⟨file, []⟩, others := w.others ++ [⟨file, []⟩] }
      m)
    fun w => { w with current := outer, others := w.others.set place w.current }

def setFile (name text : String) : List (String × String) → List (String × String)
  | [] => [(name, text)]
  | (n, t) :: fs => if n = name then (n, text) :: fs else (n, t) :: setFile name text fs

/-- Writes the file of the current listing. -/
def writeFile : Gen Unit := do
  let l := (← get).current
  modify fun w => { w with files := setFile l.file "" w.files }
  let c ← join l.pieces
  modify fun w => { w with files := setFile l.file c.render w.files }

end Gen

/-- What a node comes to. -/
inductive Visited where
  | nothing
  | value (code : Piece) (type : Node)
  | type (t : Node)
deriving Inhabited

namespace Visited

/-- Code and type of a value. -/
def code : Visited → Gen (Piece × Node)
  | value c t => return (c, t)
  | _ => throw .wrongKind

/-- The code of a value as a text. -/
def codeNode : Piece → Node
  | some c => .text c.render
  | none => .none

def node : Visited → Node
  | nothing => .none
  | value c t => .list [codeNode c, t]
  | type t => t

end Visited

/-- What makes something of the nodes that are not of the kind that their place asks for. -/
abbrev Visitor := Context → Node → Gen Visited

end MiniGoc
