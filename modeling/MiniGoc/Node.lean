import MiniGoc.Number.Binary64

/-!
# Nodes

A node is a piece of an abstract program: a declaration, a type, a statement or
an expression.  All are of one type, since a node may stand wherever a node can
stand, and the printer, the equality test, the checker and the code generator
say for each what happens then.  Names are texts.  A slot for another node may
also hold a plain value (`Node.none`, a number, a text, a list), and
`Node.none` is how an optional part is left out.

The value of a literal is a node too.  Literals read from a source hold a number,
a text or a truth value, but the sizes and elements of arrays keep the spelling of
their numbers.
-/

namespace MiniGoc

/-- A piece of an abstract program, or a plain value. -/
inductive Node where
  -- Plain values.
  | none
  /-- A truth value. -/
  | bool (b : Bool)
  | int (i : Int)
  /-- A floating point number. -/
  | float (x : Binary64)
  | text (s : String)
  | list (items : List Node)
  /-- A name with a node: an element of a struct type or of a struct literal. -/
  | pair (name : String) (value : Node)
  -- Declarations.
  | program (decls : List Node)
  | param (name : String) (type : Node)
  | var (name : String) (type init : Node)
  | const (name : String) (type init : Node)
  | func (name : String) (params : List Node) (result body : Node)
  | method (receiver : String) (type func : Node)
  | prototype (name : String) (params : List Node) (result : Node)
  -- Types.
  | intType
  | floatType
  | boolType
  | stringType
  | voidType
  | arrayType (sizes : List Node) (element : Node)
  | interfaceType (name : String) (methods : List Node)
  | structType (name : String) (elements methods implements : List Node)
  /-- The type of a function, as the code generator knows it. -/
  | funcType (params : List Node) (result : Node)
  /-- The type of a function, as the checker knows it. -/
  | checkedFuncType (params : List Node) (result : Node)
  /-- A declared name with its type, as the checker knows it. -/
  | symbol (name : String) (type : Node)
  -- Statements.
  | block (members : List Node)
  | assign (target value : Node)
  | ifElse (condition yes no : Node)
  | forBasic (condition body : Node)
  | forStep (init condition update body : Node)
  | forEach (index value array body : Node)
  | breakLoop
  | continueLoop
  | ret (value : Node)
  -- Expressions.
  | id (name : String)
  | cell (array : Node) (indices : List Node)
  | field (receiver : Node) (name : String)
  | binary (op : String) (left right : Node)
  | unary (op : String) (operand : Node)
  | call (name : String) (args : List Node)
  | methodCall (receiver : Node) (name : String) (args : List Node)
  | intLit (value : Node)
  | floatLit (value : Node)
  | stringLit (value : Node)
  | boolLit (value : Node)
  | arrayLit (sizes : List Node) (element value : Node)
  | structLit (name : String) (elements : List Node)
  | nilLit
deriving Repr, Inhabited

namespace Node

/-- Whether a value counts as true where an optional part is tested: nothing,
zero, and the empty text and list do not. -/
def truthy : Node → Bool
  | none => false
  | bool b => b
  | int i => i != 0
  | float x => !x.sameInt 0
  | text s => !s.isEmpty
  | list xs => !xs.isEmpty
  | _ => true

/-- Whether two nodes are of one kind, whatever their parts. -/
def sameKind (a b : Node) : Bool := a.ctorIdx == b.ctorIdx

/-- Whether a traversal has a rule for the node.  It has none for plain values,
parameters, function types and symbols. -/
def hasRule : Node → Bool
  | none | bool _ | int _ | float _ | text _ | list _ | pair .. => false
  | funcType .. | checkedFuncType .. | symbol .. | param .. => false
  | _ => true

def name? : Node → Option String
  | id n => some n
  | func n _ _ _ => some n
  | prototype n _ _ => some n
  | interfaceType n _ => some n
  | structType n _ _ _ => some n
  | structLit n _ => some n
  | symbol n _ => some n
  | _ => Option.none

/-- Whether the slot is left empty. -/
def isNone : Node → Bool
  | none => true
  | _ => false

end Node

end MiniGoc
