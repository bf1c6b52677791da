import MiniGoc.Fault
import MiniGoc.Node
import MiniGoc.Number.Layout
import MiniGoc.Text.Class

/-!
# The text of a node

`Node.render` writes a node as a term: its kind and its parts in parentheses,
lists in brackets.  An optional part that is left out is not written.  The only
node without a text is a string literal whose value is not a text, and whatever
holds one.
-/

namespace MiniGoc.Node

/-- Texts with commas between them. -/
def commas (ss : List String) : String := ",".intercalate ss

/-- A truth value as it stands in a message. -/
def boolText (b : Bool) : String := if b then "True" else "False"

/-- A text in lower case. -/
def lower (s : String) : String := String.ofList (s.toList.map Text.lowerAscii)

mutual

def render : Node → Except Fault String
  | none => .ok "None"
  | bool b => .ok (boolText b)
  | int i => .ok (toString i)
  | float x => .ok x.render
  | text s => .ok s
  | list xs => do return "[" ++ commas (← renderAll xs) ++ "]"
  | pair n v => do return "(" ++ n ++ "," ++ (← render v) ++ ")"
  | program ds => do return "Program([" ++ commas (← renderAll ds) ++ "])"
  | param n t => do return "ParDecl(" ++ n ++ "," ++ (← render t) ++ ")"
  | var n t i => do
      let type ← if t.truthy then do pure ("," ++ (← render t)) else pure ""
      let init ← if i.isNone then pure "" else do pure ("," ++ (← render i))
      return "VarDecl(" ++ n ++ type ++ init ++ ")"
  | const n t i => do
      let type ← if t.truthy then do pure ("," ++ (← render t)) else pure ""
      return "ConstDecl(" ++ n ++ type ++ "," ++ (← render i) ++ ")"
  | func n ps r b => do
      return "FuncDecl(" ++ n ++ ",[" ++ commas (← renderAll ps) ++ "]," ++ (← render r) ++ ","
        ++ (← render b) ++ ")"
  | method r t f => do
      return "MethodDecl(" ++ r ++ "," ++ (← render t) ++ "," ++ (← render f) ++ ")"
  | prototype n ps r => do
      return "Prototype(" ++ n ++ ",[" ++ commas (← renderAll ps) ++ "]," ++ (← render r) ++ ")"
  | intType => .ok "IntType"
  | floatType => .ok "FloatType"
  | boolType => .ok "BoolType"
  | stringType => .ok "StringType"
  | voidType => .ok "VoidType"
  | arrayType ds e => do
      return "ArrayType(" ++ (← render e) ++ ",[" ++ commas (← renderAll ds) ++ "])"
  | interfaceType n ms => do
      return "InterfaceType(" ++ n ++ ",[" ++ commas (← renderAll ms) ++ "])"
  | structType n es ms is => do
      return "StructType(" ++ n ++ ",[" ++ commas (← renderAll es) ++ "],["
        ++ commas (← renderAll ms) ++ "],[" ++ commas (← renderAll is) ++ "])"
  | funcType ps r => do
      return "MType([" ++ commas (← renderAll ps) ++ "]," ++ (← render r) ++ ")"
  | checkedFuncType ps r => do
      return "MType([" ++ commas (← renderAll ps) ++ "]," ++ (← render r) ++ ")"
  | symbol n t => do return "Symbol(" ++ n ++ "," ++ (← render t) ++ ")"
  | block ms => do return "Block([" ++ commas (← renderAll ms) ++ "])"
  | assign l r => do return "Assign(" ++ (← render l) ++ "," ++ (← render r) ++ ")"
  | ifElse c y n => do
      let yes ← do pure ((← render c) ++ "," ++ (← render y))
      let no ← if n.isNone then pure "" else do pure ("," ++ (← render n))
      return "If(" ++ yes ++ no ++ ")"
  | forBasic c b => do return "For(" ++ (← render c) ++ "," ++ (← render b) ++ ")"
  | forStep i c u b => do
      return "For(" ++ (← render i) ++ "," ++ (← render c) ++ "," ++ (← render u) ++ ","
        ++ (← render b) ++ ")"
  | forEach i v a b => do
      return "ForEach(" ++ (← render i) ++ "," ++ (← render v) ++ "," ++ (← render a) ++ ","
        ++ (← render b) ++ ")"
  | breakLoop => .ok "Break()"
  | continueLoop => .ok "Continue()"
  | ret e => do
      let value ← if e.isNone then pure "" else render e
      return "Return(" ++ value ++ ")"
  | id n => .ok ("Id(" ++ n ++ ")")
  | cell a is => do
      return "ArrayCell(" ++ (← render a) ++ ",[" ++ commas (← renderAll is) ++ "])"
  | field r n => do return "FieldAccess(" ++ (← render r) ++ "," ++ n ++ ")"
  | binary op l r => do
      return "BinaryOp(" ++ (← render l) ++ "," ++ op ++ "," ++ (← render r) ++ ")"
  | unary op e => do return "UnaryOp(" ++ op ++ "," ++ (← render e) ++ ")"
  | call n as => do return "FuncCall(" ++ n ++ ",[" ++ commas (← renderAll as) ++ "])"
  | methodCall r n as => do
      return "MethodCall(" ++ (← render r) ++ "," ++ n ++ ",[" ++ commas (← renderAll as) ++ "])"
  | intLit v => do return "IntLiteral(" ++ (← render v) ++ ")"
  | floatLit v => do return "FloatLiteral(" ++ (← render v) ++ ")"
  | stringLit (.text s) => .ok ("StringLiteral(" ++ s ++ ")")
  | stringLit _ => .error .wrongKind
  | boolLit v => do return "BooleanLiteral(" ++ lower (← render v) ++ ")"
  | arrayLit ds e v => do
      return "ArrayLiteral([" ++ commas (← renderAll ds) ++ "]," ++ (← render e) ++ ","
        ++ (← render v) ++ ")"
  | structLit n es => do return "StructLiteral(" ++ n ++ ",[" ++ commas (← renderAll es) ++ "])"
  | nilLit => .ok "Nil"

/-- The texts of several nodes. -/
def renderAll : List Node → Except Fault (List String)
  | [] => .ok []
  | x :: xs => do
      let s ← render x
      let ss ← renderAll xs
      return s :: ss

end

attribute [local simp] render renderAll

/-- The text of a name with a type and a value; a value that is left out is not
written. -/
def renderSymbol (name type value : Node) : Except Fault String := do
  let start ← do pure ("Symbol(" ++ (← name.render) ++ "," ++ (← type.render))
  let rest ← if value.isNone then pure "" else do pure ("," ++ (← value.render))
  return start ++ rest ++ ")"

end MiniGoc.Node
