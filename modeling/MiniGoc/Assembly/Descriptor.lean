import MiniGoc.Assembly
import MiniGoc.Node.Printer

/-!
# Type descriptors

The descriptor of a type is its name in the class file: a letter for a simple type,
`L` and a name for a class, an opening bracket for each dimension of an array, and
the parameters in parentheses before the result of a function.  A node that is not
a type stands for itself.
-/

namespace MiniGoc.Node

/-- One bracket for each size. -/
def brackets (sizes : List Node) : String := String.ofList (sizes.map fun _ => '[')

mutual

def descriptor : Node → Except Fault String
  | intType => .ok "I"
  | floatType => .ok "F"
  | boolType => .ok "Z"
  | stringType => .ok "Ljava/lang/String;"
  | voidType => .ok "V"
  | arrayType ds e => do return brackets ds ++ (← descriptor e)
  | funcType ps r => do
      let params ← descriptors ps
      return "(" ++ params ++ ")" ++ (← descriptor r)
  | structType n _ _ _ => .ok ("L" ++ n ++ ";")
  | interfaceType n _ => .ok ("L" ++ n ++ ";")
  | n => n.render

/-- The descriptors of several types, one after the other. -/
def descriptors : List Node → Except Fault String
  | [] => .ok ""
  | t :: ts => do
      let s ← descriptor t
      return s ++ (← descriptors ts)

end

attribute [local simp] descriptor descriptors

/-- The name of a type by itself.  Only types have one. -/
def typeName : Node → Except Fault String
  | intType => .ok "int"
  | floatType => .ok "float"
  | boolType => .ok "boolean"
  | stringType => .ok "java/lang/String"
  | voidType => .ok "void"
  | arrayType ds e => do return brackets ds ++ (← typeName e)
  | structType n _ _ _ => .ok n
  | interfaceType n _ => .ok n
  | n => do throw (.illegalType (← n.render))

/-- The bank in which values of a type are kept. -/
def bank? : Node → Option Bank
  | intType => some .int
  | boolType => some .int
  | floatType => some .float
  | arrayType _ _ => some .ref
  | stringType => some .ref
  | structType .. => some .ref
  | interfaceType .. => some .ref
  | _ => Option.none

/-- The parameters and the result of a function type. -/
def funcParts? : Node → Option (List Node × Node)
  | funcType ps r => some (ps, r)
  | checkedFuncType ps r => some (ps, r)
  | _ => Option.none

/-- The type of the elements of an array. -/
def element? : Node → Option Node
  | arrayType _ e => some e
  | arrayLit _ e _ => some e
  | _ => Option.none

def elements? : Node → Option (List Node)
  | structType _ es _ _ => some es
  | structLit _ es => some es
  | _ => Option.none

/-- Whether a function has no result. -/
def isVoid : Node → Bool
  | voidType => true
  | _ => false

/-- Whether a type is the type of floating point numbers. -/
def isFloat : Node → Bool
  | floatType => true
  | _ => false

end MiniGoc.Node
