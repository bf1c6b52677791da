import MiniGoc.Assembly.Descriptor
import MiniGoc.Assembly.Printer
import MiniGoc.Frame
import MiniGoc.Number.Numeral

/-!
# Instructions with their effect on the frame

Each action gives the code for one job (push a constant, load a variable, compare
two values) and counts in the frame what the code does to the operand stack.  The
count comes first: it stays if there turns out to be no code for the operands.

The count is not always the effect of the code.  A comparison leaves one value, but
counts one for each of its two outcomes; comparing two texts counts nothing for the
texts it takes; and an interface call counts two for a floating point number.
-/

namespace MiniGoc.Emit

/-- The fault of a text that names an operand. -/
def illegal {α : Type} (s : Except Fault String) : Act Frame α := do
  throw (.illegalOperand (← Act.ofExcept s))

def descriptor (t : Node) : Act Frame String := Act.ofExcept t.descriptor

def one (i : Instr) : Code := [.instr i]

def jump (l : Operand) : Code := one (.goto l)

def label (l : Operand) : Code := [.label l]

/-! ## Constants -/

/-- The shortest instruction that pushes an integer. -/
def intConstant (i : Int) : Instr :=
  if -1 ≤ i ∧ i ≤ 5 then .iconst i
  else if -128 ≤ i ∧ i ≤ 127 then .bipush i
  else if -32768 ≤ i ∧ i ≤ 32767 then .sipush i
  else .ldc (.int i)

def pushInteger (i : Int) : Act Frame Code := do
  Frame.push
  return one (intConstant i)

/-- Pushes an integer that may be given as a text: a numeral, `true` or `false`.
Other values have no code. -/
def pushInt : Node → Act Frame Piece
  | .int i => do return some (← pushInteger i)
  | .bool b => do
      Frame.push
      return some (one (.iconstFlag b))
  | .text s =>
      if s = "true" then do return some (← pushInteger 1)
      else if s = "false" then do return some (← pushInteger 0)
      else do
        let i ← Act.ofOption .badNumeral (Numeral.readInt? s)
        return some (← pushInteger i)
  | _ => return none

/-- Pushes a floating point number given as a text. -/
def pushFloat : Node → Act Frame Code
  | .text s => do
      let _ ← Act.ofOption .badNumeral (Numeral.readFloat? s)
      Frame.push
      return one (.ldc (.float s))
  | .int _ | .bool _ | .float _ => do
      Frame.push
      throw .wrongKind
  | _ => throw .wrongKind

def pushString : Node → Act Frame Code
  | .text s => do
      Frame.push
      return one (.ldc (.string s))
  | _ => do
      Frame.push
      throw .missingPart

def pushConst (value type : Node) : Act Frame Piece :=
  match type with
  | .intType | .boolType => pushInt value
  | .floatType => do return some (← pushFloat value)
  | .stringType => do return some (← pushString value)
  | _ => illegal value.render

def pushNull : Act Frame Code := do
  Frame.push
  return one .pushNull

/-- The text and the type of a literal. -/
def literal : Node → Act Frame (Node × Node)
  | .intLit v => do return (.text (← Act.ofExcept v.render), .intType)
  | .floatLit v => do return (.text (← Act.ofExcept v.render), .floatType)
  | .boolLit v => return (.text (if v.truthy then "true" else "false"), .boolType)
  | .stringLit v => return (v, .stringType)
  | n => illegal n.render

/-! ## Variables, elements and fields -/

/-- The array instruction for elements of a bank. -/
def cellOf : Bank → Cell
  | .int => .int
  | .float => .float
  | .ref => .ref

/-- Takes an array and an index and pushes the element. -/
def loadCell (type : Node) : Act Frame Code := do
  Frame.pop
  Frame.pop
  Frame.push
  match type.bank? with
  | some b => return one (.arrayLoad (cellOf b))
  | none => illegal type.render

/-- Takes an array, an index and a value and sets the element. -/
def storeCell (type : Node) : Act Frame Code := do
  Frame.pop
  Frame.pop
  Frame.pop
  match type.bank? with
  | some b => return one (.arrayStore (cellOf b))
  | none => illegal type.render

/-- The fault of a variable whose type has no bank. -/
def illegalVar {α : Type} (job name : String) (type : Node) : Act Frame α :=
  illegal do return "Cannot " ++ job ++ " " ++ name ++ " of type " ++ (← type.render)

/-- The bank from which a variable is read.  A receiver named `this` is an object,
whatever its type. -/
def readBank (name : String) (type : Node) : Act Frame Bank := do
  Frame.push
  if name = "this" then return .ref
  match type.bank? with
  | some b => return b
  | none => illegalVar "READVAR" name type

/-- Pushes a local variable. -/
def readVar (name : String) (type : Node) (slot : Int) : Act Frame Code := do
  return one (.load (← readBank name type) slot)

def writeBank (name : String) (type : Node) : Act Frame Bank := do
  Frame.pop
  match type.bank? with
  | some b => return b
  | none => illegalVar "WRITEVAR" name type

/-- Takes a value and sets a local variable. -/
def writeVar (name : String) (type : Node) (slot : Int) : Act Frame Code := do
  return one (.store (← writeBank name type) slot)

/-- The line that says where a slot holds a variable. -/
def varLine (slot : Operand) (name : String) (type : Node) (first last : Operand) :
    Act Frame Code := do
  return [.var slot name (← descriptor type) first last]

def fieldLine (name : String) (type : Node) (isStatic isFinal : Bool) (value : Option String) :
    Act Frame Code := do
  return [.field isStatic isFinal name (← descriptor type) value]

/-- Pushes a static field. -/
def getStatic (member : String) (type : Node) : Act Frame Code := do
  Frame.push
  return one (.getStatic member (← descriptor type))

/-- Takes a value and sets a static field. -/
def putStatic (member : String) (type : Node) : Act Frame Code := do
  Frame.pop
  return one (.putStatic member (← descriptor type))

/-- Takes an object and pushes a field of it. -/
def getField (member : String) (type : Node) : Act Frame Code := do
  Frame.pop
  Frame.push
  return one (.getField member (← descriptor type))

/-- Takes an object and a value and sets a field of the object. -/
def putField (member : String) (type : Node) : Act Frame Code := do
  Frame.pop
  Frame.pop
  return one (.putField member (← descriptor type))

/-! ## Calls -/

/-- Pushes the result of a function that has one. -/
def pushResult (result : Node) : Act Frame Unit :=
  if result.isVoid then pure () else Frame.push

/-- The parameters and the result of a function type. -/
def funcParts (type : Node) : Act Frame (List Node × Node) :=
  Act.ofOption .missingPart type.funcParts?

def invokeStatic (method : String) (type : Node) : Act Frame Code := do
  let (params, result) ← funcParts type
  Frame.popMany params.length
  pushResult result
  return one (.invokeStatic method (← descriptor type))

/-- Takes the arguments and the object of a call and pushes the result. -/
def callOnObject (type : Node) : Act Frame Unit := do
  let (params, result) ← funcParts type
  Frame.popMany params.length
  Frame.pop
  pushResult result

/-- Calls a constructor. -/
def invokeSpecial (method : String) (type : Node) : Act Frame Code := do
  callOnObject type
  return one (.invokeSpecial method (← descriptor type))

/-- Calls the constructor of the class of all objects. -/
def invokeObjectInit : Act Frame Code := do
  Frame.pop
  return one (.invokeSpecial "java/lang/Object/<init>" "()V")

/-- Calls a method of an object. -/
def invokeVirtual (method : String) (type : Node) : Act Frame Code := do
  callOnObject type
  return one (.invokeVirtual method (← descriptor type))

/-- The stack slots of the arguments of an interface call. -/
def argSlots (params : List Node) : Nat :=
  params.foldl (fun n p => n + if p.isFloat then 2 else 1) 0

def invokeInterface (method : String) (type : Node) : Act Frame Code := do
  let (params, result) ← funcParts type
  Frame.popMany (argSlots params)
  Frame.pop
  pushResult result
  if result.isFloat then Frame.push
  return one (.invokeInterface method (← descriptor type) (1 + argSlots params))

/-! ## Operators -/

/-- Changes the sign of a number. -/
def negate : Node → Act Frame Code
  | .intType => return one .ineg
  | .floatType => return one .fneg
  | t => illegal t.render

/-- Takes two values and pushes one. -/
def binary (i : Instr) : Act Frame Code := do
  Frame.pop
  Frame.pop
  Frame.push
  return one i

/-- Adds for `+` and subtracts for all else.  What is neither an integer nor a
floating point number is joined as text. -/
def add (op : String) (type : Node) : Act Frame Code :=
  if op = "+" then
    match type with
    | .intType => binary .iadd
    | .floatType => binary .fadd
    | _ => binary
        (.invokeVirtual "java/lang/String/concat" "(Ljava/lang/String;)Ljava/lang/String;")
  else
    match type with
    | .intType => binary .isub
    | _ => binary .fsub

/-- Multiplies for `*` and divides for all else. -/
def multiply (op : String) (type : Node) : Act Frame Code :=
  if op = "*" then
    match type with
    | .intType => binary .imul
    | _ => binary .fmul
  else
    match type with
    | .intType => binary .idiv
    | _ => binary .fdiv

def remainder : Act Frame Code := binary .irem

/-- Both of two truth values. -/
def and : Act Frame Code := binary .iand

/-- One of two truth values. -/
def or : Act Frame Code := binary .ior

/-- Turns an integer into a floating point number. -/
def intToFloat : Act Frame Code := do
  Frame.pop
  Frame.push
  return one .i2f

/-- Takes a truth value and jumps if it is true. -/
def ifTrue (l : Operand) : Act Frame Code := do
  Frame.pop
  return one (.ifZero .gt l)

/-- Takes a truth value and jumps if it is false. -/
def ifFalse (l : Operand) : Act Frame Code := do
  Frame.pop
  return one (.ifZero .le l)

/-- Takes two integers and jumps if they compare so. -/
def ifInts (c : Cond) (l : Operand) : Act Frame Code := do
  Frame.pop
  Frame.pop
  return one (.ifInts c l)

/-- Pieces one after the other; one that is missing is a fault. -/
def join (ps : List Piece) : Except Fault Code :=
  match ps.mapM id with
  | some cs => .ok cs.flatten
  | none => .error .wrongKind

/-- Two constants, the first of which a jump to `no` skips. -/
def choose (yes no : String) (type : Node) (lno lend : Operand) : Act Frame (List Piece) := do
  let y ← pushConst (.text yes) type
  let n ← pushConst (.text no) type
  return [y, some (jump lend), some (label lno), n, some (label lend)]

/-- Turns a truth value round. -/
def not (type : Node) : Act Frame Code := do
  let l1 := Operand.ofNat (← Frame.newLabel)
  let l2 := Operand.ofNat (← Frame.newLabel)
  let test ← ifTrue l1
  let outcome ← choose "true" "false" type l1 l2
  Act.ofExcept (join (some test :: outcome))

/-- The comparison that fails where an operator holds. -/
def failing? (op : String) : Option Cond :=
  if op = ">" then some .le
  else if op = ">=" then some .lt
  else if op = "<" then some .ge
  else if op = "<=" then some .gt
  else if op = "!=" then some .eq
  else if op = "==" then some .ne
  else none

/-- A jump that is taken where an operator does not hold. -/
def failJump (make : Cond → Operand → Instr) (op : String) (l : Operand) : Code :=
  match failing? op with
  | some c => one (make c l)
  | none => []

/-- The order of two texts as a number below, at or above zero. -/
def compareTexts : Code := one (.invokeVirtual "java/lang/String/compareTo" "(Ljava/lang/String;)I")

/-- Whether the operator orders texts. -/
def ordersTexts (op : String) : Bool := op ∈ ["<", "<=", ">", ">="]

/-- Compares two values and pushes a truth value.  Texts are not compared for
equality, and other types have no code. -/
def compare (op : String) (type : Node) : Act Frame Code := do
  let lf := Operand.ofNat (← Frame.newLabel)
  let lo := Operand.ofNat (← Frame.newLabel)
  match type with
  | .intType => do
      Frame.pop
      Frame.pop
      finish lf lo (failJump .ifInts op lf)
  | .floatType => do
      Frame.pop
      Frame.pop
      Frame.push
      Frame.pop
      finish lf lo (one .fcmpl ++ failJump .ifZero op lf)
  | .stringType =>
      if op = "==" ∨ op = "!=" then throw .wrongKind
      else if ordersTexts op then finish lf lo (compareTexts ++ failJump .ifZero op lf)
      else return []
  | _ => return []
where
  /-- The test and its two outcomes. -/
  finish (lf lo : Operand) (test : Code) : Act Frame Code := do
    let outcome ← choose "1" "0" .boolType lf lo
    Act.ofExcept (join (some test :: outcome))

/-- Compares two values and jumps to one of two labels. -/
def branch (op : String) (type : Node) (yes no : Operand) : Act Frame Code := do
  match type with
  | .intType => do
      Frame.pop
      Frame.pop
      return failJump .ifInts op no ++ jump yes
  | .floatType => do
      Frame.pop
      Frame.pop
      Frame.push
      return one .fcmpl ++ failJump .ifZero op no ++ jump yes
  | .stringType =>
      if op = "==" ∨ op = "!=" then throw .wrongKind
      else if ordersTexts op then return compareTexts ++ failJump .ifZero op no ++ jump yes
      else return jump yes
  | t => illegal do
      return "Relational operator '" ++ op ++ "' cannot be applied to type " ++ (← t.render)

/-! ## Objects and arrays -/

/-- Takes a size and pushes a new array. -/
def newArray (element : Node) : Act Frame Code := do
  Frame.pop
  Frame.push
  match element with
  | .intType => return one (.newArray "int")
  | .floatType => return one (.newArray "float")
  | .boolType => return one (.newArray "boolean")
  | .stringType | .structType .. | .interfaceType .. =>
      return one (.newRefArray (← descriptor element))
  | t => illegal do return "Cannot emitNEWARRAY for element type " ++ (← t.render)

def sizes : Node → Act Frame (List Node)
  | .arrayType ds _ => return ds
  | .arrayLit ds _ _ => return ds
  | _ => throw .missingPart

/-- Takes one size for each dimension and pushes an array; there is no code for
it. -/
def newMultiArray {α : Type} (type : Node) : Act Frame α := do
  let ds ← sizes type
  let _ ← descriptor type
  Frame.popMany ds.length
  Frame.push
  throw .wrongKind

/-- Takes an array and pushes its length; there is no code for it. -/
def arrayLength {α : Type} : Act Frame α := do
  Frame.pop
  Frame.push
  throw .missingPart

/-- Pushes the topmost value once more. -/
def dup : Act Frame Code := do
  Frame.push
  return one .dup

/-- Drops the topmost value. -/
def pop : Act Frame Code := do
  Frame.pop
  return one .pop

def newObject (type : String) : Act Frame Code := do
  Frame.push
  return one (.newObject type)

/-! ## Methods and classes -/

/-- Leaves a method.  There is code for numbers, truth values, texts and
nothing. -/
def ret : Node → Act Frame Piece
  | .intType | .boolType => do
      Frame.pop
      return some (one (.retValue .int))
  | .floatType => do
      Frame.pop
      return some (one (.retValue .float))
  | .stringType => do
      Frame.pop
      return some (one (.retValue .ref))
  | .voidType => return some (one .ret)
  | _ => return none

def method (name : String) (type : Node) (isStatic : Bool) : Act Frame Code := do
  return [.method isStatic name (← descriptor type)]

/-- The end of a method, with the largest depth and the number of slots. -/
def endMethod : Act Frame Code := do
  let f ← get
  return [.limitStack (.number f.maxDepth), .limitLocals (.number f.maxIndex), .endMethod]

/-- The head of a class or an interface. -/
def prolog (name parent : String) (isInterface : Bool) : Code :=
  [Line.source (name ++ ".java")] ++
    if isInterface then [Line.interfaceDecl name, Line.superDecl "java/lang/Object"]
    else [Line.classDecl ("public " ++ name),
      Line.superDecl (if parent = "" then "java/lang/Object" else parent)]

end MiniGoc.Emit
