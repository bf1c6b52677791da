import MiniGoc.Listing

/-!
# The code of expressions

An expression comes to code that pushes its value, and to the type of the value.
Its code is not printed, but the frame counts what it does.

Operators on integers, and `+` on texts, know the type of their result.  An
operator with a floating point operand has none, and so falls to the code for the
remaining types.  Unary operators have no code.

A node that is no expression comes to whatever the parameter `other` makes of it.
-/

namespace MiniGoc.Gen

/-- The value of a name.  A member of another class has none. -/
def readId (ctx : Context) (name : String) : Gen (Option (Piece × Node)) := do
  ctx.needMethod
  let sym ← ctx.find name
  match sym.home with
  | .slot i => return some (some (← onFrame (Emit.readVar name sym.type i)), sym.type)
  | .member owner _ =>
      if owner = mainClass then
        return some (some (← onFrame (Emit.getStatic (owner ++ "/" ++ name) sym.type)), sym.type)
      else return none
  | .unknown => return none

/-- The instructions for an operator of arithmetic, and their operands: an integer
beside a floating point number is turned into one. -/
def arithmetic (op : String) (left right : Piece × Node) : Gen (Piece × Node) := do
  let (lc, lt) := left
  let (rc, rt) := right
  let (operands, type) ← show Gen (List Piece × Node) from
    if lt.isFloat || rt.isFloat then
      match lt, rt with
      | .intType, _ => do return ([lc, some (← onFrame Emit.intToFloat), rc], .none)
      | _, .intType => do return ([lc, rc, some (← onFrame Emit.intToFloat)], .none)
      | _, _ => return ([lc, rc], .none)
    else
      match lt, rt with
      | .stringType, .stringType =>
          return if op = "+" then ([lc, rc], .stringType) else ([], .none)
      | .intType, .intType => return ([lc, rc], .intType)
      | _, _ => return ([], .none)
  let action ← onFrame
    (if op = "%" then Emit.remainder
    else if op = "+" ∨ op = "-" then Emit.add op type
    else Emit.multiply op type)
  return (some (← join (operands ++ [some action])), type)

/-- The code of a binary operator from the code of its operands. -/
def binary (op : String) (left right : Piece × Node) : Gen (Piece × Node) :=
  if op ∈ ["+", "-", "*", "/", "%"] then arithmetic op left right
  else if op ∈ ["==", "!=", "<", "<=", ">", ">="] then do
    let test ← onFrame (Emit.compare op left.2)
    return (some (← join [left.1, right.1, some test]), .boolType)
  else if op = "&&" then do
    let action ← onFrame Emit.and
    return (some (← join [left.1, right.1, some action]), .boolType)
  else if op = "||" then do
    let action ← onFrame Emit.or
    return (some (← join [left.1, right.1, some action]), .boolType)
  else return (some [], .none)

/-- The type of an element of a struct. -/
def elementOf (name : String) : List Node → Gen Node
  | .pair n t :: es => if n = name then return t else elementOf name es
  | _ => throw .wrongKind

section Recursive

variable (other : Visitor)

/-- A node in the place of a type.  Simple types and array types stand for
themselves, and a name for its value. -/
def typeOf (ctx : Context) : Node → Gen Node
  | .intType => return .intType
  | .floatType => return .floatType
  | .boolType => return .boolType
  | .stringType => return .stringType
  | .voidType => return .voidType
  | .arrayType ds e => return .arrayType ds e
  | .id n => do
      match ← readId ctx n with
      | some (c, t) => return Visited.node (.value c t)
      | none => return .none
  | n => if !n.hasRule then throw .missingPart else do return (← other ctx n).node

/-- The call of a method from the code of its receiver and arguments. -/
def methodCall (ctx : Context) (receiver : Piece × Node) (name : String) (args : List Piece) :
    Gen (Piece × Node) := do
  let sym ← ctx.find name
  let owner ← require receiver.2.name?
  if sym.home ≠ .member owner false then throw (.noMethod name owner)
  let member := owner ++ "/" ++ name
  let call ← match receiver.2 with
    | .structType .. => onFrame (Emit.invokeVirtual member sym.type)
    | .interfaceType .. => onFrame (Emit.invokeInterface member sym.type)
    | _ => throw .unset
  let (_, result) ← require sym.type.funcParts?
  return (some (← join (receiver.1 :: args ++ [some call])), result)

mutual

/-- Code and type of an expression. -/
def expr (ctx : Context) : Node → Gen (Piece × Node)
  | .id n => do
      match ← readId ctx n with
      | some r => return r
      | none => throw .wrongKind
  | .cell a is => do
      ctx.needMethod
      let (ac, at') ← expr ctx a
      let (cs, t) ← cells ctx at' is
      return (some (← join (ac :: cs)), t)
  | .field r n => do
      ctx.needMethod
      let (rc, rt) ← expr ctx r
      let ft ← elementOf n (← require rt.elements?)
      let t ← typeOf other ctx ft
      let owner ← Act.ofExcept rt.typeName
      let action ← onFrame (Emit.getField (owner ++ "/" ++ n) t)
      return (some (← join [rc, some action]), t)
  | .binary op l r => do
      ctx.needMethod
      let left ← expr ctx l
      let right ← expr ctx r
      binary op left right
  | .unary op e => do
      ctx.needMethod
      let _ ← expr ctx e
      if op = "-" ∨ op = "!" then throw .missingPart
      return (some [], .none)
  | .call n as => do
      ctx.needMethod
      let sym ← ctx.find n
      let cs ← args ctx as
      let owner ← require sym.home.word?
      let action ← onFrame (Emit.invokeStatic (owner ++ "/" ++ n) sym.type)
      let code ← join (cs ++ [some action])
      let (_, result) ← require sym.type.funcParts?
      return (some code, result)
  | .methodCall r n as => do
      ctx.needMethod
      let receiver ← expr ctx r
      let cs ← args ctx as
      methodCall ctx receiver n cs
  | .intLit v => do
      ctx.need .frame
      return (← onFrame (Emit.pushInt v), .intType)
  | .floatLit v => do
      let text ← Act.ofExcept v.render
      ctx.need .frame
      return (some (← onFrame (Emit.pushFloat (.text text))), .floatType)
  | .stringLit v => do
      ctx.need .frame
      return (← onFrame (Emit.pushInt v), .stringType)
  | .boolLit v => do
      let text ← Act.ofExcept v.render
      ctx.need .frame
      return (← onFrame (Emit.pushInt (.text text)), .boolType)
  | .nilLit => do
      ctx.need .frame
      return (some (← onFrame Emit.pushNull), .none)
  | .arrayLit ds e v => do
      ctx.needMethod
      let sizes ← args ctx ds
      let made ← onFrame
        (if ds.length = 1 then Emit.newArray e else Emit.newMultiArray (.arrayType ds e))
      let type := Node.arrayType ds e
      if v.truthy then
        let slot ← onFrame Frame.newIndex
        let saved ← onFrame (Emit.writeVar "temp_arr" type slot)
        let filled ← arrayValue ctx type e slot v
        let read ← onFrame (Emit.readVar "temp_arr" type slot)
        return (some (← join (sizes ++ [some made, some saved] ++ filled ++ [some read])), type)
      else return (some (← join (sizes ++ [some made])), type)
  | .structLit n es => do
      ctx.needMethod
      let type := (← ctx.find n).type
      let owner ← Act.ofExcept type.descriptor
      let made ← onFrame (Emit.newObject owner)
      let copy ← onFrame Emit.dup
      let init ← onFrame (Emit.invokeSpecial (owner ++ "/<init>") (.funcType [] .voidType))
      let start := [some made, some copy, some init]
      if es.isEmpty then return (some (← join start), type)
      let slot ← onFrame Frame.newIndex
      let saved ← onFrame (Emit.writeVar "temp_obj" type slot)
      let filled ← structValues ctx type owner slot es
      let read ← onFrame (Emit.readVar "temp_obj" type slot)
      return (some (← join (start ++ [some saved] ++ filled ++ [some read])), type)
  | n => if !n.hasRule then throw .missingPart else do (← other ctx n).code
termination_by structural n => n

/-- The code of arguments. -/
def args (ctx : Context) : List Node → Gen (List Piece)
  | [] => return []
  | e :: es => do
      let (c, _) ← expr ctx e
      return c :: (← args ctx es)
termination_by structural es => es

/-- The code that goes from an array to an element, index by index. -/
def cells (ctx : Context) (type : Node) : List Node → Gen (List Piece × Node)
  | [] => return ([], type)
  | i :: is => do
      let (c, _) ← expr ctx i
      let element ← require type.element?
      let load ← onFrame (Emit.loadCell element)
      let (cs, t) ← cells ctx element is
      return (c :: some load :: cs, t)
termination_by structural is => is

/-- The code that fills an array. -/
def arrayValue (ctx : Context) (type element : Node) (slot : Int) : Node → Gen (List Piece)
  | .list es => arrayValues ctx type element slot 0 es
  | .text _ => do
      let _ ← onFrame (Emit.readVar "temp_arr" type slot)
      let _ ← onFrame (Emit.pushInteger 0)
      throw .missingPart
  | _ => throw .wrongKind
termination_by structural v => v

/-- The code that sets the elements of an array from a position on. -/
def arrayValues (ctx : Context) (type element : Node) (slot : Int) (i : Nat) :
    List Node → Gen (List Piece)
  | [] => return []
  | e :: es => do
      let array ← onFrame (Emit.readVar "temp_arr" type slot)
      let index ← onFrame (Emit.pushInteger i)
      let (c, _) ← expr ctx e
      let store ← onFrame (Emit.storeCell element)
      return some array :: some index :: c :: some store
        :: (← arrayValues ctx type element slot (i + 1) es)
termination_by structural es => es

/-- The code that sets the elements of a struct. -/
def structValues (ctx : Context) (type : Node) (owner : String) (slot : Int) :
    List Node → Gen (List Piece)
  | [] => return []
  | .pair n e :: es => do
      let object ← onFrame (Emit.readVar "temp_obj" type slot)
      let (c, _) ← expr ctx e
      let t ← elementOf n (← require type.elements?)
      let store ← onFrame (Emit.putField (owner ++ "/" ++ n) t)
      return some object :: c :: some store :: (← structValues ctx type owner slot es)
  | _ :: _ => throw .wrongKind
termination_by structural es => es

end

attribute [local simp] expr args cells arrayValues structValues

end Recursive

end MiniGoc.Gen
