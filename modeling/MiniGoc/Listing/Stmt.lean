import MiniGoc.Listing.Expr

/-!
# The code of statements

The code of a statement is printed.  A block goes through its members twice: first
every declared variable, and every assigned name that is not known outside of the
block, gets a slot and a line that says so; then the members are generated, with all
these names known.

An assigned name that is known outside gets such a line too, with the slot and the
type of the member before it (`Pass`), and it is a fault if there are none.

An expression that stands as a statement prints nothing, though the frame counts
it.  Loops have no code.
-/

namespace MiniGoc.Gen

def isExpr : Node → Bool
  | .id _ | .cell .. | .field .. | .binary .. | .unary .. | .call .. | .methodCall .. => true
  | .intLit _ | .floatLit _ | .stringLit _ | .boolLit _ | .nilLit => true
  | .arrayLit .. | .structLit .. => true
  | _ => false

/-- The value of an expression that is known in advance.  Operators are not
computed, and the value of a name is not kept. -/
def constant (ctx : Context) : Node → Gen Node
  | .binary .. | .unary .. => throw .notConstant
  | .intLit v | .floatLit v | .stringLit v | .boolLit v => return v
  | .id n => do
      let _ ← ctx.find n
      return .none
  | .arrayLit ds e v => return .arrayLit ds e v
  | .structLit n es => return .structLit n es
  | _ => return .none

/-- The value of a variable that is not initialised. -/
def zero : Node → Act Frame Code
  | .intType | .boolType => Emit.pushInteger 0
  | .floatType => Emit.pushFloat (.text "0.0")
  | .stringType => Emit.pushString (.text "")
  | .arrayType .. | .structType .. | .interfaceType .. => Emit.pushNull
  | _ => return []

/-- The line that says that a slot holds a variable in the innermost scope. -/
def printVar (slot : Int) (name : String) (type : Node) : Gen Unit := emit do
  let first ← Frame.startLabel
  let last ← Frame.endLabel
  Emit.varLine (.number slot) name type (Operand.ofNat first) (Operand.ofNat last)

/-- What the first pass over a block has found. -/
structure Pass where
  /-- The names with a slot of this block. -/
  locals : List Symbol := []
  /-- The slot that was taken last. -/
  slot? : Option Int := none
  /-- The type of the name that an assignment introduced last. -/
  type? : Option Node := none
deriving Inhabited

/-- Takes a slot for a name. -/
def Pass.take (p : Pass) (name : String) (type : Node) : Gen Pass := do
  let slot ← onFrame Frame.newIndex
  return { p with locals := p.locals ++ [.localVar name type slot], slot? := some slot }

section Recursive

variable (other : Visitor)

/-- The type of an expression, for which its code is generated once. -/
def exprType (ctx : Context) (e : Node) : Gen Node := do return (← expr other ctx e).2

/-- The first pass over a block. -/
def declare (ctx : Context) (p : Pass) : List Node → Gen (List Symbol)
  | [] => return p.locals
  | .var n t i :: ms => do
      let inner := ctx.enter p.locals
      let type ← if t.truthy then typeOf other inner t else exprType other inner i
      let p ← p.take n type
      printVar (p.slot?.getD 0) n type
      declare ctx p ms
  | .const n _ i :: ms => do
      let inner := ctx.enter p.locals
      let _ ← constant inner i
      let type ← exprType other inner i
      let p ← p.take n type
      printVar (p.slot?.getD 0) n type
      declare ctx p ms
  | .assign (.id n) e :: ms => do
      let p ← match ← ctx.find? n with
        | some _ => pure p
        | none => do
            let type ← exprType other (ctx.enter p.locals) e
            let p ← p.take n type
            pure { p with type? := some type }
      match p.slot?, p.type? with
      | some slot, some type => printVar slot n type
      | _, _ => throw .unset
      declare ctx p ms
  | _ :: ms => declare ctx p ms

/-- Code in front of other code; a missing piece is a fault. -/
def after (code : Code) : Piece → Gen Code
  | some c => return code ++ c
  | none => throw .wrongKind

def indices (ctx : Context) (code : Code) : List Node → Gen Code
  | [] => return code
  | i :: is => do
      let (c, _) ← expr other ctx i
      indices ctx (← after code c) is

/-- An assignment to a name, to an element of an array or to an element of a struct.
To all else it prints nothing. -/
def assign (ctx : Context) (target value : Node) : Gen Unit := do
  ctx.needMethod
  match target with
  | .id n => do
      let sym ← ctx.find n
      printPiece (← expr other ctx value).1
      match sym.home with
      | .slot i => emit (Emit.writeVar n sym.type i)
      | .member owner _ => emit (Emit.putStatic (owner ++ "/" ++ n) sym.type)
      | .unknown => print []
  | .cell a is => do
      let (c, t) ← expr other ctx a
      let code ← indices other ctx (← after [] c) is
      let element ← typeOf other ctx (← require t.element?)
      let store ← onFrame (Emit.storeCell element)
      print code
      printPiece (← expr other ctx value).1
      print store
  | .field r n => do
      let (c, t) ← expr other ctx r
      let code ← after [] c
      let type ← typeOf other ctx (← elementOf n (← require t.elements?))
      let owner ← Act.ofExcept t.typeName
      let store ← onFrame (Emit.putField (owner ++ "/" ++ n) type)
      print code
      printPiece (← expr other ctx value).1
      print store
  | _ => print []

/-- A variable of the block at hand. -/
def varDecl (ctx : Context) (name : String) (init : Node) : Gen Unit := do
  ctx.needMethod
  let sym ← ctx.find name
  match sym.home with
  | .slot i => do
      if init.truthy then printPiece (← expr other ctx init).1 else emit (zero sym.type)
      emit (Emit.writeVar name sym.type i)
  | _ => pure ()

/-- A constant of the block at hand. -/
def constDecl (ctx : Context) (name : String) (init : Node) : Gen Unit := do
  ctx.needMethod
  let sym ← ctx.find name
  let _ ← require sym.home.word?
  printPiece (← expr other ctx init).1
  match sym.home with
  | .slot i => emit (Emit.writeVar name sym.type i)
  | _ => do
      let _ ← onFrame (Emit.writeBank name sym.type)
      throw .wrongKind

/-- A loop over an array, up to the length of the array. -/
def forEach (ctx : Context) (index value array : Node) : Gen Unit := do
  ctx.needMethod
  if (← require index.name?) ≠ "_" then ctx.need .scopes
  let _ ← require value.name?
  ctx.need .scopes
  let (c, t) ← expr other ctx array
  printPiece c
  let _ ← require t.element?
  emit Emit.dup
  let slot ← onFrame Frame.newIndex
  emit (Emit.writeVar "temp_arr_foreach" t slot)
  throw .wrongCount

/-- Leaves a method with the value of an expression, or with none. -/
def returnStmt (ctx : Context) (value : Node) : Gen Unit := do
  ctx.needMethod
  if value.truthy then do
    let (c, t) ← expr other ctx value
    printPiece c
    printPiece (← onFrame (Emit.ret t))
  else printPiece (← onFrame (Emit.ret .voidType))

mutual

/-- Prints the code of a statement. -/
def stmt (ctx : Context) : Node → Gen Unit
  | .var n _ i => varDecl other ctx n i
  | .const n _ i => constDecl other ctx n i
  | .assign l r => assign other ctx l r
  | .block ms => do
      ctx.needMethod
      ctx.need .scopes
      onFrame (Frame.enterScope false)
      printLabel Frame.startLabel
      let locals ← declare other ctx {} ms
      stmts (ctx.enter locals) ms
      printLabel Frame.endLabel
      onFrame Frame.exitScope
  | .ifElse c y n => do
      ctx.needMethod
      printPiece (← expr other ctx c).1
      let done ← onFrame Frame.newLabel
      if n.truthy then
        let no ← onFrame Frame.newLabel
        emit (Emit.ifFalse (Operand.ofNat no))
        stmt ctx y
        print (Emit.jump (Operand.ofNat done))
        print (Emit.label (Operand.ofNat no))
        stmt ctx n
      else
        emit (Emit.ifFalse (Operand.ofNat done))
        stmt ctx y
      print (Emit.label (Operand.ofNat done))
  | .forBasic _ _ => do
      ctx.needMethod
      let _ ← onFrame Frame.newLabel
      let _ ← onFrame Frame.newLabel
      throw .wrongCount
  | .forStep i _ _ _ => do
      ctx.needMethod
      let _ ← onFrame Frame.newLabel
      let _ ← onFrame Frame.newLabel
      let _ ← onFrame Frame.newLabel
      ctx.need .scopes
      stmt (ctx.enter []) i
      throw .wrongCount
  | .forEach i v a _ => forEach other ctx i v a
  | .breakLoop => do
      ctx.needMethod
      emit do return Emit.jump (Operand.ofNat (← Frame.endLabel))
  | .continueLoop => do
      ctx.needMethod
      emit do return Emit.jump (Operand.ofNat (← Frame.continueLabel))
  | .ret e => returnStmt other ctx e
  | .id n => do
      let _ ← readId ctx n
      pure ()
  | n =>
      if isExpr n then do
        let _ ← expr other ctx n
        pure ()
      else if !n.hasRule then throw .missingPart
      else do
        let _ ← other ctx n
        pure ()
termination_by structural n => n

/-- Prints the code of statements, one after the other. -/
def stmts (ctx : Context) : List Node → Gen Unit
  | [] => pure ()
  | m :: ms => do
      stmt ctx m
      stmts ctx ms
termination_by structural ms => ms

end

attribute [local simp] declare stmt stmts

end Recursive

end MiniGoc.Gen
