import MiniGoc.Listing.Stmt

/-!
# The code of declarations

A function or a method prints one method, with a frame of its own.  A struct or an
interface prints a listing of its own, which is written to a file as soon as it is
complete.  A program prints the class that holds its variables, their initialisers
and its functions.

Methods of structs and interfaces have no code.
-/

namespace MiniGoc.Gen

/-- The name and the type of a parameter. -/
def param : Node → Gen (String × Node)
  | .param n t => return (n, t)
  | _ => throw .missingPart

/-- Takes a slot for a parameter. -/
def declareParam (name : String) (type : Node) : Gen Symbol := do
  let slot ← onFrame Frame.newIndex
  printVar slot name type
  return .localVar name type slot

/-- Takes a slot for each parameter. -/
def declareParams : List Node → Gen (List Symbol)
  | [] => return []
  | p :: ps => do
      let (n, t) ← param p
      let s ← declareParam n t
      return s :: (← declareParams ps)

/-- The type of the arguments of the command line. -/
def commandLine : Node := .arrayType [.none] .stringType

/-- Opens the scope of a method and prints its first lines. -/
def startMethod (name : String) (type : Node) (isStatic : Bool) : Gen Unit := do
  emit (Emit.method name type isStatic)
  onFrame (Frame.enterScope true)
  printLabel Frame.startLabel

/-- Prints the last lines of a method and closes its scope. -/
def finishMethod (result : Node) : Gen Unit := do
  printLabel Frame.endLabel
  printPiece (← onFrame (Emit.ret result))
  emit Emit.endMethod
  onFrame Frame.exitScope

/-- Declares a name at the top level of the program. -/
def addGlobal (s : Symbol) : Gen Unit := modify fun w => { w with globals := w.globals ++ [s] }

/-- The names at the top level, without a frame. -/
def globalContext (missing : List Need) : Gen Context := do return ⟨[(← get).globals], missing⟩

/-- The name, the parameters, the result and the body of a function. -/
def funcSlots : Node → Gen (String × List Node × Node × Node)
  | .func n ps r b => return (n, ps, r, b)
  | .prototype n ps r => return (n, ps, r, .none)
  | _ => throw .missingPart

/-- A method needs a receiver that is neither a struct nor an interface. -/
def checkReceiver : Node → Gen Unit
  | .method _ t _ => do
      let n ← require t.name?
      let sym ← require (Symbol.find? n (← get).globals)
      match sym.type with
      | .structType .. | .interfaceType .. => throw .missingPart
      | _ => pure ()
  | _ => pure ()

/-- The initialiser of a variable or a constant. -/
def initOf : Node → Node
  | .var _ _ i => i
  | .const _ _ i => i
  | _ => .none

section Recursive

variable (other : Visitor)

def func (ctx : Context) (name : String) (params : List Node) (result body : Node) : Gen Unit := do
  ctx.need .listing
  withFrame do
    if name = "main" then
      startMethod name (.funcType [commandLine] .voidType) true
      ctx.need .scopes
      let s ← declareParam "args" commandLine
      stmt other (ctx.enter [s]) body
    else
      let types ← params.mapM fun p => do return (← param p).2
      startMethod name (.funcType types result) true
      ctx.need .scopes
      let ss ← declareParams params
      stmt other (ctx.enter ss) body
    finishMethod result

def method (ctx : Context) (receiver : String) (type fn : Node) : Gen Unit := do
  ctx.need .listing
  let (name, params, result, body) ← funcSlots fn
  let types ← params.mapM fun p => do return (← param p).2
  withFrame do
    startMethod name (.funcType types result) false
    ctx.need .scopes
    let this ← declareParam receiver type
    let ss ← declareParams params
    stmt other (ctx.enter (this :: ss)) body
    finishMethod result

/-- Prints a method of an interface. -/
def prototype (ctx : Context) (name : String) (params : List Node) (result : Node) : Gen Unit := do
  ctx.need .listing
  emit do
    let type ← Emit.descriptor (.funcType params result)
    return [.abstractMethod name type, .endMethod]

/-- Prints a member of a struct or an interface. -/
def member (ctx : Context) : Node → Gen Unit
  | .method r t f => method other ctx r t f
  | .prototype n ps r => prototype ctx n ps r
  | n => stmt other ctx n

def interfaceDecl (ctx : Context) (name : String) (methods : List Node) : Gen Unit := do
  ctx.need .scopes
  withListing (Listing.fileName name) do
    print (Emit.prolog name "" true)
    methods.forM (member other { ctx with missing := [.frame] })
    writeFile

/-- Prints the fields of a struct. -/
def fields (ctx : Context) : List Node → Gen Unit
  | [] => pure ()
  | .pair n t :: es => do
      let type ← typeOf other ctx t
      emit (Emit.fieldLine n type false false none)
      fields ctx es
  | _ :: _ => throw .wrongKind

/-- Prints the constructor of a class. -/
def constructor (type : Node) : Gen Unit := withFrame do
  emit (Emit.method "<init>" (.funcType [] .voidType) false)
  onFrame (Frame.enterScope true)
  let slot ← onFrame Frame.newIndex
  printVar slot "this" type
  printLabel Frame.startLabel
  emit (Emit.readVar "this" type slot)
  emit (Emit.invokeSpecial "java/lang/Object/<init>" (.funcType [] .voidType))
  finishMethod .voidType

def structDecl (ctx : Context) (name : String) (elements methods : List Node) (type : Node) :
    Gen Unit := do
  ctx.need .scopes
  withListing (Listing.fileName name) do
    print (Emit.prolog name "java.lang.Object" false)
    fields other ctx elements
    constructor type
    methods.forM (member other { ctx with missing := [.frame] })
    writeFile

/-- The type of each parameter of a function, at the top level. -/
def paramTypes (ctx : Context) : List Node → Gen (List Node)
  | [] => return []
  | p :: ps => do
      let (_, t) ← param p
      let type ← typeOf other ctx t
      return type :: (← paramTypes ctx ps)

/-- Declares the name of a declaration of the program.  The initialiser of a
variable without a type is looked at with all that surrounds the program. -/
def declareGlobal (ctx : Context) (d : Node) : Gen Unit := do
  let here ← globalContext [.frame, .listing]
  match d with
  | .func n ps r _ => do
      let params ← paramTypes other here ps
      let result ← typeOf other here r
      addGlobal (.global n (.funcType params result))
  | .structType n .. => addGlobal ⟨n, d, .member n true⟩
  | .interfaceType n _ => addGlobal ⟨n, d, .member n true⟩
  | .var n t i => do
      let declared ← if t.truthy then typeOf other here t else pure .none
      let type ← if declared.isNone && i.truthy then
          exprType other { ctx with scopes := (← get).globals :: ctx.scopes.tail } i
        else pure declared
      addGlobal (.global n type)
  | .const n _ i => do
      let _ ← constant here i
      let type ← exprType other here i
      addGlobal (.global n type)
  | _ => pure ()

/-- Prints the field of a variable or a constant of the program, and gives it back
if it has an initialiser. -/
def globalField (ctx : Context) (name : String) (isFinal : Bool) (d : Node) :
    Gen (List (Symbol × Node)) := do
  let here := { ctx with scopes := (← get).globals :: ctx.scopes.tail }
  match ← here.find? name with
  | some sym =>
      match sym.home with
      | .member owner _ =>
          if owner = mainClass then
            emit (Emit.fieldLine name sym.type true isFinal none)
            return if (initOf d).truthy then [(sym, d)] else []
          else return []
      | _ => return []
  | none => return []

/-- Prints the fields of the program. -/
def globalFields (ctx : Context) : List Node → Gen (List (Symbol × Node))
  | [] => return []
  | d :: ds => do
      let first ← match d with
        | .var n _ _ => globalField ctx n false d
        | .const n _ _ => globalField ctx n true d
        | _ => pure []
      return first ++ (← globalFields ctx ds)

/-- Prints the initialisation of one field. -/
def initialise (ctx : Context) (item : Symbol × Node) : Gen Unit := do
  printPiece (← expr other ctx (initOf item.2)).1
  emit (Emit.putStatic (mainClass ++ "/" ++ item.1.name) item.1.type)

/-- Prints the method that initialises the fields of a class. -/
def staticInit (items : List (Symbol × Node)) (globals : List Symbol) : Gen Unit := withFrame do
  startMethod "<clinit>" (.funcType [] .voidType) true
  items.forM (initialise other ⟨[globals], []⟩)
  finishMethod .voidType

/-- Prints a function, a struct or an interface of the program. -/
def topLevel (d : Node) : Gen Unit := do
  match d with
  | .func n ps r b => func other (← globalContext [.frame]) n ps r b
  | .structType n es ms _ => structDecl other (← globalContext [.frame, .listing]) n es ms d
  | .interfaceType n ms => interfaceDecl other (← globalContext [.frame, .listing]) n ms
  | _ => pure ()

/-- Prints a program and writes its files. -/
def program (ctx : Context) (decls : List Node) : Gen Unit := do
  ctx.need .scopes
  let globals ← Act.ofOption .outOfRange ctx.scopes.head?
  modify fun w => { w with globals := globals }
  decls.forM (declareGlobal other ctx)
  decls.forM checkReceiver
  print (Emit.prolog mainClass "java.lang.Object" false)
  let items ← globalFields ctx decls
  staticInit other items (← get).globals
  decls.forM (topLevel other)
  writeFile
  printPiece none

end Recursive

/-- What a node comes to, whatever it is.  The number bounds how often a node of
another kind than its place asks for is looked into. -/
def visit : Nat → Visitor
  | 0, _, _ => throw .wrongKind
  | k + 1, ctx, n =>
      match n with
      | .program ds => nothing (program (visit k) ctx ds)
      | .func n ps r b => nothing (func (visit k) ctx n ps r b)
      | .method r t f => nothing (method (visit k) ctx r t f)
      | .prototype n ps r => nothing (prototype ctx n ps r)
      | .structType n es ms is =>
          nothing (structDecl (visit k) ctx n es ms (.structType n es ms is))
      | .interfaceType n ms => nothing (interfaceDecl (visit k) ctx n ms)
      | .intType | .floatType | .boolType | .stringType | .voidType | .arrayType .. =>
          return .type n
      | .id n => do
          match ← readId ctx n with
          | some (c, t) => return .value c t
          | none => return .nothing
      | n =>
          if isExpr n then do
            let (c, t) ← expr (visit k) ctx n
            return .value c t
          else nothing (stmt (visit k) ctx n)
where
  /-- An action that comes to nothing. -/
  nothing (m : Gen Unit) : Gen Visited := do
    m
    return .nothing

/-- How deep nodes of the wrong kind are looked into. -/
def depthLimit : Nat := 64

/-- Generates the code of a program: its result, and the listings and files made on
the way. -/
def run (n : Node) : Except Fault Unit × Workspace :=
  let ctx : Context := ⟨[Symbol.builtins], [.frame, .listing]⟩
  let start : Workspace :=
    { current := ⟨Listing.fileName mainClass, []⟩, globals := Symbol.builtins }
  Act.start (do let _ ← visit depthLimit ctx n) start

end MiniGoc.Gen
