import MiniGoc.Proofs.Opening

/-!
# Watching the generator

A watched action is an action of the generator that also keeps a record.  Each call of the
generator for an expression, a statement or a declaration of a method is put down as a `Sight`:
the names in sight, the slots that literals have taken in the scopes that are open, and the next
slot of the frame.

The generator is written down once more with the two actions that keep the record, `see` and
`temporary`.  What makes no calls of its own, and what is no part of a method, is taken over as it
is.
-/

namespace MiniGoc

open Emit

/-- What is in sight at a call of the generator. -/
structure Sight where
  /-- The names in sight. -/
  names : List Symbol
  /-- The slots that literals have taken in the scopes that are open, also where the literal is
  done with. -/
  temps : List Int
  /-- The next slot of the frame. -/
  index : Int
  /-- The parameters of a method whose code starts here. -/
  params? : Option (List (String × Node))

/-- A workspace and the record. -/
structure Watched where
  work : Workspace
  /-- The slots of literals in the scopes that are open. -/
  temps : List Int := []
  seen : List Sight := []

/-- An action of the code generator that keeps a record. -/
abbrev Watch (α : Type) := Act Watched α

namespace Watch

variable {α : Type}

/-- An action of the generator of which nothing is put down. -/
def plain (g : Gen α) : Watch α := Act.onPart Watched.work (fun w s => { s with work := w }) g

theorem yields_plain {g : Gen α} {s t : Watched} {a : α} :
    Act.Yields (plain g) s a t ↔ ∃ w, Act.Yields g s.work a w ∧ t = { s with work := w } :=
  Act.yields_onPart

/-- Puts down what is in sight. -/
def look (names : List Symbol) (params? : Option (List (String × Node))) : Watch Unit :=
  modify fun s => { s with seen := s.seen ++ [⟨names, s.temps, s.work.frame.index, params?⟩] }

def see (ctx : Context) : Watch Unit := look ctx.scopes.flatten none

/-- Takes a slot for a literal. -/
def temporary (ctx : Context) : Watch Int := do
  let slot ← plain (Gen.onFrame Frame.newIndex)
  modify fun s => { s with temps := slot :: s.temps }
  see ctx
  return slot

/-- An action in a scope of its own, after which its literals are gone. -/
def inScope (m : Watch Unit) : Watch Unit := do
  let outer ← get
  (do
    plain (Gen.onFrame (Frame.enterScope false))
    m
    plain (Gen.onFrame Frame.exitScope))
  modify fun s => { s with temps := outer.temps }

/-- An action with a frame of its own. -/
def withFrame (m : Watch α) : Watch α := do
  let outer ← get
  Act.andFinally
    (do
      modify fun s => { s with work := { s.work with frame := {} }, temps := [] }
      m)
    fun s => { s with work := { s.work with frame := outer.work.frame }, temps := outer.temps }

section Recursive

local instance : MonadLift Gen Watch := ⟨plain⟩

variable (other : Visitor)

mutual

def expr (ctx : Context) : Node → Watch (Piece × Node)
  | .cell a is => do
      see ctx
      ctx.needMethod
      let (ac, at') ← expr ctx a
      let (cs, t) ← cells ctx at' is
      return (some (← Gen.join (ac :: cs)), t)
  | .field r n => do
      see ctx
      ctx.needMethod
      let (rc, rt) ← expr ctx r
      let ft ← Gen.elementOf n (← Gen.require rt.elements?)
      let t ← Gen.typeOf other ctx ft
      let owner ← (Act.ofExcept rt.typeName : Gen String)
      let action ← Gen.onFrame (getField (owner ++ "/" ++ n) t)
      return (some (← Gen.join [rc, some action]), t)
  | .binary op l r => do
      see ctx
      ctx.needMethod
      let left ← expr ctx l
      let right ← expr ctx r
      Gen.binary op left right
  | .unary op e => do
      see ctx
      ctx.needMethod
      let _ ← expr ctx e
      if op = "-" ∨ op = "!" then throw .missingPart
      return (some [], .none)
  | .call n as => do
      see ctx
      ctx.needMethod
      let sym ← ctx.find n
      let cs ← args ctx as
      let owner ← Gen.require sym.home.word?
      let action ← Gen.onFrame (invokeStatic (owner ++ "/" ++ n) sym.type)
      let code ← Gen.join (cs ++ [some action])
      let (_, result) ← Gen.require sym.type.funcParts?
      return (some code, result)
  | .methodCall r n as => do
      see ctx
      ctx.needMethod
      let receiver ← expr ctx r
      let cs ← args ctx as
      Gen.methodCall ctx receiver n cs
  | .arrayLit ds e v => do
      see ctx
      ctx.needMethod
      let sizes ← args ctx ds
      let made ← Gen.onFrame
        (if ds.length = 1 then newArray e else newMultiArray (.arrayType ds e))
      let type := Node.arrayType ds e
      if v.truthy then
        let slot ← temporary ctx
        let saved ← Gen.onFrame (writeVar "temp_arr" type slot)
        let filled ← arrayValue ctx type e slot v
        let read ← Gen.onFrame (readVar "temp_arr" type slot)
        return (some (← Gen.join (sizes ++ [some made, some saved] ++ filled ++ [some read])), type)
      else return (some (← Gen.join (sizes ++ [some made])), type)
  | .structLit n es => do
      see ctx
      ctx.needMethod
      let type := (← ctx.find n).type
      let owner ← (Act.ofExcept type.descriptor : Gen String)
      let made ← Gen.onFrame (newObject owner)
      let copy ← Gen.onFrame dup
      let init ← Gen.onFrame (invokeSpecial (owner ++ "/<init>") (.funcType [] .voidType))
      let start := [some made, some copy, some init]
      if es.isEmpty then return (some (← Gen.join start), type)
      let slot ← temporary ctx
      let saved ← Gen.onFrame (writeVar "temp_obj" type slot)
      let filled ← structValues ctx type owner slot es
      let read ← Gen.onFrame (readVar "temp_obj" type slot)
      return (some (← Gen.join (start ++ [some saved] ++ filled ++ [some read])), type)
  | e => do
      see ctx
      Gen.expr other ctx e
termination_by structural n => n

def args (ctx : Context) : List Node → Watch (List Piece)
  | [] => return []
  | e :: es => do
      let (c, _) ← expr ctx e
      return c :: (← args ctx es)
termination_by structural es => es

def cells (ctx : Context) (type : Node) : List Node → Watch (List Piece × Node)
  | [] => return ([], type)
  | i :: is => do
      let (c, _) ← expr ctx i
      let element ← Gen.require type.element?
      let load ← Gen.onFrame (loadCell element)
      let (cs, t) ← cells ctx element is
      return (c :: some load :: cs, t)
termination_by structural is => is

def arrayValue (ctx : Context) (type element : Node) (slot : Int) : Node → Watch (List Piece)
  | .list es => arrayValues ctx type element slot 0 es
  | v => Gen.arrayValue other ctx type element slot v
termination_by structural v => v

def arrayValues (ctx : Context) (type element : Node) (slot : Int) (i : Nat) :
    List Node → Watch (List Piece)
  | [] => return []
  | e :: es => do
      let array ← Gen.onFrame (readVar "temp_arr" type slot)
      let index ← Gen.onFrame (pushInteger i)
      let (c, _) ← expr ctx e
      let store ← Gen.onFrame (storeCell element)
      return some array :: some index :: c :: some store
        :: (← arrayValues ctx type element slot (i + 1) es)
termination_by structural es => es

def structValues (ctx : Context) (type : Node) (owner : String) (slot : Int) :
    List Node → Watch (List Piece)
  | [] => return []
  | .pair n e :: es => do
      let object ← Gen.onFrame (readVar "temp_obj" type slot)
      let (c, _) ← expr ctx e
      let t ← Gen.elementOf n (← Gen.require type.elements?)
      let store ← Gen.onFrame (putField (owner ++ "/" ++ n) t)
      return some object :: c :: some store :: (← structValues ctx type owner slot es)
  | _ :: _ => throw .wrongKind
termination_by structural es => es

end

def exprType (ctx : Context) (e : Node) : Watch Node := do return (← expr other ctx e).2

/-- The first pass over a block.  It sees the names it has found so far. -/
def declare (ctx : Context) (p : Gen.Pass) : List Node → Watch (List Symbol)
  | [] => return p.locals
  | .var n t i :: ms => do
      let inner := ctx.enter p.locals
      see inner
      let type ← if t.truthy then Gen.typeOf other inner t else exprType other inner i
      let p ← p.take n type
      Gen.printVar (p.slot?.getD 0) n type
      declare ctx p ms
  | .const n _ i :: ms => do
      let inner := ctx.enter p.locals
      see inner
      let _ ← Gen.constant inner i
      let type ← exprType other inner i
      let p ← p.take n type
      Gen.printVar (p.slot?.getD 0) n type
      declare ctx p ms
  | .assign (.id n) e :: ms => do
      see (ctx.enter p.locals)
      let p ← match ← ctx.find? n with
        | some _ => pure p
        | none => do
            let type ← exprType other (ctx.enter p.locals) e
            let p ← p.take n type
            pure { p with type? := some type }
      match p.slot?, p.type? with
      | some slot, some type => Gen.printVar slot n type
      | _, _ => throw .unset
      declare ctx p ms
  | _ :: ms => declare ctx p ms

def indices (ctx : Context) (code : Code) : List Node → Watch Code
  | [] => return code
  | i :: is => do
      let (c, _) ← expr other ctx i
      indices ctx (← Gen.after code c) is

def assign (ctx : Context) (target value : Node) : Watch Unit := do
  ctx.needMethod
  match target with
  | .id n => do
      let sym ← ctx.find n
      Gen.printPiece (← expr other ctx value).1
      match sym.home with
      | .slot i => Gen.emit (writeVar n sym.type i)
      | .member owner _ => Gen.emit (putStatic (owner ++ "/" ++ n) sym.type)
      | .unknown => Gen.print []
  | .cell a is => do
      let (c, t) ← expr other ctx a
      let code ← indices other ctx (← Gen.after [] c) is
      let element ← Gen.typeOf other ctx (← Gen.require t.element?)
      let store ← Gen.onFrame (storeCell element)
      Gen.print code
      Gen.printPiece (← expr other ctx value).1
      Gen.print store
  | .field r n => do
      let (c, t) ← expr other ctx r
      let code ← Gen.after [] c
      let type ← Gen.typeOf other ctx (← Gen.elementOf n (← Gen.require t.elements?))
      let owner ← (Act.ofExcept t.typeName : Gen String)
      let store ← Gen.onFrame (putField (owner ++ "/" ++ n) type)
      Gen.print code
      Gen.printPiece (← expr other ctx value).1
      Gen.print store
  | _ => Gen.print []

def varDecl (ctx : Context) (name : String) (init : Node) : Watch Unit := do
  ctx.needMethod
  let sym ← ctx.find name
  match sym.home with
  | .slot i => do
      if init.truthy then Gen.printPiece (← expr other ctx init).1
      else Gen.emit (Gen.zero sym.type)
      Gen.emit (writeVar name sym.type i)
  | _ => pure ()

def constDecl (ctx : Context) (name : String) (init : Node) : Watch Unit := do
  ctx.needMethod
  let sym ← ctx.find name
  let _ ← Gen.require sym.home.word?
  Gen.printPiece (← expr other ctx init).1
  match sym.home with
  | .slot i => Gen.emit (writeVar name sym.type i)
  | _ => do
      let _ ← Gen.onFrame (writeBank name sym.type)
      throw .wrongKind

def forEach (ctx : Context) (index value array : Node) : Watch Unit := do
  ctx.needMethod
  if (← Gen.require index.name?) ≠ "_" then ctx.need .scopes
  let _ ← Gen.require value.name?
  ctx.need .scopes
  let (c, t) ← expr other ctx array
  Gen.printPiece c
  let _ ← Gen.require t.element?
  Gen.emit dup
  let slot ← temporary ctx
  Gen.emit (writeVar "temp_arr_foreach" t slot)
  throw .wrongCount

def returnStmt (ctx : Context) (value : Node) : Watch Unit := do
  ctx.needMethod
  if value.truthy then do
    let (c, t) ← expr other ctx value
    Gen.printPiece c
    Gen.printPiece (← Gen.onFrame (ret t))
  else Gen.printPiece (← Gen.onFrame (ret .voidType))

mutual

def stmt (ctx : Context) : Node → Watch Unit
  | .var n _ i => do
      see ctx
      varDecl other ctx n i
  | .const n _ i => do
      see ctx
      constDecl other ctx n i
  | .assign l r => do
      see ctx
      assign other ctx l r
  | .block ms => do
      see ctx
      ctx.needMethod
      ctx.need .scopes
      inScope do
        Gen.printLabel Frame.startLabel
        let locals ← declare other ctx {} ms
        stmts (ctx.enter locals) ms
        Gen.printLabel Frame.endLabel
  | .ifElse c y n => do
      see ctx
      ctx.needMethod
      Gen.printPiece (← expr other ctx c).1
      let done ← Gen.onFrame Frame.newLabel
      if n.truthy then
        let no ← Gen.onFrame Frame.newLabel
        Gen.emit (ifFalse (Operand.ofNat no))
        stmt ctx y
        Gen.print (jump (Operand.ofNat done))
        Gen.print (label (Operand.ofNat no))
        stmt ctx n
      else
        Gen.emit (ifFalse (Operand.ofNat done))
        stmt ctx y
      Gen.print (label (Operand.ofNat done))
  | .forStep i _ _ _ => do
      see ctx
      ctx.needMethod
      let _ ← Gen.onFrame Frame.newLabel
      let _ ← Gen.onFrame Frame.newLabel
      let _ ← Gen.onFrame Frame.newLabel
      ctx.need .scopes
      stmt (ctx.enter []) i
      throw .wrongCount
  | .forEach i v a _ => do
      see ctx
      forEach other ctx i v a
  | .ret e => do
      see ctx
      returnStmt other ctx e
  | .call n as => do
      see ctx
      let _ ← expr other ctx (.call n as)
      pure ()
  | .methodCall r n as => do
      see ctx
      let _ ← expr other ctx (.methodCall r n as)
      pure ()
  | n => do
      see ctx
      Gen.stmt other ctx n
termination_by structural n => n

def stmts (ctx : Context) : List Node → Watch Unit
  | [] => pure ()
  | m :: ms => do
      stmt ctx m
      stmts ctx ms
termination_by structural ms => ms

end

def initialise (ctx : Context) (item : Symbol × Node) : Watch Unit := do
  Gen.printPiece (← expr other ctx (Gen.initOf item.2)).1
  Gen.emit (putStatic (mainClass ++ "/" ++ item.1.name) item.1.type)

def staticInit (items : List (Symbol × Node)) (globals : List Symbol) : Watch Unit :=
  withFrame do
    Gen.startMethod "<clinit>" (.funcType [] .voidType) true
    look globals (some [])
    items.forM (initialise other ⟨[globals], []⟩)
    Gen.finishMethod .voidType

/-- The method of a function.  When its code starts, its parameters are put down. -/
def func (globals : List Symbol) (name : String) (params : List Node) (result body : Node) :
    Watch Unit := withFrame do
  let ss ← Gen.openFunc name params result
  look (ss ++ globals) (some (methodParams name params))
  stmt other (Context.enter ⟨[globals], [.frame]⟩ ss) body
  Gen.finishMethod result

def topLevel : Node → Watch Unit
  | .func n ps r b => do
      let w ← plain get
      func other w.globals n ps r b
  | d => Gen.topLevel other d

def declarations (decls : List Node) : Watch Unit := do
  let items ← Gen.prologue other .outermost decls
  let w ← plain get
  staticInit other items w.globals
  decls.forM (topLevel other)

/-- Generates the code of a program and keeps a record. -/
def run (decls : List Node) : Except Fault Unit × Watched :=
  Act.start
    (do
      declarations (Gen.visit 63) decls
      Gen.writeFile
      Gen.printPiece none)
    { work := .initial }

end Recursive

end Watch

end MiniGoc
