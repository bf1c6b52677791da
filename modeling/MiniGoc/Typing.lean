import MiniGoc.Lookup
import MiniGoc.Node.Printer

/-!
# Checking declarations

The checker goes through the declarations of a program with the list of the
names declared so far, the last one first.  A name is declared once.  The type of
an initialiser must be of the kind of the declared type, and a variable without a
declared type gets the type of its initialiser (`Outcome.node` is the program
with these types filled in).

Only variables, functions, numbers and names have a rule.  A function is checked
for its name only.
-/

namespace MiniGoc

/-- The kinds of named things in messages. -/
inductive DeclKind where
  | func
  | method
  | param
  | var
  | const
  | field
  | ident
  | type
  | prototype
deriving DecidableEq, Repr, Inhabited

def DeclKind.name : DeclKind → String
  | func => "Function"
  | method => "Method"
  | param => "Parameter"
  | var => "Variable"
  | const => "Constant"
  | field => "Field"
  | ident => "Identifier"
  | type => "Type"
  | prototype => "Prototype"

/-- Why a program does not pass the checker. -/
inductive TypingError where
  | redeclared (kind : DeclKind) (name : String)
  | undeclared (kind : DeclKind) (name : String)
  /-- A declaration whose initialiser has another type. -/
  | mismatch (node : Node)
  /-- A node for which the checker has no rule. -/
  | fault (f : Fault)
deriving Repr, Inhabited

def TypingError.message? : TypingError → Except Fault (Option String)
  | redeclared k n => .ok (some ("Redeclared " ++ k.name ++ ": " ++ n))
  | undeclared k n => .ok (some ("Undeclared " ++ k.name ++ ": " ++ n))
  | mismatch n => do return some ("Type Mismatch: " ++ (← n.render))
  | fault f => .ok f.message?

namespace Typing

/-- What the checker makes of a node. -/
structure Outcome where
  /-- The node, with the types of variables filled in. -/
  node : Node
  /-- The symbol of a declaration, the type of an expression, or an error. -/
  result : Except TypingError Node

/-- The names every program starts with. -/
def builtins : List Node :=
  [.symbol "getInt" (.checkedFuncType [] .intType),
   .symbol "putIntLn" (.checkedFuncType [.intType] .voidType)]

/-- The first entry of that name. -/
def find? (env : List Node) (name : String) : Except Fault (Option Node) :=
  lookup? (fun n => match n.name? with
    | some s => .ok s
    | none => .error .missingPart) (· == name) env

def entryType : Node → Except TypingError Node
  | .symbol _ t => .ok t
  | _ => .error (.fault .missingPart)

/-- Whether there is a rule to go into a node at all. -/
def isTree : Node → Bool
  | .none | .bool _ | .int _ | .float _ | .text _ | .list _ | .pair _ _ => false
  | .param _ _ | .funcType _ _ | .checkedFuncType _ _ | .symbol _ _ => false
  | _ => true

/-- The symbol of a new name, unless it is declared already. -/
def declare (env : List Node) (kind : DeclKind) (name : String) (type : Node) :
    Except TypingError Node :=
  match find? env name with
  | .error f => .error (.fault f)
  | .ok (some _) => .error (.redeclared kind name)
  | .ok none => .ok (.symbol name type)

mutual

def check (env : List Node) : Node → Outcome
  | .program ds =>
      let (ds, r) := checkAll env ds
      ⟨.program ds, r.map (fun _ => .list env)⟩
  | .var n t i =>
      match declare env .var n t with
      | .error e => ⟨.var n t i, .error e⟩
      | .ok s =>
          if i.truthy then
            let o := check env i
            match o.result with
            | .error e => ⟨.var n t o.node, .error e⟩
            | .ok found =>
                let t := if t.isNone then found else t
                let v : Node := .var n t o.node
                if t.sameKind found then ⟨v, .ok (.symbol n t)⟩ else ⟨v, .error (.mismatch v)⟩
          else ⟨.var n t i, .ok s⟩
  | .func n ps r b => ⟨.func n ps r b, declare env .func n (.checkedFuncType [] r)⟩
  | .intLit v => ⟨.intLit v, .ok .intType⟩
  | .floatLit v => ⟨.floatLit v, .ok .floatType⟩
  | .id n =>
      match find? env n with
      | .error f => ⟨.id n, .error (.fault f)⟩
      | .ok none => ⟨.id n, .error (.undeclared .ident n)⟩
      | .ok (some e) => ⟨.id n, entryType e⟩
  | n => ⟨n, .error (.fault (if isTree n then .wrongCount else .missingPart))⟩

/-- Checks declarations in order up to the first error.  Each sees the names
before it. -/
def checkAll (env : List Node) : List Node → List Node × Except TypingError Unit
  | [] => ([], .ok ())
  | d :: ds =>
      let o := check env d
      match o.result with
      | .error e => (o.node :: ds, .error e)
      | .ok s =>
          let (ds, r) := checkAll (s :: env) ds
          (o.node :: ds, r)

end

attribute [local simp] check checkAll

def run (program : Node) : Outcome := check builtins program

/-- The symbols that the check of a program ends with. -/
def Outcome.symbols (o : Outcome) : Except TypingError (List Node) :=
  match o.result with
  | .error e => .error e
  | .ok (.list ss) => .ok ss
  | .ok _ => .error (.fault .wrongKind)

end Typing

end MiniGoc
