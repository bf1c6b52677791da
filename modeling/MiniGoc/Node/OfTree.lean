import MiniGoc.Fault
import MiniGoc.Grammar.Rules
import MiniGoc.Node
import MiniGoc.Number.Numeral

/-!
# From syntax trees to nodes

`SyntaxTree.toNode` builds the node of a syntax tree from the leaves upwards.  The
node of each inner tree is made from its children and their nodes by `Build.node`,
one case for each rule.  A token has no node of its own (`Node.none`).

On a derivation of the grammar all children are where the rule puts them.  The
builder also accepts repaired trees, in which children may be missing and skipped
tokens may stand among them.  It takes the first child of each kind, and a missing
child is a fault.  The faults of the children a rule does not ask for are ignored.

Rules for lists build a `Node.list`, operators a `Node.text`, and the elements of
structs a `Node.pair`.
-/

namespace MiniGoc.Build

/-- A child of a syntax tree with its node. -/
structure Built where
  tree : SyntaxTree
  node : Except Fault Node

/-- A rule's children, from which its node is built. -/
abbrev Parts := List Built

namespace Parts

def child? (ps : Parts) (r : Rule) : Option Built := ps.find? (fun b => b.tree.isRule r)

def token? (ps : Parts) (k : TokenKind) : Option SyntaxTree :=
  (ps.find? (fun b => b.tree.isToken k)).map Built.tree

def texts (ps : Parts) (k : TokenKind) : List String :=
  (ps.filter (fun b => b.tree.isToken k)).map (fun b => b.tree.text)

/-- Whether there is a child of a rule. -/
def has (ps : Parts) (r : Rule) : Bool := (ps.child? r).isSome

/-- The node of the first child of a rule. -/
def get (ps : Parts) (r : Rule) : Except Fault Node :=
  match ps.child? r with
  | some b => b.node
  | none => .error .missingPart

/-- The node of the first child of a rule, or another node if there is none. -/
def getOr (ps : Parts) (r : Rule) (other : Node) : Except Fault Node :=
  match ps.child? r with
  | some b => b.node
  | none => .ok other

/-- The nodes of all children of a rule. -/
def getAll (ps : Parts) (r : Rule) : Except Fault (List Node) :=
  (ps.filter (fun b => b.tree.isRule r)).mapM Built.node

def first (ps : Parts) : Except Fault Node :=
  match ps with
  | b :: _ => b.node
  | [] => .error .wrongKind

def firstText (ps : Parts) : Except Fault String :=
  match ps with
  | b :: _ => .ok b.tree.text
  | [] => .error .wrongKind

def text (ps : Parts) (k : TokenKind) : Except Fault String :=
  match ps.token? k with
  | some t => .ok t.text
  | none => .error .missingPart

def textAt (ps : Parts) (k : TokenKind) (i : Nat) : Except Fault String :=
  match (ps.texts k)[i]? with
  | some s => .ok s
  | none => .error .missingPart

/-- The text of the first child of a rule. -/
def ruleText (ps : Parts) (r : Rule) : Except Fault String :=
  match ps.child? r with
  | some b => .ok b.tree.text
  | none => .error .missingPart

end Parts

open Parts

def items : Node → Except Fault (List Node)
  | .list xs => .ok xs
  | _ => .error .wrongKind

/-- The name and the arguments of a call. -/
def callee : Node → Except Fault (String × List Node)
  | .call n as => .ok (n, as)
  | _ => .error .missingPart

/-- The sizes and the element type of an array type. -/
def arrayParts : Node → Except Fault (List Node × Node)
  | .arrayType ds e => .ok (ds, e)
  | _ => .error .missingPart

/-- An assignment.  A compound operator, such as `+=`, applies its first character to
the target and the value. -/
def assignment (target value : Node) (op : String) : Except Fault Node :=
  if op == ":=" then .ok (.assign target value)
  else
    match op.toList with
    | c :: _ => .ok (.assign target (.binary c.toString target value))
    | [] => .error .outOfRange

/-- A level of binary operators: an operator, if one is there, and its operands. -/
def level (ps : Parts) (op : Option String) (same next : Rule) : Except Fault Node := do
  match op with
  | some op => do
      let l ← ps.get same
      let r ← ps.get next
      return .binary op l r
  | none => ps.get next

/-- The text of the operator of a level that has a rule for its operators. -/
def operator? (ps : Parts) (r : Rule) : Option String := (ps.child? r).map (fun b => b.tree.text)

/-- The text of the operator of a level with one operator. -/
def tokenOperator? (ps : Parts) (k : TokenKind) : Option String := (ps.token? k).map Tree.text

/-- Conditions, the last one first, around the branch for the case that all fail. -/
def conditional : List Node → Node → Except Fault Node
  | [], no => .ok no
  | .ifElse c y _ :: cs, no => conditional cs (.ifElse c y no)
  | _ :: _, _ => .error .missingPart

/-- A literal that stands in a rule as one token, if there is one.  `number` and
`decimal` say what becomes of the spelling of a number. -/
def literal? (ps : Parts) (number decimal : String → Except Fault Node) :
    Option (Except Fault Node) :=
  match ps.token? .intLit, ps.token? .floatLit, ps.token? .stringLit, ps.token? .boolLit,
      ps.token? .nilLit, ps.token? .ident with
  | some t, _, _, _, _, _ => some ((number t.text).map .intLit)
  | _, some t, _, _, _, _ => some ((decimal t.text).map .floatLit)
  | _, _, some t, _, _, _ => some (.ok (.stringLit (.text t.text)))
  | _, _, _, some t, _, _ => some (.ok (.boolLit (.bool (t.text == "true"))))
  | _, _, _, _, some _, _ => some (.ok .nilLit)
  | _, _, _, _, _, some t => some (.ok (.id t.text))
  | none, none, none, none, none, none => none

/-- The value of an integer. -/
def readInt (s : String) : Except Fault Node :=
  match Numeral.readInt? s with
  | some i => .ok (.int i)
  | none => .error .badNumeral

/-- The value of a floating point number. -/
def readFloat (s : String) : Except Fault Node :=
  match Numeral.readFloat? s with
  | some x => .ok (.float x)
  | none => .error .badNumeral

def spelling (s : String) : Except Fault Node := .ok (.text s)

/-- The parameters of each type, with the names it is given to. -/
def params : List String → Except Fault Node → Except Fault (List Node)
  | [], _ => .ok []
  | n :: ns, t => do
      let type ← t
      let rest ← params ns t
      return .param n type :: rest

def paramTypes : List Node → Except Fault (List Node)
  | [] => .ok []
  | .param _ t :: ps => do
      let rest ← paramTypes ps
      return t :: rest
  | _ :: _ => .error .missingPart

/-- The parameters in a heading; none if it has no list of them. -/
def heading (ps : Parts) : Except Fault (List Node) := do
  items (← ps.getOr .paramList (.list []))

def function (ps : Parts) (name : String) : Except Fault Node := do
  let params ← heading ps
  let result ← ps.getOr .typ .voidType
  let body ← ps.get .block
  return .func name params result body

def node (r : Rule) (ps : Parts) : Except Fault Node :=
  match r with
  | .program => do return .program (← ps.getAll .decl)
  | .decl => ps.first
  | .stmt => ps.first
  | .block => do return .block (← ps.getAll .stmt)
  | .varDecl => do
      let n ← ps.text .ident
      let t ← ps.getOr .typ .none
      let i ← ps.getOr .expr .none
      return .var n t i
  | .constDecl => do
      let n ← ps.text .ident
      let i ← ps.get .expr
      return .const n .none i
  | .assignStmt => do
      let l ← ps.get .lhs
      let e ← ps.get .expr
      let op ← ps.ruleText .assignOperator
      assignment l e op
  | .lhs =>
      match ps.token? .ident with
      | some t => .ok (.id t.text)
      | none => ps.first
  | .ifStmt => do
      let c ← ps.get .onlyIf
      let cs ← items (← ps.get .elseIfList)
      let no ← ps.getOr .elseStmt .none
      conditional (cs.reverse ++ [c]) no
  | .onlyIf => do
      let e ← ps.get .expr
      let b ← ps.get .block
      return .ifElse e b .none
  | .elseIfList => do return .list (← ps.getAll .onlyIf)
  | .elseStmt => ps.get .block
  | .forStmt => ps.first
  | .basicFor => do
      let e ← ps.get .expr
      let b ← ps.get .block
      return .forBasic e b
  | .forInitial => do
      let i ← ps.get .initialization
      let e ← ps.get .expr
      let u ← ps.get .update
      let b ← ps.get .block
      return .forStep i e u b
  | .initialization =>
      if ps.has .update then ps.get .update
      else do
        let n ← ps.text .ident
        let t ← ps.getOr .typ .none
        let i ← ps.get .expr
        return .var n t i
  | .update => do
      let n ← ps.text .ident
      let e ← ps.get .expr
      let op ← ps.ruleText .assignOperator
      assignment (.id n) e op
  | .forRange => do
      let i ← ps.textAt .ident 0
      let v ← ps.textAt .ident 1
      let e ← ps.get .expr
      let b ← ps.get .block
      return .forEach (.id i) (.id v) e b
  | .breakStmt => .ok .breakLoop
  | .continueStmt => .ok .continueLoop
  | .callStmt => ps.first
  | .returnStmt => do return .ret (← ps.getOr .expr .none)
  | .funcDecl => do function ps (← ps.text .ident)
  | .funcCall => do
      let n ← ps.text .ident
      let args ← items (← ps.getOr .argumentList (.list []))
      return .call n args
  | .argumentList => do return .list (← ps.getAll .expr)
  | .methodDecl => do
      let f ← function ps (← ps.textAt .ident 2)
      let n ← ps.textAt .ident 0
      let t ← ps.textAt .ident 1
      return .method n (.id t) f
  | .methodCall => do
      let (n, args) ← callee (← ps.get .funcCall)
      let c ← ps.get .chain
      return .methodCall c n args
  | .primitiveType =>
      if (ps.token? .kwInt).isSome then .ok .intType
      else if (ps.token? .kwFloat).isSome then .ok .floatType
      else if (ps.token? .kwString).isSome then .ok .stringType
      else .ok .boolType
  | .typ =>
      match ps.token? .ident with
      | some t => .ok (.id t.text)
      | none => ps.first
  | .expr => level ps (tokenOperator? ps .or) .expr .expr1
  | .expr1 => level ps (tokenOperator? ps .and) .expr1 .expr2
  | .expr2 => level ps (operator? ps .relationalOperator) .expr2 .expr3
  | .expr3 => level ps (operator? ps .lowOperator) .expr3 .expr4
  | .expr4 => level ps (operator? ps .highOperator) .expr4 .expr5
  | .expr5 =>
      if ps.has .expr5 then do
        let op ← ps.firstText
        let e ← ps.get .expr5
        return .unary op e
      else ps.get .expr6
  | .expr6 => ps.first
  | .subExpr => ps.get .expr
  | .operand =>
      match literal? ps readInt readFloat with
      | some n => n
      | none => ps.first
  | .arrayType =>
      if ps.has .arrayType then do
        let d ← ps.get .arrayLiteralBox
        let (ds, e) ← arrayParts (← ps.get .arrayType)
        return .arrayType (d :: ds) e
      else do
        let d ← ps.get .arrayLiteralBox
        if ps.has .primitiveType then do
          let e ← ps.get .primitiveType
          return .arrayType [d] e
        else do
          let n ← ps.text .ident
          return .arrayType [d] (.id n)
  | .arrayLiteralBox =>
      match ps.token? .intLit with
      | some t => .ok (.intLit (.text t.text))
      | none => do return .id (← ps.text .ident)
  | .arrayAccessBox => ps.get .expr
  | .arrayLiteral => do
      let (ds, e) ← arrayParts (← ps.get .arrayType)
      let v ← ps.get .arrayEleList
      return .arrayLit ds e v
  | .arrayEleList => do return .list (← ps.getAll .arrayEle)
  | .arrayEle =>
      match literal? ps spelling spelling with
      | some n => n
      | none => ps.first
  | .shortArrayLiteral => do
      let v ← ps.get .arrayEleList
      return .arrayLit [] .voidType v
  | .arrayAccess =>
      if ps.has .operand then do
        let a ← ps.get .operand
        let is ← ps.getAll .arrayAccessBox
        return .cell a is
      else
        match ps.token? .ident with
        | some t => do
            let c ← ps.get .chain
            let is ← ps.getAll .arrayAccessBox
            return .cell (.field c t.text) is
        | none => do
            let (n, args) ← callee (← ps.get .funcCall)
            let c ← ps.get .chain
            let is ← ps.getAll .arrayAccessBox
            return .cell (.methodCall c n args) is
  | .structDecl => do
      let n ← ps.text .ident
      let fs ← ps.getAll .structField
      return .structType n fs [] []
  | .structField => do
      let n ← ps.text .ident
      let t ← ps.get .typ
      return .pair n t
  | .structLiteral => do
      let n ← ps.text .ident
      let es ← items (← ps.getOr .structEleList (.list []))
      return .structLit n es
  | .structEleList => do return .list (← ps.getAll .structEle)
  | .structEle => do
      let n ← ps.text .ident
      let e ← ps.get .expr
      return .pair n e
  | .structAccess => do
      let c ← ps.get .chain
      let n ← ps.text .ident
      return .field c n
  | .chain =>
      if ps.has .operand then ps.get .operand
      else
        match ps.token? .ident with
        | some t => do return .field (← ps.get .chain) t.text
        | none =>
            if ps.has .arrayAccessBox then do
              let c ← ps.get .chain
              let is ← ps.getAll .arrayAccessBox
              return .cell c is
            else do
              let c ← ps.get .chain
              let (n, args) ← callee (← ps.get .funcCall)
              return .methodCall c n args
  | .interfaceDecl => do
      let n ← ps.text .ident
      let ms ← ps.getAll .interfaceMethod
      return .interfaceType n ms
  | .interfaceMethod => do
      let types ← paramTypes (← heading ps)
      let n ← ps.text .ident
      let result ← ps.getOr .typ .voidType
      return .prototype n types result
  | .paramList => do
      let groups ← (← ps.getAll .paramDecl).mapM items
      return .list groups.flatten
  | .paramDecl => do return .list (← params (ps.texts .ident) (ps.get .typ))
  | .highOperator => do return .text (← ps.firstText)
  | .lowOperator => do return .text (← ps.firstText)
  | .relationalOperator => do return .text (← ps.firstText)
  | .assignOperator => do return .text (← ps.firstText)

end MiniGoc.Build

namespace MiniGoc.SyntaxTree

mutual

def toNode : SyntaxTree → Except Fault Node
  | Tree.leaf _ => .ok .none
  | Tree.node r cs => Build.node r (parts cs)

/-- Children with their nodes. -/
def parts : List SyntaxTree → Build.Parts
  | [] => []
  | c :: cs => ⟨c, toNode c⟩ :: parts cs

end

theorem parts_eq (cs : List SyntaxTree) : parts cs = cs.map fun c => ⟨c, toNode c⟩ := by
  induction cs with
  | nil => rw [parts, List.map_nil]
  | cons c cs ih => rw [parts, ih, List.map_cons]

end MiniGoc.SyntaxTree
