import MiniGoc.Symbol

/-!
# Programs as they are read

A node can be anything, but the nodes that are read from a source are of a few sorts:
expressions, types, statements and declarations, each with parts of the sorts its
place asks for.  `Node.isProgram` tests a whole program for that.

The tests ask no more than the proofs need.  What stands in a loop is not looked at,
since loops have no code, nor what stands in a method.
-/

namespace MiniGoc

namespace Node

def binaryOperators : List String :=
  ["+", "-", "*", "/", "%", "==", "!=", "<", "<=", ">", ">=", "&&", "||"]

/-- Types of the elements of arrays as they are written. -/
def isElementTree : Node → Bool
  | intType | floatType | boolType | stringType | voidType | id _ => true
  | _ => false

/-- Types as they are written. -/
def isTypeTree : Node → Bool
  | intType | floatType | boolType | stringType | voidType | id _ => true
  | arrayType _ e => isElementTree e
  | _ => false

/-- Elements of a struct type as they are written. -/
def isFieldTypeTree : Node → Bool
  | pair _ t => isTypeTree t
  | _ => false

mutual

/-- Expressions as they are written. -/
def isExprTree : Node → Bool
  | id _ | nilLit => true
  | cell a is => isExprTree a && areExprTrees is
  | field r _ => isExprTree r
  | binary op l r => binaryOperators.contains op && isExprTree l && isExprTree r
  | unary op e => (op == "-" || op == "!") && isExprTree e
  | call _ as => areExprTrees as
  | methodCall r _ as => isExprTree r && areExprTrees as
  | intLit (int _) | intLit (text _) | stringLit (text _) => true
  | floatLit _ | boolLit _ => true
  | arrayLit ds e v => areExprTrees ds && isElementTree e && isElementList v
  | structLit _ es => areFieldTrees es
  | _ => false

def areExprTrees : List Node → Bool
  | [] => true
  | e :: es => isExprTree e && areExprTrees es

def isElementList : Node → Bool
  | list es => areExprTrees es
  | _ => false

/-- The elements of a struct. -/
def areFieldTrees : List Node → Bool
  | [] => true
  | pair _ e :: es => isExprTree e && areFieldTrees es
  | _ :: _ => false

end

attribute [local simp] isExprTree areExprTrees

def isBlock : Node → Bool
  | block _ => true
  | _ => false

/-- What may stand after `else`: nothing, a block or another condition. -/
def isElseTree : Node → Bool
  | none | block _ | ifElse _ _ _ => true
  | _ => false

/-- What can be assigned to. -/
def isTarget : Node → Bool
  | id _ => true
  | cell _ _ | field _ _ => true
  | _ => false

mutual

/-- Statements as they are written, and the place of a branch that is left out. -/
def isStmtTree : Node → Bool
  | none => true
  | var _ t i => (isNone t || isTypeTree t) && (isNone i || isExprTree i)
  | const _ _ i => isExprTree i
  | assign l r => isTarget l && isExprTree l && isExprTree r
  | block ms => areStmtTrees ms
  | ifElse c y n =>
    isExprTree c && isBlock y && isStmtTree y && isElseTree n && isStmtTree n
  | forBasic _ _ | forStep _ _ _ _ | forEach _ _ _ _ => true
  | breakLoop | continueLoop => true
  | ret e => isNone e || isExprTree e
  | call n as => isExprTree (call n as)
  | methodCall r n as => isExprTree (methodCall r n as)
  | _ => false

/-- Statements in a row. -/
def areStmtTrees : List Node → Bool
  | [] => true
  | m :: ms => !isNone m && isStmtTree m && areStmtTrees ms

end

attribute [local simp] isStmtTree areStmtTrees

/-- Parameters as they are written. -/
def isParamTree : Node → Bool
  | param _ t => isTypeTree t
  | _ => false

/-- The methods of an interface type. -/
def isPrototype : Node → Bool
  | prototype _ _ _ => true
  | _ => false

/-- Declarations as they are written. -/
def isDeclTree : Node → Bool
  | func _ ps r b => ps.all isParamTree && isTypeTree r && isBlock b && isStmtTree b
  | method _ _ _ => true
  | var _ t i => (isNone t || isTypeTree t) && (isNone i || isExprTree i)
  | const _ _ i => isExprTree i
  | structType _ es ms _ => es.all isFieldTypeTree && ms.isEmpty
  | interfaceType _ ms => ms.all isPrototype
  | _ => false

/-- Programs as they are written. -/
def isProgram : Node → Bool
  | program ds => ds.all isDeclTree
  | _ => false

/-- Types that a name or an expression of such a program can have. -/
def isKnownType : Node → Bool
  | arrayType _ e => isElementTree e
  | structType _ es _ _ => es.all isFieldTypeTree
  | funcType _ r => isTypeTree r
  | arrayLit _ _ _ | structLit _ _ | checkedFuncType _ _ => false
  | _ => true

end Node

end MiniGoc
