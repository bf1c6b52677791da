import MiniGoc.Token.Lexer
import MiniGoc.Tree.Reader

/-!
# Reading syntax trees

`SyntaxTree.parse` reads a sequence of tokens as a derivation of the rule
`program`.  There is a reader for each rule of the grammar, and most are written like
the rule.  They decide by the next token, or by the next two or three, with
two exceptions.

* The alternatives of a primary expression all start with an operand.  So the
  operand and the links after it are read first (`Link`), and the last
  link settles the rule (`primaryTree`).  The same holds for a statement that
  starts with an operand: an assignment or a call.
* An identifier before an open brace may be the type of a struct literal or the
  last operand before a block.  Inside brackets, arguments and literals, and at
  the start of a statement, it is the former.  Elsewhere it is a struct literal
  if the brace is followed by a closing brace or by an identifier and a colon
  (`ifLiteral`).

A run of index boxes is never split, so the choice among several derivations is
fixed: every group of boxes is as long as possible.

Readers of rules that contain expressions take the reader of expressions as an argument, and
those of rules that contain blocks that of blocks.  Only `expr` and `stmt` are
recursive in that respect.  Between an expression and one inside it there is
a token, and so it is with statements, arrays and signs.  So the number of tokens bounds
the depth of the recursion and the rounds of all loops.
-/

namespace MiniGoc

namespace Reader

/-! ## Types -/

/-- The size in the type of an array. -/
def arrayLiteralBox : Reader Forest :=
  rule .arrayLiteralBox (seq [expect .openBracket, oneOf [.intLit, .ident], expect .closeBracket])

def primitiveType : Reader Forest := rule .primitiveType (oneOf Grammar.primitiveKinds)

def arrayType : Nat → Reader Forest
  | 0 => ended
  | fuel + 1 => rule .arrayType (seq [arrayLiteralBox,
      ifNext [.openBracket] (arrayType fuel)
        (ifNext [.ident] (expect .ident) primitiveType)])

def typ (fuel : Nat) : Reader Forest :=
  rule .typ (ifNext [.openBracket] (arrayType fuel)
    (ifNext [.ident] (expect .ident) primitiveType))

def typeStart : List TokenKind :=
  ([.ident, .openBracket] : List TokenKind) ++ Grammar.primitiveKinds

/-! ## Operands -/

def operandStart : List TokenKind :=
  [.intLit, .floatLit, .stringLit, .boolLit, .nilLit, .openBracket, .ident, .openParen]

def exprStart : List TokenKind := ([.sub, .not] : List TokenKind) ++ operandStart

section

variable (expr : Reader Forest)

def funcCall (fuel : Nat) : Reader Forest :=
  rule .funcCall (seq [expect .ident, expect .openParen,
    optional exprStart (listOf .argumentList expr fuel), expect .closeParen])

/-- An element of a struct literal. -/
def structEle : Reader Forest := rule .structEle (seq [expect .ident, expect .colon, expr])

def structLiteral (fuel : Nat) : Reader Forest :=
  rule .structLiteral (seq [expect .ident, expect .openBrace,
    optional [.ident] (listOf .structEleList (structEle expr) fuel), expect .closeBrace])

/-- An element of an array literal. -/
def arrayEle : Nat → Reader Forest
  | 0 => ended
  | fuel + 1 => rule .arrayEle
      (ifNext [.openBrace]
        (rule .shortArrayLiteral (seq [expect .openBrace,
          listOf .arrayEleList (arrayEle fuel) (fuel + 1), expect .closeBrace]))
        (ifAhead [[.ident], [.openBrace]] (structLiteral expr (fuel + 1))
          (oneOf [.intLit, .floatLit, .boolLit, .stringLit, .nilLit, .ident])))

def arrayLiteral (fuel : Nat) : Reader Forest :=
  rule .arrayLiteral (seq [arrayType fuel, expect .openBrace,
    listOf .arrayEleList (arrayEle expr fuel) fuel, expect .closeBrace])

def subExpr : Reader Forest :=
  rule .subExpr (seq [expect .openParen, expr, expect .closeParen])

/-- One of two readers, by whether a struct literal starts here.  Outside of all brackets, what
follows the brace has to look like its elements. -/
def ifLiteral (nested : Bool) (yes no : Reader Forest) : Reader Forest :=
  if nested then ifAhead [[.ident], [.openBrace]] yes no
  else ifAhead [[.ident], [.openBrace], [.closeBrace]] yes
    (ifAhead [[.ident], [.openBrace], [.ident], [.colon]] yes no)

def operand (nested : Bool) (fuel : Nat) : Reader Forest :=
  rule .operand
    (ifNext [.openBracket] (arrayLiteral expr fuel)
      (ifNext [.openParen] (subExpr expr)
        (ifAhead [[.ident], [.openParen]] (funcCall expr fuel)
          (ifLiteral nested (structLiteral expr fuel)
            (oneOf [.intLit, .floatLit, .stringLit, .boolLit, .nilLit, .ident])))))

/-! ## Primary expressions -/

/-- A link of a chain: a selected field or a method call, and the index boxes after it. -/
structure Link where
  /-- The rule of an expression that ends in the link, if there are no boxes. -/
  rule : Rule
  /-- The dot, and the name or the call. -/
  member : Forest
  boxes : Forest

/-- A chain with more children, if there are any. -/
def grown (chain : SyntaxTree) : Forest → SyntaxTree
  | [] => chain
  | c :: cs => .node .chain (chain :: c :: cs)

def chain (operand boxes : Forest) (links : List Link) : SyntaxTree :=
  links.foldl (fun c l => grown (grown c l.member) l.boxes) (grown (.node .chain operand) boxes)

/-- The expression of an operand with its boxes and links. -/
def primaryTree (operand boxes : Forest) (links : List Link) : Forest :=
  match links.getLast? with
  | none => if boxes.isEmpty then operand else [.node .arrayAccess (operand ++ boxes)]
  | some l =>
      let before := chain operand boxes links.dropLast
      if l.boxes.isEmpty then [.node l.rule (before :: l.member)]
      else [.node .arrayAccess (before :: l.member ++ l.boxes)]

/-- Index boxes, as many as there are. -/
def boxes (fuel : Nat) : Reader Forest :=
  manyTrees [[.openBracket]]
    (rule .arrayAccessBox (seq [expect .openBracket, expr, expect .closeBracket])) fuel

/-- A dot with a name or a call, under the rule of an expression that ends there. -/
def member (fuel : Nat) : Reader (Rule × Forest) := do
  let dot ← expect .dot
  ifAhead [[.ident], [.openParen]]
    (do
      let call ← funcCall expr fuel
      pure (.methodCall, dot ++ call))
    (do
      let name ← expect .ident
      pure (.structAccess, dot ++ name))

def link (fuel : Nat) : Reader Link := do
  let (rule, member) ← member expr fuel
  let boxes ← boxes expr fuel
  pure ⟨rule, member, boxes⟩

/-- An operand with all that belongs to it. -/
def primary (nested : Bool) (fuel : Nat) : Reader Forest := do
  let operand ← operand expr nested fuel
  let boxes ← boxes expr fuel
  let links ← many [[.dot]] (link expr fuel) fuel
  pure (primaryTree operand boxes links)

end

/-! ## Expressions -/

/-- Signs and negations before a primary expression. -/
def unary (primary : Reader Forest) : Nat → Reader Forest
  | 0 => ended
  | fuel + 1 => rule .expr5
      (ifNext [.not, .sub] (seq [oneOf [.not, .sub], unary primary fuel]) (rule .expr6 primary))

/-- A level of binary operators: its rule, its operators, and the rule that
wraps an operator. -/
structure Level where
  rule : Rule
  operators : List TokenKind
  /-- The rule around an operator. -/
  wrapper : Option Rule

/-- The levels, from the one that binds least. -/
def levels : List Level :=
  [⟨.expr, [.or], none⟩,
   ⟨.expr1, [.and], none⟩,
   ⟨.expr2, Grammar.relationKinds, some .relationalOperator⟩,
   ⟨.expr3, [.add, .sub], some .lowOperator⟩,
   ⟨.expr4, [.multiply, .divide, .remain], some .highOperator⟩]

def Level.operator (l : Level) : Reader Forest :=
  match l.wrapper with
  | some r => Reader.rule r (oneOf l.operators)
  | none => oneOf l.operators

def level (l : Level) (next : Reader Forest) (fuel : Nat) : Reader Forest := do
  let cs ← next
  joined l.rule l.operators (seq [l.operator, next]) fuel (.node l.rule cs)

/-- Levels over the expressions without operators. -/
def binary (ls : List Level) (operand : Reader Forest) (fuel : Nat) : Reader Forest :=
  ls.foldr (fun l next => level l next fuel) operand

/-- An expression; `nested` if it stands inside of brackets. -/
def expr (nested : Bool) : Nat → Reader Forest
  | 0 => ended
  | fuel + 1 =>
      binary levels (unary (primary (expr true fuel) nested (fuel + 1)) (fuel + 1)) (fuel + 1)

/-! ## Declarations of variables and constants -/

/-- An equals sign and an expression. -/
def initialiser (fuel : Nat) : Reader Forest := seq [expect .equal, expr false fuel]

def varDecl (fuel : Nat) : Reader Forest :=
  rule .varDecl (seq [expect .kwVar, expect .ident,
    ifNext [.equal] (initialiser fuel) (seq [typ fuel, optional [.equal] (initialiser fuel)]),
    expect .semicolon])

def constDecl (fuel : Nat) : Reader Forest :=
  rule .constDecl (seq [expect .kwConst, expect .ident, expect .equal, expr false fuel,
    expect .semicolon])

/-! ## Statements -/

def assignOperator : Reader Forest := rule .assignOperator (oneOf Grammar.assignKinds)

/-- The target of an assignment that an expression is, if it is one. -/
def target? : Forest → Option SyntaxTree
  | [.node .operand [.leaf t]] => if t.kind = .ident then some (.node .lhs [.leaf t]) else none
  | [.node .structAccess cs] => some (.node .lhs [.node .structAccess cs])
  | [.node .arrayAccess cs] => some (.node .lhs [.node .arrayAccess cs])
  | _ => none

/-- The call that an expression is, if it is one. -/
def call? : Forest → Option SyntaxTree
  | [.node .operand [.node .funcCall cs]] => some (.node .funcCall cs)
  | [.node .methodCall cs] => some (.node .methodCall cs)
  | _ => none

def assignTo (fuel : Nat) (target : SyntaxTree) : Reader Forest :=
  rule .assignStmt (seq [pure [target], assignOperator, expr false fuel, expect .semicolon])

/-- A statement that starts with an operand: an assignment or a call. -/
def simpleStmt (fuel : Nat) : Reader Forest := do
  let t ← primary (expr true fuel) true (fuel + 1)
  ifNext Grammar.assignKinds
    (match target? t with
      | some target => assignTo fuel target
      | none => reject)
    (match call? t with
      | some call => rule .callStmt (seq [pure [call], expect .semicolon])
      | none => reject)

def returnStmt (fuel : Nat) : Reader Forest :=
  rule .returnStmt (seq [expect .kwReturn, optional exprStart (expr false fuel),
    expect .semicolon])

/-- The assignment in the header of a loop. -/
def update (fuel : Nat) : Reader Forest :=
  rule .update (seq [expect .ident, assignOperator, expr false fuel])

/-- The first part of a loop header. -/
def initialization (fuel : Nat) : Reader Forest :=
  rule .initialization (ifNext [.kwVar]
    (seq [expect .kwVar, expect .ident,
      ifNext [.equal] (initialiser fuel) (seq [typ fuel, initialiser fuel]), expect .semicolon])
    (seq [update fuel, expect .semicolon]))

def stmtStart : List TokenKind :=
  ([.kwVar, .kwConst, .kwIf, .kwFor, .kwBreak, .kwContinue, .kwReturn] : List TokenKind) ++
    operandStart

def block (stmt : Reader Forest) (fuel : Nat) : Reader Forest :=
  rule .block (seq [expect .openBrace, stmt, manyTrees [stmtStart] stmt fuel, expect .closeBrace])

section

variable (block : Reader Forest)

/-- A condition and its block. -/
def onlyIf (fuel : Nat) : Reader Forest :=
  rule .onlyIf (seq [expect .kwIf, expect .openParen, expr false fuel, expect .closeParen, block])

/-- A conditional statement. -/
def ifStmt (fuel : Nat) : Reader Forest :=
  rule .ifStmt (seq [onlyIf block fuel,
    rule .elseIfList (manyTrees [[.kwElse], [.kwIf]]
      (seq [expect .kwElse, onlyIf block fuel]) fuel),
    optional [.kwElse] (rule .elseStmt (seq [expect .kwElse, block])),
    expect .semicolon])

/-- A loop with a condition only. -/
def basicFor (fuel : Nat) : Reader Forest :=
  rule .basicFor (seq [expect .kwFor, expr false fuel, block, expect .semicolon])

/-- A loop with three parts. -/
def forInitial (fuel : Nat) : Reader Forest :=
  rule .forInitial (seq [expect .kwFor, initialization fuel, expr false fuel, expect .semicolon,
    update fuel, block, expect .semicolon])

/-- A loop over an array. -/
def forRange (fuel : Nat) : Reader Forest :=
  rule .forRange (seq [expect .kwFor, expect .ident, expect .comma, expect .ident, expect .define,
    expect .kwRange, expr false fuel, block, expect .semicolon])

def forStmt (fuel : Nat) : Reader Forest :=
  rule .forStmt
    (ifAhead [[.kwFor], [.kwVar]] (forInitial block fuel)
      (ifAhead [[.kwFor], [.ident], Grammar.assignKinds] (forInitial block fuel)
        (ifAhead [[.kwFor], [.ident], [.comma]] (forRange block fuel) (basicFor block fuel))))

end

def stmt : Nat → Reader Forest
  | 0 => ended
  | fuel + 1 =>
      let block := block (stmt fuel) fuel
      rule .stmt
        (ifNext [.kwVar] (varDecl fuel)
          (ifNext [.kwConst] (constDecl fuel)
            (ifNext [.kwIf] (ifStmt block fuel)
              (ifNext [.kwFor] (forStmt block fuel)
                (ifNext [.kwBreak] (rule .breakStmt (seq [expect .kwBreak, expect .semicolon]))
                  (ifNext [.kwContinue]
                    (rule .continueStmt (seq [expect .kwContinue, expect .semicolon]))
                    (ifNext [.kwReturn] (returnStmt fuel) (simpleStmt fuel))))))))

/-! ## Declarations -/

def paramDecl (fuel : Nat) : Reader Forest :=
  rule .paramDecl (seq [expect .ident,
    manyTrees [[.comma]] (seq [expect .comma, expect .ident]) fuel, typ fuel])

/-- Parameters in parentheses and the type of the result. -/
def signature (fuel : Nat) : List (Reader Forest) :=
  [expect .openParen, optional [.ident] (listOf .paramList (paramDecl fuel) fuel),
    expect .closeParen, optional typeStart (typ fuel)]

def funcDecl (fuel : Nat) : Reader Forest :=
  rule .funcDecl (seq ([expect .kwFunc, expect .ident] ++ signature fuel
    ++ [block (stmt fuel) fuel, expect .semicolon]))

def methodDecl (fuel : Nat) : Reader Forest :=
  rule .methodDecl (seq ([expect .kwFunc, expect .openParen, expect .ident, expect .ident,
    expect .closeParen, expect .ident] ++ signature fuel
    ++ [block (stmt fuel) fuel, expect .semicolon]))

def structField (fuel : Nat) : Reader Forest :=
  rule .structField (seq [expect .ident, typ fuel, expect .semicolon])

def interfaceMethod (fuel : Nat) : Reader Forest :=
  rule .interfaceMethod (seq ([expect .ident] ++ signature fuel ++ [expect .semicolon]))

def structDecl (fuel : Nat) : Reader Forest :=
  rule .structDecl (seq [expect .kwType, expect .ident, expect .kwStruct, expect .openBrace,
    structField fuel, manyTrees [[.ident]] (structField fuel) fuel,
    expect .closeBrace, expect .semicolon])

def interfaceDecl (fuel : Nat) : Reader Forest :=
  rule .interfaceDecl (seq [expect .kwType, expect .ident, expect .kwInterface, expect .openBrace,
    interfaceMethod fuel, manyTrees [[.ident]] (interfaceMethod fuel) fuel,
    expect .closeBrace, expect .semicolon])

def decl (fuel : Nat) : Reader Forest :=
  rule .decl
    (ifNext [.kwVar] (varDecl fuel)
      (ifNext [.kwConst] (constDecl fuel)
        (ifNext [.kwType]
          (ifAhead [[.kwType], [.ident], [.kwInterface]] (interfaceDecl fuel) (structDecl fuel))
          (ifAhead [[.kwFunc], [.openParen]] (methodDecl fuel) (funcDecl fuel)))))

def declStart : List TokenKind := [.kwVar, .kwConst, .kwType, .kwFunc]

def program (fuel : Nat) : Reader Forest :=
  rule .program (seq [decl fuel, manyTrees [declStart] (decl fuel) fuel, expect .eof])

end Reader

/-- Why a source has no syntax tree. -/
inductive SyntaxError where
  /-- A lexical error that the reader came to. -/
  | lexical (e : LexError)
  /-- A token that cannot come next. -/
  | unexpected (t : Token TokenKind)
deriving DecidableEq, Repr, Inhabited

namespace SyntaxError

/-- The message for a token that cannot come next. -/
def unexpectedMessage (t : Token TokenKind) : String :=
  "Error on line " ++ toString t.place.line ++ " col " ++ toString t.place.column ++ ": "
    ++ t.text

/-- The message shown to the user. -/
def message : SyntaxError → String
  | lexical e => e.message
  | unexpected t => unexpectedMessage t

end SyntaxError

namespace SyntaxTree

def read (ts : TokenList) : Except Stuck SyntaxTree :=
  match Reader.program (ts.length + 1) ts with
  | .ok (t :: _, _) => .ok t
  | .ok ([], _) => .error .ended
  | .error e => .error e

def parse (source : String) : Except SyntaxError SyntaxTree :=
  let r := Tokens.ofSource source
  match read r.tokens, r.error with
  | .ok t, _ => .ok t
  | .error (.unexpected t _), _ => .error (.unexpected t)
  | .error .ended, some e => .error (.lexical e)
  | .error .ended, none => .error (.unexpected (r.tokens.getLastD default))

end SyntaxTree

end MiniGoc
