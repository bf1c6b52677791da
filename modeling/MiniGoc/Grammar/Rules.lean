import MiniGoc.Grammar

/-!
# The grammar of MiniGo

The rules of the language, their names, and the alternatives of each.  Binary
operators have one left recursive rule for each level of precedence, and so has
the chain of selections, indices and method calls (`Rule.chain`).
-/

namespace MiniGoc

/-- The rules of the grammar, in order of their numbers. -/
inductive Rule where
  | program | decl | stmt | block | varDecl | constDecl | assignStmt | lhs
  | ifStmt | onlyIf | elseIfList | elseStmt
  | forStmt | basicFor | forInitial | initialization | update | forRange
  | breakStmt | continueStmt | callStmt | returnStmt
  | funcDecl | funcCall | argumentList | methodDecl | methodCall
  | primitiveType | typ
  | expr | expr1 | expr2 | expr3 | expr4 | expr5 | expr6 | subExpr | operand
  | arrayType | arrayLiteralBox | arrayAccessBox | arrayLiteral | arrayEleList | arrayEle
  | shortArrayLiteral | arrayAccess
  | structDecl | structField | structLiteral | structEleList | structEle | structAccess | chain
  | interfaceDecl | interfaceMethod | paramList | paramDecl
  | highOperator | lowOperator | relationalOperator | assignOperator
deriving DecidableEq, Repr, Inhabited

namespace Rule

/-- The rules in order. -/
def all : List Rule :=
  [.program, .decl, .stmt, .block, .varDecl, .constDecl, .assignStmt, .lhs,
   .ifStmt, .onlyIf, .elseIfList, .elseStmt,
   .forStmt, .basicFor, .forInitial, .initialization, .update, .forRange,
   .breakStmt, .continueStmt, .callStmt, .returnStmt,
   .funcDecl, .funcCall, .argumentList, .methodDecl, .methodCall,
   .primitiveType, .typ,
   .expr, .expr1, .expr2, .expr3, .expr4, .expr5, .expr6, .subExpr, .operand,
   .arrayType, .arrayLiteralBox, .arrayAccessBox, .arrayLiteral, .arrayEleList, .arrayEle,
   .shortArrayLiteral, .arrayAccess,
   .structDecl, .structField, .structLiteral, .structEleList, .structEle, .structAccess, .chain,
   .interfaceDecl, .interfaceMethod, .paramList, .paramDecl,
   .highOperator, .lowOperator, .relationalOperator, .assignOperator]

def number (r : Rule) : Nat := all.idxOf r

def name : Rule → String
  | program => "program"
  | decl => "decl"
  | stmt => "stmt"
  | block => "block"
  | varDecl => "var_decl"
  | constDecl => "const_decl"
  | assignStmt => "assign_stmt"
  | lhs => "lhs"
  | ifStmt => "if_stmt"
  | onlyIf => "only_if_stmt"
  | elseIfList => "else_if_list"
  | elseStmt => "else_stmt"
  | forStmt => "for_stmt"
  | basicFor => "basic_for_loop"
  | forInitial => "for_loop_initial"
  | initialization => "initialization"
  | update => "update"
  | forRange => "for_loop_range"
  | breakStmt => "break_stmt"
  | continueStmt => "continue_stmt"
  | callStmt => "call_stmt"
  | returnStmt => "return_stmt"
  | funcDecl => "func_decl"
  | funcCall => "func_call"
  | argumentList => "argument_list"
  | methodDecl => "method_decl"
  | methodCall => "method_call"
  | primitiveType => "primitive_type"
  | typ => "typ"
  | expr => "expr"
  | expr1 => "expr1"
  | expr2 => "expr2"
  | expr3 => "expr3"
  | expr4 => "expr4"
  | expr5 => "expr5"
  | expr6 => "expr6"
  | subExpr => "sub_expr"
  | operand => "operand"
  | arrayType => "array_type"
  | arrayLiteralBox => "array_literal_box"
  | arrayAccessBox => "array_access_box"
  | arrayLiteral => "array_literal"
  | arrayEleList => "array_ele_list"
  | arrayEle => "array_ele"
  | shortArrayLiteral => "short_array_literal"
  | arrayAccess => "array_access"
  | structDecl => "struct_decl"
  | structField => "struct_field"
  | structLiteral => "struct_literal"
  | structEleList => "struct_ele_list"
  | structEle => "struct_ele"
  | structAccess => "struct_access"
  | chain => "struct_array_method"
  | interfaceDecl => "interface_decl"
  | interfaceMethod => "interface_method"
  | paramList => "param_list"
  | paramDecl => "param_decl"
  | highOperator => "arith_high_operator"
  | lowOperator => "arith_low_operator"
  | relationalOperator => "relational_operator"
  | assignOperator => "assign_operator"

end Rule

/-- A tree of the MiniGo grammar. -/
abbrev SyntaxTree := Tree TokenKind Rule

namespace Grammar

/-- A part of a MiniGo rule. -/
abbrev RulePart := Part TokenKind Rule

def one (ps : List RulePart) : Alternatives TokenKind Rule := ⟨.next, [ps]⟩

/-- Items with commas between them. -/
def listOf (item : Rule) : Alternatives TokenKind Rule :=
  one [.rule item, .many .next [.token .comma, .rule item]]

def assignKinds : List TokenKind :=
  [.define, .addTo, .subFrom, .multiplyBy, .divideBy, .remainBy]

/-- The six relations. -/
def relationKinds : List TokenKind :=
  [.equals, .notEquals, .greaterEq, .lessEq, .greater, .less]

/-- The names of the primitive types. -/
def primitiveKinds : List TokenKind := [.kwInt, .kwFloat, .kwString, .kwBoolean]

/-- The end of a function heading and its body. -/
def signature : List RulePart :=
  [.token .openParen, .option [.rule .paramList], .token .closeParen, .option [.rule .typ]]

def miniGoAlternatives : Rule → Alternatives TokenKind Rule
  | .program => one [.many1 .next [.rule .decl], .token .eof]
  | .decl => ⟨.far, [[.rule .varDecl], [.rule .constDecl], [.rule .structDecl],
      [.rule .interfaceDecl], [.rule .funcDecl], [.rule .methodDecl]]⟩
  | .stmt => ⟨.far, [[.rule .varDecl], [.rule .constDecl], [.rule .assignStmt], [.rule .ifStmt],
      [.rule .forStmt], [.rule .breakStmt], [.rule .continueStmt], [.rule .callStmt],
      [.rule .returnStmt]]⟩
  | .block => one [.token .openBrace, .many1 .next [.rule .stmt], .token .closeBrace]
  | .varDecl => one [.token .kwVar, .token .ident,
      .choice .far [[.rule .typ], [.token .equal, .rule .expr],
        [.rule .typ, .token .equal, .rule .expr]],
      .token .semicolon]
  | .constDecl => one [.token .kwConst, .token .ident, .token .equal, .rule .expr,
      .token .semicolon]
  | .assignStmt => one [.rule .lhs, .rule .assignOperator, .rule .expr, .token .semicolon]
  | .lhs => ⟨.far, [[.token .ident], [.rule .structAccess], [.rule .arrayAccess]]⟩
  | .ifStmt => one [.rule .onlyIf, .rule .elseIfList, .option [.rule .elseStmt],
      .token .semicolon]
  | .onlyIf => one [.token .kwIf, .token .openParen, .rule .expr, .token .closeParen,
      .rule .block]
  | .elseIfList => one [.many .far [.token .kwElse, .rule .onlyIf]]
  | .elseStmt => one [.token .kwElse, .rule .block]
  | .forStmt => ⟨.far, [[.rule .basicFor], [.rule .forInitial], [.rule .forRange]]⟩
  | .basicFor => one [.token .kwFor, .rule .expr, .rule .block, .token .semicolon]
  | .forInitial => one [.token .kwFor, .rule .initialization, .rule .expr, .token .semicolon,
      .rule .update, .rule .block, .token .semicolon]
  | .initialization => ⟨.next, [[.rule .update, .token .semicolon],
      [.token .kwVar, .token .ident,
        .choice .next [[.token .equal, .rule .expr], [.rule .typ, .token .equal, .rule .expr]],
        .token .semicolon]]⟩
  | .update => one [.token .ident, .rule .assignOperator, .rule .expr]
  | .forRange => one [.token .kwFor, .token .ident, .token .comma, .token .ident,
      .token .define, .token .kwRange, .rule .expr, .rule .block, .token .semicolon]
  | .breakStmt => one [.token .kwBreak, .token .semicolon]
  | .continueStmt => one [.token .kwContinue, .token .semicolon]
  | .callStmt => one [.choice .far [[.rule .funcCall], [.rule .methodCall]], .token .semicolon]
  | .returnStmt => one [.token .kwReturn, .option [.rule .expr], .token .semicolon]
  | .funcDecl => one ([.token .kwFunc, .token .ident] ++ signature
      ++ [.rule .block, .token .semicolon])
  | .funcCall => one [.token .ident, .token .openParen, .option [.rule .argumentList],
      .token .closeParen]
  | .argumentList => listOf .expr
  | .methodDecl => one ([.token .kwFunc, .token .openParen, .token .ident, .token .ident,
      .token .closeParen, .token .ident] ++ signature ++ [.rule .block, .token .semicolon])
  | .methodCall => one [.rule .chain, .token .dot, .rule .funcCall]
  | .primitiveType => one [.anyOf primitiveKinds]
  | .typ => ⟨.next, [[.rule .primitiveType], [.token .ident], [.rule .arrayType]]⟩
  | .expr => ⟨.next, [[.rule .expr, .token .or, .rule .expr1], [.rule .expr1]]⟩
  | .expr1 => ⟨.next, [[.rule .expr1, .token .and, .rule .expr2], [.rule .expr2]]⟩
  | .expr2 => ⟨.next, [[.rule .expr2, .rule .relationalOperator, .rule .expr3], [.rule .expr3]]⟩
  | .expr3 => ⟨.next, [[.rule .expr3, .rule .lowOperator, .rule .expr4], [.rule .expr4]]⟩
  | .expr4 => ⟨.next, [[.rule .expr4, .rule .highOperator, .rule .expr5], [.rule .expr5]]⟩
  | .expr5 => ⟨.next, [[.anyOf [.not, .sub], .rule .expr5], [.rule .expr6]]⟩
  | .expr6 => ⟨.far, [[.rule .structAccess], [.rule .arrayAccess], [.rule .methodCall],
      [.rule .operand]]⟩
  | .subExpr => one [.token .openParen, .rule .expr, .token .closeParen]
  | .operand => ⟨.far, [[.token .intLit], [.token .floatLit], [.token .stringLit],
      [.token .boolLit], [.token .nilLit], [.rule .arrayLiteral], [.rule .structLiteral],
      [.token .ident], [.rule .funcCall], [.rule .subExpr]]⟩
  | .arrayType => ⟨.far, [[.rule .arrayLiteralBox, .rule .arrayType],
      [.rule .arrayLiteralBox, .choice .next [[.rule .primitiveType], [.token .ident]]]]⟩
  | .arrayLiteralBox => one [.token .openBracket, .anyOf [.intLit, .ident], .token .closeBracket]
  | .arrayAccessBox => one [.token .openBracket, .rule .expr, .token .closeBracket]
  | .arrayLiteral => one [.rule .arrayType, .token .openBrace, .rule .arrayEleList,
      .token .closeBrace]
  | .arrayEleList => listOf .arrayEle
  | .arrayEle => ⟨.far, [[.token .intLit], [.token .floatLit], [.token .boolLit],
      [.token .stringLit], [.token .nilLit], [.token .ident], [.rule .structLiteral],
      [.rule .shortArrayLiteral]]⟩
  | .shortArrayLiteral => one [.token .openBrace, .rule .arrayEleList, .token .closeBrace]
  | .arrayAccess => ⟨.far, [
      [.rule .chain,
        .choice .far [[.token .dot, .token .ident], [.token .dot, .rule .funcCall]],
        .many1 .far [.rule .arrayAccessBox]],
      [.rule .operand, .many1 .far [.rule .arrayAccessBox]]]⟩
  | .structDecl => one [.token .kwType, .token .ident, .token .kwStruct, .token .openBrace,
      .many1 .next [.rule .structField], .token .closeBrace, .token .semicolon]
  | .structField => one [.token .ident, .rule .typ, .token .semicolon]
  | .structLiteral => one [.token .ident, .token .openBrace, .option [.rule .structEleList],
      .token .closeBrace]
  | .structEleList => listOf .structEle
  | .structEle => one [.token .ident, .token .colon, .rule .expr]
  | .structAccess => one [.rule .chain, .token .dot, .token .ident]
  | .chain => ⟨.far, [[.rule .operand], [.rule .chain, .token .dot, .token .ident],
      [.rule .chain, .many1 .far [.rule .arrayAccessBox]],
      [.rule .chain, .token .dot, .rule .funcCall]]⟩
  | .interfaceDecl => one [.token .kwType, .token .ident, .token .kwInterface, .token .openBrace,
      .many1 .next [.rule .interfaceMethod], .token .closeBrace, .token .semicolon]
  | .interfaceMethod => one ([.token .ident] ++ signature ++ [.token .semicolon])
  | .paramList => listOf .paramDecl
  | .paramDecl => one [.token .ident, .many .next [.token .comma, .token .ident], .rule .typ]
  | .highOperator => one [.anyOf [.multiply, .divide, .remain]]
  | .lowOperator => one [.anyOf [.add, .sub]]
  | .relationalOperator => one [.anyOf relationKinds]
  | .assignOperator => one [.anyOf assignKinds]

def miniGo : Grammar TokenKind Rule := ⟨miniGoAlternatives⟩

end Grammar

end MiniGoc
