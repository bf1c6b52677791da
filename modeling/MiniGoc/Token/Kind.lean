/-!
# Tokens

A token is a kind, its text and the place of its first character.  The kinds of
MiniGo are the rows of the rule table in `MiniGoc.Token.Lexer`, in the order of
that table, and the end of the source.  `Token` is generic in the kind, since
trees and grammars are too.
-/

namespace MiniGoc

/-- A place in a source: lines count from one, columns from zero. -/
structure Place where
  line : Nat := 1
  /-- The number of characters before it in its line. -/
  column : Nat := 0
deriving DecidableEq, Repr, Inhabited

/-- The place after one character.  Only a line feed starts a line. -/
def Place.next (p : Place) (c : Char) : Place :=
  if c = '\n' then ⟨p.line + 1, 0⟩ else ⟨p.line, p.column + 1⟩

def Place.after (p : Place) (cs : List Char) : Place := cs.foldl Place.next p

/-- A token of some vocabulary of kinds. -/
structure Token (κ : Type) where
  kind : κ
  /-- How it is written. -/
  text : String
  /-- Where it starts. -/
  place : Place
deriving DecidableEq, Repr, Inhabited

/-- The kinds of MiniGo tokens. -/
inductive TokenKind where
  | eof
  | lineComment | blockComment
  | kwIf | kwElse | kwFor | kwReturn | kwFunc | kwType | kwStruct | kwInterface
  | kwString | kwInt | kwFloat | kwBoolean | kwConst | kwVar | kwContinue | kwBreak | kwRange
  | add | sub | multiply | divide | remain
  | equals | notEquals | greaterEq | lessEq | greater | less
  | and | or | not
  | define | addTo | subFrom | multiplyBy | divideBy | remainBy
  | equal | dot
  | openParen | closeParen | openBracket | closeBracket | openBrace | closeBrace
  | comma | semicolon | colon
  | intLit | decimalInt | binaryInt | octalInt | hexInt
  | floatLit | stringLit | boolLit | nilLit
  | newline | blank | ident
  | illegalEscape | unclosedString | errorChar
deriving DecidableEq, Repr, Inhabited

/-- Tokens in the order of the source. -/
abbrev TokenList := List (Token TokenKind)

namespace TokenKind

/-- The kinds of the rule table, in its order.  A kind's number is its position,
counted from one. -/
def all : List TokenKind :=
  [.lineComment, .blockComment,
   .kwIf, .kwElse, .kwFor, .kwReturn, .kwFunc, .kwType, .kwStruct, .kwInterface,
   .kwString, .kwInt, .kwFloat, .kwBoolean, .kwConst, .kwVar, .kwContinue, .kwBreak, .kwRange,
   .add, .sub, .multiply, .divide, .remain,
   .equals, .notEquals, .greaterEq, .lessEq, .greater, .less,
   .and, .or, .not,
   .define, .addTo, .subFrom, .multiplyBy, .divideBy, .remainBy,
   .equal, .dot,
   .openParen, .closeParen, .openBracket, .closeBracket, .openBrace, .closeBrace,
   .comma, .semicolon, .colon,
   .intLit, .decimalInt, .binaryInt, .octalInt, .hexInt,
   .floatLit, .stringLit, .boolLit, .nilLit,
   .newline, .blank, .ident,
   .illegalEscape, .unclosedString, .errorChar]

/-- The number of a kind; zero for the end of the source. -/
def number (k : TokenKind) : Nat :=
  match all.findIdx? (· == k) with
  | some i => i + 1
  | none => 0

def name : TokenKind → String
  | eof => "EOF"
  | lineComment => "SINGLE_LINE_COMMENT"
  | blockComment => "MULTI_LINE_COMMENT"
  | kwIf => "IF"
  | kwElse => "ELSE"
  | kwFor => "FOR"
  | kwReturn => "RETURN"
  | kwFunc => "FUNC"
  | kwType => "TYPE"
  | kwStruct => "STRUCT"
  | kwInterface => "INTERFACE"
  | kwString => "STRING"
  | kwInt => "INT"
  | kwFloat => "FLOAT"
  | kwBoolean => "BOOLEAN"
  | kwConst => "CONST"
  | kwVar => "VAR"
  | kwContinue => "CONTINUE"
  | kwBreak => "BREAK"
  | kwRange => "RANGE"
  | add => "ADD"
  | sub => "SUB"
  | multiply => "MULTIPLY"
  | divide => "DIVIDE"
  | remain => "REMAIN"
  | equals => "COMPARE_STR"
  | notEquals => "NOT_EQ"
  | greaterEq => "GREATER_OR_EQ"
  | lessEq => "LESS_OR_EQ"
  | greater => "GREATER"
  | less => "LESS"
  | and => "AND"
  | or => "OR"
  | not => "NOT"
  | define => "ASSIGNMENT_SIGN"
  | addTo => "SHORT_ADD"
  | subFrom => "SHORT_SUB"
  | multiplyBy => "SHORT_MULTIPLY"
  | divideBy => "SHORT_DIVIDE"
  | remainBy => "SHORT_REMAIN"
  | equal => "EQUAL"
  | dot => "DOT"
  | openParen => "OPEN_PARENTHESIS"
  | closeParen => "CLOSE_PARENTHESIS"
  | openBracket => "OPEN_BRACKET"
  | closeBracket => "CLOSE_BRACKET"
  | openBrace => "OPEN_BRACE"
  | closeBrace => "CLOSE_BRACE"
  | comma => "COMMA"
  | semicolon => "SEMICOLON"
  | colon => "COLON"
  | intLit => "INTEGER_LITERAL"
  | decimalInt => "DECIMAL_INT"
  | binaryInt => "BINARY_INT"
  | octalInt => "OCTAL_INT"
  | hexInt => "HEXA_INT"
  | floatLit => "FLOAT_LITERAL"
  | stringLit => "STRING_LITERAL"
  | boolLit => "BOOLEAN_LITERAL"
  | nilLit => "NIL_LITERAL"
  | newline => "NEWLINE"
  | blank => "WHITESPACE"
  | ident => "IDENTIFIER"
  | illegalEscape => "ILLEGAL_ESCAPE"
  | unclosedString => "UNCLOSE_STRING"
  | errorChar => "ERROR_CHAR"

/-- The spelling of a kind that has one spelling only. -/
def literal? : TokenKind → Option String
  | kwIf => some "if"
  | kwElse => some "else"
  | kwFor => some "for"
  | kwReturn => some "return"
  | kwFunc => some "func"
  | kwType => some "type"
  | kwStruct => some "struct"
  | kwInterface => some "interface"
  | kwString => some "string"
  | kwInt => some "int"
  | kwFloat => some "float"
  | kwBoolean => some "boolean"
  | kwConst => some "const"
  | kwVar => some "var"
  | kwContinue => some "continue"
  | kwBreak => some "break"
  | kwRange => some "range"
  | add => some "+"
  | sub => some "-"
  | multiply => some "*"
  | divide => some "/"
  | remain => some "%"
  | equals => some "=="
  | notEquals => some "!="
  | greaterEq => some ">="
  | lessEq => some "<="
  | greater => some ">"
  | less => some "<"
  | and => some "&&"
  | or => some "||"
  | not => some "!"
  | define => some ":="
  | addTo => some "+="
  | subFrom => some "-="
  | multiplyBy => some "*="
  | divideBy => some "/="
  | remainBy => some "%="
  | equal => some "="
  | dot => some "."
  | openParen => some "("
  | closeParen => some ")"
  | openBracket => some "["
  | closeBracket => some "]"
  | openBrace => some "\x7b"
  | closeBrace => some "\x7d"
  | comma => some ","
  | semicolon => some ";"
  | colon => some ":"
  | nilLit => some "nil"
  | _ => none

attribute [local simp] literal?

/-- Whether a line break right after a token of this kind is a semicolon. -/
def endsLine : TokenKind → Bool
  | ident | intLit | floatLit | boolLit | stringLit | nilLit
  | kwInt | kwFloat | kwBoolean | kwString
  | kwReturn | kwContinue | kwBreak
  | closeParen | closeBracket | closeBrace => true
  | _ => false

/-- How a kind is named in a message: by its spelling in quotes, or by its
name. -/
def display (k : TokenKind) : String :=
  match k.literal? with
  | some s => "'" ++ s ++ "'"
  | none => k.name

end TokenKind

end MiniGoc
