import MiniGoc.Tree.Repair

/-!
# The starter language

A language small enough to start with.  A program is one main function whose body
is at most one call, and the argument of a call is another call or a number.

It has its own tokens and its own grammar, and is read with repairs only.  Every
character belongs to some token, so there are no lexical errors.
-/

namespace MiniGoc.Starter

/-! ## Tokens -/

inductive Kind where
  | eof
  | main | intType | voidType
  | ident | intLit
  | openParen | closeParen | openBrace | closeBrace | semicolon
  | blank | errorChar
deriving DecidableEq, Repr, Inhabited

namespace Kind

/-- The kinds of the rule table, in its order. -/
def all : List Kind :=
  [.main, .intType, .voidType, .ident, .intLit, .openParen, .closeParen, .openBrace, .closeBrace,
   .semicolon, .blank, .errorChar]

/-- The number of a kind, counted from one; zero for the end of the source. -/
def number (k : Kind) : Nat :=
  match all.findIdx? (· == k) with
  | some i => i + 1
  | none => 0

def name? : Kind → Option String
  | eof => some "EOF"
  | main => none
  | intType => some "INTTYPE"
  | voidType => some "VOIDTYPE"
  | ident => some "ID"
  | intLit => some "INTLIT"
  | openParen => some "LB"
  | closeParen => some "RB"
  | openBrace => some "LP"
  | closeBrace => some "RP"
  | semicolon => some "SEMI"
  | blank => some "WS"
  | errorChar => some "ERROR_CHAR"

/-- The text of a kind that has only one. -/
def literal? : Kind → Option String
  | main => some "main"
  | intType => some "int"
  | voidType => some "void"
  | openParen => some "("
  | closeParen => some ")"
  | openBrace => some "\x7b"
  | closeBrace => some "\x7d"
  | semicolon => some ";"
  | _ => none

/-- How a kind is shown: its only text in quotes, or its name. -/
def display (k : Kind) : String :=
  match k.literal? with
  | some s => "'" ++ s ++ "'"
  | none => k.name?.getD ""

def pattern (k : Kind) : Pattern :=
  match k.literal?, k with
  | some s, _ => .lit s
  | none, ident => .plus (.range [('a', 'z'), ('A', 'Z')])
  | none, intLit => .plus (.range [('0', '9')])
  | none, blank => .plus (.char (.of [' ', '\t', '\r', '\n']))
  | none, errorChar => .char (.except [])
  | none, _ => .never

/-- The rows of the rule table. -/
def rules : List (Kind × Matcher) := all.map fun k => (k, .pattern k.pattern)

end Kind

/-- The tokens of a source, without the end.  Blanks yield none. -/
def tokens (source : String) : List (Token Kind) :=
  (Lexeme.cut .errorChar Kind.rules {} source.toList).filterMap fun l =>
    if l.kind = .blank then none else some ⟨l.kind, String.ofList l.text, l.place⟩

def tokensWithEnd (source : String) : List (Token Kind) :=
  tokens source ++ [⟨.eof, "<EOF>", Place.after {} source.toList⟩]

/-! ## Grammar -/

inductive Rule where
  | program | type | body | expr | call
deriving DecidableEq, Repr, Inhabited

namespace Rule

/-- The rules in order. -/
def all : List Rule := [.program, .type, .body, .expr, .call]

def name : Rule → String
  | program => "program"
  | type => "mctype"
  | body => "body"
  | expr => "exp"
  | call => "funcall"

def alternatives : Rule → Alternatives Kind Rule
  | program => ⟨.next, [[.rule .type, .token .main, .token .openParen, .token .closeParen,
      .token .openBrace, .option [.rule .body], .token .closeBrace, .token .eof]]⟩
  | type => ⟨.next, [[.anyOf [.intType, .voidType]]]⟩
  | body => ⟨.next, [[.rule .call, .token .semicolon]]⟩
  | expr => ⟨.next, [[.rule .call], [.token .intLit]]⟩
  | call => ⟨.next, [[.token .ident, .token .openParen, .option [.rule .expr],
      .token .closeParen]]⟩

end Rule

/-- The grammar of the starter language. -/
def grammar : Grammar Kind Rule := ⟨Rule.alternatives⟩

def machine : Machine Kind Rule := .ofGrammar grammar Rule.all .eof Kind.display

def read (source : String) : Repair.Repaired Kind Rule :=
  machine.repair .program (tokensWithEnd source)

end MiniGoc.Starter
