import MiniGoc.Token.Kind
import MiniGoc.Token.Pattern
import MiniGoc.Token.Comment

/-!
# From a source to its tokens

The source is first cut into *lexemes* (`Lexeme.cut`).  Each is the longest
match of a row of the rule table `TokenKind.rules` at its place, and the first
such row.  The last row takes any character, so the lexemes cover the source.

Then the lexemes become tokens (`Lexeme.tokens`).  Comments and blanks yield
none.  A line break yields a semicolon after a token that can end a line
(`TokenKind.endsLine`), and none otherwise.  Three rows stand for errors and
stop the reading (`LexError`).
-/

namespace MiniGoc

/-! ## The rule table -/

/-- How a row of the table is matched. -/
inductive Matcher where
  | pattern (p : Pattern)
  | comment

/-- The length of the longest match at the start of a source. -/
def Matcher.longest (cs : List Char) : Matcher → Option Nat
  | .pattern p => p.longest cs
  | .comment => Comment.length? cs

namespace TokenKind

open Pattern

def digit : Pattern := range [('0', '9')]

def backslash : Pattern := .char (.of ['\\'])

def quote : Pattern := .char (.of ['"'])

/-- A backslash and what may follow it in a string. -/
def escape : Pattern :=
  oneOf [.seq backslash (.char (.of ['n', 't', 'r'])), .seq backslash quote,
    .seq backslash backslash]

def inString : Pattern := .alt escape (.char (.except ['\n', '\r', '"', '\\']))

/-- Decimal integers have no leading zero. -/
def decimalPattern : Pattern := .alt (lit "0") (.seq (range [('1', '9')]) (.star digit))

def binaryPattern : Pattern :=
  chain [lit "0", .char (.of ['b', 'B']), plus (.char (.of ['0', '1']))]

def octalPattern : Pattern :=
  chain [lit "0", .char (.of ['o', 'O']), plus (range [('0', '7')])]

/-- Hexadecimal integers. -/
def hexPattern : Pattern :=
  chain [lit "0", .char (.of ['x', 'X']), plus (range [('0', '9'), ('a', 'f'), ('A', 'F')])]

def matcher (k : TokenKind) : Matcher :=
  match k.literal? with
  | some s => .pattern (lit s)
  | none =>
      match k with
      | lineComment => .pattern (.seq (lit "//") (.star (.char (.except ['\r', '\n']))))
      | blockComment => .comment
      | intLit => .pattern (oneOf [decimalPattern, binaryPattern, octalPattern, hexPattern])
      | decimalInt => .pattern decimalPattern
      | binaryInt => .pattern binaryPattern
      | octalInt => .pattern octalPattern
      | hexInt => .pattern hexPattern
      | floatLit => .pattern (chain [plus digit, lit ".", opt (.star digit),
          opt (chain [.char (.of ['e', 'E']), opt (.char (.of ['+', '-'])), plus digit])])
      | stringLit => .pattern (.alt (.seq quote quote) (chain [quote, plus inString, quote]))
      | boolLit => .pattern (.alt (lit "true") (lit "false"))
      | newline => .pattern (.alt (lit "\r\n") (lit "\n"))
      | blank => .pattern (.char (.of [' ', '\t', '\x0c', '\r']))
      | ident => .pattern (.seq (range [('A', 'Z'), ('a', 'z'), ('_', '_')])
          (.star (range [('A', 'Z'), ('a', 'z'), ('_', '_'), ('0', '9')])))
      | illegalEscape => .pattern (chain [quote, .star inString, backslash,
          .char (.except ['n', 't', 'r', '\\'])])
      | unclosedString => .pattern (chain [quote, .star inString,
          .alt (.char (.of ['\r', '\n'])) .atEnd])
      | errorChar => .pattern (.char (.except []))
      | _ => .pattern .never

/-- The rows of the table. -/
def rules : List (TokenKind × Matcher) := all.map (fun k => (k, k.matcher))

end TokenKind

/-! ## Lexemes -/

/-- A piece of the source with the row of a table it matched. -/
structure Lexeme (κ : Type) where
  kind : κ
  text : List Char
  /-- Where it starts. -/
  place : Place
deriving DecidableEq, Repr, Inhabited

namespace Lexeme

variable {κ : Type}

/-- The row with the longest match; the first one of several. -/
def best (cs : List Char) : List (κ × Matcher) → Option (κ × Nat)
  | [] => none
  | (k, m) :: rows =>
      match m.longest cs, best cs rows with
      | some n, some (k', n') => if n' ≤ n then some (k, n) else some (k', n')
      | some n, none => some (k, n)
      | none, r => r

/-- Cuts a source into lexemes.  Where no row matches, or one matches no character,
a single character is a lexeme of the kind `wrong`. -/
def cut (wrong : κ) (rules : List (κ × Matcher)) (place : Place) : List Char → List (Lexeme κ)
  | [] => []
  | c :: cs =>
      let (kind, n) := (best (c :: cs) rules).getD (wrong, 1)
      let text := c :: cs.take (n - 1)
      ⟨kind, text, place⟩ :: cut wrong rules (place.after text) (cs.drop (n - 1))
termination_by cs => cs.length
decreasing_by simp only [List.length_drop, List.length_cons]; omega

end Lexeme

/-! ## Tokens -/

/-- Why a source has no tokens from some place on. -/
inductive LexError where
  /-- A character that starts nothing. -/
  | errorToken (text : String)
  /-- A string that is not closed in its line. -/
  | unclosedString (text : String)
  /-- A backslash with a wrong character after it. -/
  | illegalEscape (text : String)
deriving DecidableEq, Repr, Inhabited

namespace LexError

def text : LexError → String
  | errorToken s => s
  | unclosedString s => s
  | illegalEscape s => s

/-- The message shown to the user. -/
def message : LexError → String
  | errorToken s => "Error Token " ++ s
  | unclosedString s => "Unclosed String: " ++ s
  | illegalEscape s => "Illegal Escape In String: " ++ s

end LexError

/-- The tokens of a source.  Without an error the last one is the end of the
source. -/
structure Tokens where
  /-- The tokens, or those before the error. -/
  tokens : TokenList
  /-- The error, if there is one. -/
  error : Option LexError
deriving Repr, Inhabited

namespace Lexeme

/-- A string without the line break at its end. -/
def withoutBreak (cs : List Char) : List Char :=
  match cs.getLast? with
  | some '\r' => cs.dropLast
  | some '\n' => cs.dropLast
  | _ => cs

/-- What a lexeme stands for after a token of kind `prev`: an error, a token,
or nothing. -/
def token (prev : Option TokenKind) (l : Lexeme TokenKind) :
    Except LexError (Option (Token TokenKind)) :=
  match l.kind with
  | .illegalEscape => .error (.illegalEscape (String.ofList l.text))
  | .unclosedString => .error (.unclosedString (String.ofList (withoutBreak l.text)))
  | .errorChar => .error (.errorToken (String.ofList l.text))
  | .lineComment | .blockComment | .blank => .ok none
  | .newline =>
      if prev.any TokenKind.endsLine then .ok (some ⟨.semicolon, ";", l.place⟩) else .ok none
  | k => .ok (some ⟨k, String.ofList l.text, l.place⟩)

/-- The tokens of a sequence of lexemes, the last one at `stop`. -/
def tokens (stop : Place) (prev : Option TokenKind) : List (Lexeme TokenKind) → Tokens
  | [] => ⟨[⟨.eof, "<EOF>", stop⟩], none⟩
  | l :: ls =>
      match l.token prev with
      | .error e => ⟨[], some e⟩
      | .ok none => tokens stop prev ls
      | .ok (some t) =>
          let r := tokens stop (some t.kind) ls
          ⟨t :: r.tokens, r.error⟩

end Lexeme

def Tokens.ofSource (source : String) : Tokens :=
  let cs := source.toList
  Lexeme.tokens (Place.after {} cs) none (Lexeme.cut .errorChar TokenKind.rules {} cs)

end MiniGoc
