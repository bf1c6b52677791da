/-!
# Commands

The command line has three commands.  `gen` starts the tool that makes a parser,
which is not there; `clean` tries to empty the target directory, but takes the star
in its path by the letter; `test` runs a suite, once the target directory has a
parser.  All else shows how the commands are used.
-/

namespace MiniGoc

/-- The suites that can be asked for. -/
inductive Suite where
  | lexer
  | parser
  | tree
  | check
  | code
deriving DecidableEq, Repr, Inhabited

/-- What the command line asks for. -/
inductive Command where
  | generate
  | clean
  | test (suite : Option Suite)
  | usage
deriving DecidableEq, Repr, Inhabited

/-- Why a command fails. -/
inductive CommandError where
  /-- The tool that makes a parser is not there. -/
  | noTool
  /-- The suite is not there. -/
  | noSuite
deriving DecidableEq, Repr, Inhabited

namespace Command

def suite? : String → Option Suite
  | "LexerSuite" => some .lexer
  | "ParserSuite" => some .parser
  | "ASTGenSuite" => some .tree
  | "CheckSuite" => some .check
  | "CodeGenSuite" => some .code
  | _ => none

def ofArgs : List String → Command
  | "gen" :: _ => generate
  | "clean" :: _ => clean
  | "test" :: name :: _ => test (suite? name)
  | ["test"] => test none
  | _ => usage

/-- How the commands are used. -/
def usageText : String :=
  String.join (["gen", "test LexerSuite", "test ParserSuite", "test ASTGenSuite",
    "test CheckerSuite", "test CodeGenSuite"].map fun c => "python3 run.py " ++ c ++ "\n")

/-- What a command does. -/
structure Outcome where
  printed : String
  /-- The files it leaves in the target directory. -/
  target : List String
  /-- Why it fails, if it does. -/
  error : Option CommandError
deriving DecidableEq, Repr, Inhabited

/-- The directory in which a parser is looked for. -/
def parserFolder : String := "main/minigo/parser/"

/-- Whether the target directory has a parser. -/
def hasParser (target : List String) : Bool := target.any (String.isPrefixOf parserFolder)

/-- The files that `clean` removes: those that are named by a star, or are in a
folder of that name. -/
def isStar (file : String) : Bool := file == "*" || String.isPrefixOf "*/" file

/-- Carries a command out on the files of the target directory. -/
def perform (target : List String) : Command → Outcome
  | generate => ⟨"", target, some .noTool⟩
  | clean => ⟨"", target.filter (! isStar ·), none⟩
  | usage => ⟨usageText, target, none⟩
  | test suite =>
      if hasParser target then
        match suite with
        | some _ => ⟨"", target, some .noSuite⟩
        | none => ⟨usageText, target, none⟩
      else ⟨"", target, some .noTool⟩

end Command

end MiniGoc
