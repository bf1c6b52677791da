import MiniGoc.Command

/-!
# The command line

Reads the arguments, looks whether the target directory has a parser, and carries the
command out.
-/

namespace MiniGoc

/-- The folder of the parser in the target directory. -/
def parserEntry : IO.FS.DirEntry := ⟨"../target", Command.parserFolder⟩

/-- The files by which the target directory shows that it has a parser. -/
def parserFiles : IO (List String) := do
  return if ← parserEntry.path.isDir then [Command.parserFolder] else []

/-- What is said of a command that fails. -/
def CommandError.message : CommandError → String
  | noTool => "the parser tool is missing"
  | noSuite => "the suite is missing"

end MiniGoc

open MiniGoc in
/-- Runs a command. -/
def main (args : List String) : IO UInt32 := do
  let outcome := (Command.ofArgs args).perform (← parserFiles)
  IO.print outcome.printed
  match outcome.error with
  | some e =>
      IO.eprintln e.message
      return 1
  | none => return 0
