import MiniGoc.Tree.Parser

/-!
# Transcripts

A transcript is one line on what became of a source.  That of the tokens lists text and
number of each token up to the end or the first error; that of the tree only says
whether there is one.
-/

namespace MiniGoc.Transcript

def token (t : Token TokenKind) : String :=
  if t.kind = .eof then t.text else t.text ++ ";" ++ toString t.kind.number ++ ","

def tokens (source : String) : String :=
  let r := Tokens.ofSource source
  String.join (r.tokens.map token) ++ (match r.error with | some e => e.message | none => "")

/-- Whether a source has a tree.  Of a lexical error only the text is shown. -/
def tree (source : String) : String :=
  match SyntaxTree.parse source with
  | .ok _ => "successful"
  | .error (.unexpected t) => SyntaxError.unexpectedMessage t
  | .error (.lexical e) => e.text

end MiniGoc.Transcript
