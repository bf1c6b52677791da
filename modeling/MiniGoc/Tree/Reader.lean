import MiniGoc.Grammar.Rules

/-!
# Readers of syntax trees

A reader takes tokens from the front of a list and gives what it has read.  Most give
a *forest*, the children of a node.  The readers here are put together from few
parts: a single token (`Reader.oneOf`), readers one after the other (`Reader.seq`), a node
around what is read (`Reader.rule`), a decision by the tokens ahead (`Reader.ifAhead`),
a loop (`Reader.many`) and a loop that joins to the left (`Reader.joined`).

A decision looks at as many tokens as its pattern has, and takes none.  So a reader never
goes back.  It stops at the first token it cannot use (`Stuck.unexpected`).  Where it
has to see a token behind the last one it stops too (`Stuck.ended`): the token
list of a source with a lexical error has no end token.

Loops count their rounds down, so that every reader is a total function.  A loop that
has run out of rounds stops as if the tokens had ended.
-/

namespace MiniGoc

/-- Why a reader stops. -/
inductive Stuck where
  /-- At a token that cannot come next, with the tokens behind it. -/
  | unexpected (t : Token TokenKind) (rest : TokenList)
  /-- At the end of an unfinished token list. -/
  | ended
deriving DecidableEq, Repr, Inhabited

abbrev Reader (α : Type) := StateT TokenList (Except Stuck) α

/-- Syntax trees side by side. -/
abbrev Forest := List SyntaxTree

namespace Reader

variable {α : Type}

/-- Stops for want of tokens. -/
def ended : Reader α := fun _ => .error .ended

/-- Stops at the next token. -/
def reject : Reader α := fun ts =>
  match ts with
  | [] => .error .ended
  | t :: rest => .error (.unexpected t rest)

/-- The next token, which must be of one of the kinds. -/
def oneOf (ks : List TokenKind) : Reader Forest := fun ts =>
  match ts with
  | [] => .error .ended
  | t :: rest => if t.kind ∈ ks then .ok ([.leaf t], rest) else .error (.unexpected t rest)

/-- The next token, which must be of the kind. -/
def expect (k : TokenKind) : Reader Forest := oneOf [k]

/-- Readers one after the other. -/
def seq : List (Reader Forest) → Reader Forest
  | [] => pure []
  | m :: ms => do
      let cs ← m
      let ds ← seq ms
      pure (cs ++ ds)

/-- A node around what is read. -/
def rule (r : Rule) (m : Reader Forest) : Reader Forest := do
  let cs ← m
  pure [.node r cs]

/-! ## Decisions -/

/-- Whether the tokens start with one of the first kinds, then one of the second kinds, and
so on.  Undecided if they end too early. -/
def looksLike : List (List TokenKind) → TokenList → Option Bool
  | [], _ => some true
  | _ :: _, [] => none
  | ks :: pattern, t :: ts => if t.kind ∈ ks then looksLike pattern ts else some false

def ifAhead (pattern : List (List TokenKind)) (yes no : Reader α) : Reader α := fun ts =>
  match looksLike pattern ts with
  | some true => yes ts
  | some false => no ts
  | none => .error .ended

def ifNext (ks : List TokenKind) (yes no : Reader α) : Reader α := ifAhead [ks] yes no

/-- What is read if one of the kinds is next. -/
def optional (ks : List TokenKind) (m : Reader Forest) : Reader Forest := ifNext ks m (pure [])

/-! ## Loops -/

/-- Rounds of a reader as long as the tokens ahead look like the pattern. -/
def many (pattern : List (List TokenKind)) (body : Reader α) : Nat → Reader (List α)
  | 0 => ended
  | fuel + 1 => ifAhead pattern
      (do
        let a ← body
        let rest ← many pattern body fuel
        pure (a :: rest))
      (pure [])

/-- A loop that reads children. -/
def manyTrees (pattern : List (List TokenKind)) (body : Reader Forest) (fuel : Nat) :
    Reader Forest := do
  let rounds ← many pattern body fuel
  pure rounds.flatten

/-- Items with commas between them, under a rule of their own. -/
def listOf (r : Rule) (item : Reader Forest) (fuel : Nat) : Reader Forest :=
  rule r (seq [item, manyTrees [[.comma]] (seq [expect .comma, item]) fuel])

/-- A tree and what follows it, joined to the left: as long as one of the kinds is next,
the tree so far and what is read are the children of a new node. -/
def joined (r : Rule) (ks : List TokenKind) (tail : Reader Forest) :
    Nat → SyntaxTree → Reader Forest
  | 0, _ => ended
  | fuel + 1, t => ifNext ks
      (do
        let cs ← tail
        joined r ks tail fuel (.node r (t :: cs)))
      (pure [t])

end Reader

end MiniGoc
