/-!
# Block comments

A block comment runs from `/*` to `*/` and may hold other block comments.  It
is not a regular pattern, so it has a scanner of its own.

At each point inside a comment the scanner prefers, in this order, to close a
comment, to open one inside, and to skip one character.  It opens one only if
the rest of the source can still close every open comment; otherwise the two
characters are plain text.  So a comment that can be closed at all is closed.
-/

namespace MiniGoc.Comment

/-- How many times `*/` occurs. -/
def closers : List Char → Nat
  | '*' :: '/' :: cs => closers cs + 1
  | _ :: cs => closers cs
  | [] => 0

/-- The number of characters up to the end of the outermost comment, inside
`depth` open comments.  There must be `depth` closers ahead. -/
def body (depth : Nat) : List Char → Nat
  | '*' :: '/' :: cs => if depth ≤ 1 then 2 else 2 + body (depth - 1) cs
  | '/' :: '*' :: cs =>
      if depth + 1 ≤ closers cs then 2 + body (depth + 1) cs else 1 + body depth ('*' :: cs)
  | _ :: cs => 1 + body depth cs
  | [] => 0

/-- The length of the comment at the start of a source, if there is one. -/
def length? : List Char → Option Nat
  | '/' :: '*' :: cs => if 1 ≤ closers cs then some (2 + body 1 cs) else none
  | _ => none

end MiniGoc.Comment
