/-!
# Patterns

A pattern is a regular expression over the characters of a source, with one
more letter for the end of the source.  A source is read as its characters
followed by that letter (`Pattern.letters`), so a pattern can ask that nothing
follows.  The end counts as one letter when two matches are compared, and adds
nothing to the text.

`Pattern.Matches` says which sequences of letters a pattern stands for.
`Pattern.longest` finds the longest prefix that matches, by derivatives.
-/

namespace MiniGoc

/-- A set of characters, as ranges or the complement of ranges. -/
structure CharSet where
  /-- Pairs of first and last character. -/
  ranges : List (Char × Char)
  /-- Whether the set holds the characters outside the ranges. -/
  negated : Bool := false
deriving Repr, Inhabited

namespace CharSet

def has (s : CharSet) (c : Char) : Bool :=
  s.ranges.any (fun r => r.1 ≤ c && c ≤ r.2) != s.negated

def of (cs : List Char) : CharSet := ⟨cs.map (fun c => (c, c)), false⟩

/-- The set of all characters but the listed ones. -/
def except (cs : List Char) : CharSet := ⟨cs.map (fun c => (c, c)), true⟩

end CharSet

/-- A character, or the end of the source. -/
abbrev Letter := Option Char

/-- A regular expression over letters. -/
inductive Pattern where
  /-- Matches nothing. -/
  | never
  /-- Matches the empty sequence. -/
  | empty
  | char (s : CharSet)
  /-- Matches the end of the source. -/
  | atEnd
  /-- One pattern after the other. -/
  | seq (p q : Pattern)
  | alt (p q : Pattern)
  /-- Any number of repetitions. -/
  | star (p : Pattern)
deriving Repr, Inhabited

namespace Pattern

/-- The sequences a pattern stands for. -/
inductive Matches : Pattern → List Letter → Prop where
  | empty : Matches .empty []
  | char {s : CharSet} {c : Char} : s.has c = true → Matches (.char s) [some c]
  | atEnd : Matches .atEnd [none]
  | seq {p q : Pattern} {u v : List Letter} :
      Matches p u → Matches q v → Matches (.seq p q) (u ++ v)
  | left {p q : Pattern} {u : List Letter} : Matches p u → Matches (.alt p q) u
  | right {p q : Pattern} {u : List Letter} : Matches q u → Matches (.alt p q) u
  | stop {p : Pattern} : Matches (.star p) []
  | more {p : Pattern} {u v : List Letter} :
      Matches p u → Matches (.star p) v → Matches (.star p) (u ++ v)

/-! ## Building patterns -/

def word : List Char → Pattern
  | [] => .empty
  | c :: cs => .seq (.char (.of [c])) (word cs)

/-- A word given as a string. -/
def lit (s : String) : Pattern := word s.toList

/-- One or more repetitions. -/
def plus (p : Pattern) : Pattern := .seq p (.star p)

def opt (p : Pattern) : Pattern := .alt p .empty

def oneOf : List Pattern → Pattern
  | [] => .never
  | [p] => p
  | p :: ps => .alt p (oneOf ps)

/-- Several patterns one after the other. -/
def chain : List Pattern → Pattern
  | [] => .empty
  | [p] => p
  | p :: ps => .seq p (chain ps)

def range (rs : List (Char × Char)) : Pattern := .char ⟨rs, false⟩

/-! ## Matching -/

/-- Whether the empty sequence matches. -/
def nullable : Pattern → Bool
  | never => false
  | empty => true
  | char _ => false
  | atEnd => false
  | seq p q => p.nullable && q.nullable
  | alt p q => p.nullable || q.nullable
  | star _ => true

/-- `seq` that drops parts that cannot matter. -/
def mkSeq : Pattern → Pattern → Pattern
  | .never, _ => .never
  | _, .never => .never
  | .empty, q => q
  | p, q => .seq p q

/-- `alt` that drops parts that cannot matter. -/
def mkAlt : Pattern → Pattern → Pattern
  | .never, q => q
  | p, .never => p
  | p, q => .alt p q

/-- What must follow a letter for the whole to match. -/
def deriv (x : Letter) : Pattern → Pattern
  | never => .never
  | empty => .never
  | char s =>
      match x with
      | some c => if s.has c then .empty else .never
      | none => .never
  | atEnd => if x.isNone then .empty else .never
  | seq p q =>
      if p.nullable then mkAlt (mkSeq (p.deriv x) q) (q.deriv x) else mkSeq (p.deriv x) q
  | alt p q => mkAlt (p.deriv x) (q.deriv x)
  | star p => mkSeq (p.deriv x) (.star p)

/-- Whether the pattern is the one that matches nothing. -/
def isNever : Pattern → Bool
  | never => true
  | _ => false

/-- The length of the longest match, where `n` letters are already read and
`best` is the longest match among their prefixes.  After the last character
comes the end. -/
def scan (p : Pattern) (n : Nat) (best : Option Nat) : List Char → Option Nat
  | [] =>
      if (p.deriv none).nullable then some (n + 1)
      else if p.nullable then some n else best
  | c :: cs =>
      let best := if p.nullable then some n else best
      let q := p.deriv (some c)
      if q.isNever then best else q.scan (n + 1) best cs

def letters (cs : List Char) : List Letter := cs.map some ++ [none]

/-- The length of the longest prefix of `letters cs` that matches. -/
def longest (p : Pattern) (cs : List Char) : Option Nat := p.scan 0 none cs

end Pattern

end MiniGoc
