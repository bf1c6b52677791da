import MiniGoc.Tree

/-!
# Grammars

A grammar gives each rule a list of alternatives.  An alternative is a sequence
of parts: tokens, rules, choices and repetitions.  A tree is a *derivation* when
the labels of the children of every node spell a word of an alternative of its
rule (`Tree.Derives`).

Parts also say how a repairing reader decides among their alternatives: by the
next token, or by as many tokens as it takes (`Lookahead`).  Derivations do not
depend on it.
-/

namespace MiniGoc

/-- How a choice is settled. -/
inductive Lookahead where
  | next
  /-- By simulating all alternatives on the tokens ahead. -/
  | far
deriving DecidableEq, Repr, Inhabited

inductive Part (κ ρ : Type) where
  | token (k : κ)
  /-- One token of one of several kinds. -/
  | anyOf (ks : List κ)
  | rule (r : ρ)
  /-- One of several sequences. -/
  | choice (how : Lookahead) (alts : List (List (Part κ ρ)))
  /-- A sequence or nothing. -/
  | option (body : List (Part κ ρ))
  /-- Any number of sequences. -/
  | many (how : Lookahead) (body : List (Part κ ρ))
  /-- One or more sequences. -/
  | many1 (how : Lookahead) (body : List (Part κ ρ))
deriving Repr, Inhabited

/-- The alternatives of a rule and how they are told apart. -/
structure Alternatives (κ ρ : Type) where
  /-- The lookahead of the choice among them. -/
  how : Lookahead := .next
  alts : List (List (Part κ ρ))
deriving Repr, Inhabited

/-- A grammar over token kinds `κ` and rules `ρ`. -/
structure Grammar (κ ρ : Type) where
  /-- The alternatives of each rule. -/
  alternatives : ρ → Alternatives κ ρ

/-- What a child contributes to the word of its parent. -/
inductive Label (κ ρ : Type) where
  | token (k : κ)
  | rule (r : ρ)
deriving DecidableEq, Repr

def Tree.label {κ ρ : Type} : Tree κ ρ → Label κ ρ
  | .leaf t => .token t.kind
  | .node r _ => .rule r

mutual

inductive Part.Spells {κ ρ : Type} : Part κ ρ → List (Label κ ρ) → Prop where
  | token {k : κ} : Part.Spells (.token k) [.token k]
  | anyOf {ks : List κ} {k : κ} : k ∈ ks → Part.Spells (.anyOf ks) [.token k]
  | rule {r : ρ} : Part.Spells (.rule r) [.rule r]
  | choice {how : Lookahead} {alts : List (List (Part κ ρ))} {a : List (Part κ ρ)}
      {w : List (Label κ ρ)} : a ∈ alts → Part.SpellsAll a w → Part.Spells (.choice how alts) w
  | absent {body : List (Part κ ρ)} : Part.Spells (.option body) []
  | present {body : List (Part κ ρ)} {w : List (Label κ ρ)} :
      Part.SpellsAll body w → Part.Spells (.option body) w
  | none {how : Lookahead} {body : List (Part κ ρ)} : Part.Spells (.many how body) []
  | more {how : Lookahead} {body : List (Part κ ρ)} {v w : List (Label κ ρ)} :
      Part.SpellsAll body v → Part.Spells (.many how body) w →
      Part.Spells (.many how body) (v ++ w)
  | some {how : Lookahead} {body : List (Part κ ρ)} {v w : List (Label κ ρ)} :
      Part.SpellsAll body v → Part.Spells (.many how body) w →
      Part.Spells (.many1 how body) (v ++ w)

/-- The words of a sequence of parts. -/
inductive Part.SpellsAll {κ ρ : Type} : List (Part κ ρ) → List (Label κ ρ) → Prop where
  | nil : Part.SpellsAll [] []
  | cons {p : Part κ ρ} {ps : List (Part κ ρ)} {v w : List (Label κ ρ)} :
      Part.Spells p v → Part.SpellsAll ps w → Part.SpellsAll (p :: ps) (v ++ w)

end

/-- The trees of a grammar: the children of every node spell a word of an
alternative of its rule. -/
inductive Tree.Derives {κ ρ : Type} (g : Grammar κ ρ) : Tree κ ρ → Prop where
  | leaf (t : Token κ) : Tree.Derives g (.leaf t)
  | node {r : ρ} {cs : List (Tree κ ρ)} {a : List (Part κ ρ)} :
      a ∈ (g.alternatives r).alts → Part.SpellsAll a (cs.map Tree.label) →
      (∀ c ∈ cs, Tree.Derives g c) → Tree.Derives g (.node r cs)

/-- A sequence of tokens is a sentence of a rule when some derivation of the
rule has it as its leaves. -/
def Grammar.Sentence {κ ρ : Type} (g : Grammar κ ρ) (r : ρ) (ts : List (Token κ)) : Prop :=
  ∃ cs : List (Tree κ ρ), Tree.Derives g (.node r cs) ∧ (Tree.node r cs).leaves = ts

end MiniGoc
