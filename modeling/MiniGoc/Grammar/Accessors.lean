import MiniGoc.Grammar

/-!
# The children that a rule names

Each token kind and each rule that occurs in the alternatives of a rule gives access
to the children of that label.  The access is to all of them if the label can occur
more than once in one alternative, and to the first one otherwise.
-/

namespace MiniGoc

variable {κ ρ : Type}

namespace Part

mutual

/-- The labels that occur in a part, from left to right. -/
def labels : Part κ ρ → List (Label κ ρ)
  | token k => [.token k]
  | anyOf ks => ks.map .token
  | rule r => [.rule r]
  | choice _ alts => labelsAlts alts
  | option body => labelsAll body
  | many _ body => labelsAll body
  | many1 _ body => labelsAll body

def labelsAll : List (Part κ ρ) → List (Label κ ρ)
  | [] => []
  | p :: ps => p.labels ++ labelsAll ps

/-- The labels of several sequences. -/
def labelsAlts : List (List (Part κ ρ)) → List (Label κ ρ)
  | [] => []
  | a :: as => labelsAll a ++ labelsAlts as

end

variable [DecidableEq κ] [DecidableEq ρ]

mutual

/-- How often a label can occur in one reading of a part: never, once, or at least
twice. -/
def count (l : Label κ ρ) : Part κ ρ → Nat
  | token k => if l = .token k then 1 else 0
  | anyOf ks => if l ∈ ks.map Label.token then 1 else 0
  | rule r => if l = .rule r then 1 else 0
  | choice _ alts => countAlts l alts
  | option body => countAll l body
  | many _ body => 2 * countAll l body
  | many1 _ body => 2 * countAll l body

/-- How often a label can occur in a sequence of parts. -/
def countAll (l : Label κ ρ) : List (Part κ ρ) → Nat
  | [] => 0
  | p :: ps => p.count l + countAll l ps

/-- How often a label can occur in one of several sequences. -/
def countAlts (l : Label κ ρ) : List (List (Part κ ρ)) → Nat
  | [] => 0
  | a :: as => max (countAll l a) (countAlts l as)

end

end Part

/-- Access to the children of a label. -/
structure Accessor (κ ρ : Type) where
  label : Label κ ρ
  /-- Whether it is to all of them. -/
  isList : Bool
deriving Repr

variable [DecidableEq κ] [DecidableEq ρ]

/-- The accessors of a rule, one for each label. -/
def Grammar.accessors (g : Grammar κ ρ) (r : ρ) : List (Accessor κ ρ) :=
  let alts := (g.alternatives r).alts
  (Part.labelsAlts alts).eraseDups.map fun l => ⟨l, decide (1 < Part.countAlts l alts)⟩

def Tree.labelled (l : Label κ ρ) (cs : List (Tree κ ρ)) : List (Tree κ ρ) :=
  cs.filter fun c => decide (c.label = l)

end MiniGoc
