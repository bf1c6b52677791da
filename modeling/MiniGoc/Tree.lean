import MiniGoc.Token.Kind

/-!
# Syntax trees

A syntax tree has tokens at its leaves and rules of a grammar at its inner
nodes.  It is generic in both vocabularies.  `Tree.text` joins the leaves,
`Tree.render` writes the tree as nested lists, and the accessors at the end
look up children by rule or by token kind.
-/

namespace MiniGoc

/-- A syntax tree over token kinds `κ` and rules `ρ`. -/
inductive Tree (κ ρ : Type) where
  | leaf (t : Token κ)
  | node (rule : ρ) (children : List (Tree κ ρ))
deriving Repr, Inhabited

namespace Tree

variable {κ ρ : Type}

mutual

/-- The leaves from left to right. -/
def leaves : Tree κ ρ → List (Token κ)
  | .leaf t => [t]
  | .node _ cs => leavesList cs

/-- The leaves of several trees. -/
def leavesList : List (Tree κ ρ) → List (Token κ)
  | [] => []
  | c :: cs => c.leaves ++ leavesList cs

end

/-- The texts of the leaves, joined. -/
def text (t : Tree κ ρ) : String := String.join (t.leaves.map Token.text)

mutual

/-- All inner nodes, a node before its children. -/
def nodes : Tree κ ρ → List (ρ × List (Tree κ ρ))
  | .leaf _ => []
  | .node r cs => (r, cs) :: nodesList cs

/-- All inner nodes of several trees. -/
def nodesList : List (Tree κ ρ) → List (ρ × List (Tree κ ρ))
  | [] => []
  | c :: cs => c.nodes ++ nodesList cs

end

/-! ## Nested list form -/

/-- A leaf's text with its line breaks and tabs spelled out. -/
def escape (s : String) : String :=
  String.join (s.toList.map fun c =>
    match c with
    | '\t' => "\\t"
    | '\n' => "\\n"
    | '\r' => "\\r"
    | c => c.toString)

mutual

/-- The tree as nested lists: `(rule child ... child)`, a leaf as its text and
a rule without children as its name. -/
def render (name : ρ → String) : Tree κ ρ → String
  | .leaf t => escape t.text
  | .node r [] => name r
  | .node r (c :: cs) => "(" ++ name r ++ renderList name (c :: cs) ++ ")"

/-- The children of a node, each after a space. -/
def renderList (name : ρ → String) : List (Tree κ ρ) → String
  | [] => ""
  | c :: cs => " " ++ c.render name ++ renderList name cs

end

/-! ## Children -/

/-- The children of a node; a leaf has none. -/
def children : Tree κ ρ → List (Tree κ ρ)
  | .leaf _ => []
  | .node _ cs => cs

/-- Whether a tree is a node of the rule. -/
def isRule [BEq ρ] (r : ρ) : Tree κ ρ → Bool
  | .leaf _ => false
  | .node s _ => s == r

/-- Whether a tree is a token of the kind. -/
def isToken [BEq κ] (k : κ) : Tree κ ρ → Bool
  | .leaf t => t.kind == k
  | .node _ _ => false

/-- The children that are nodes of a rule. -/
def childrenOf [BEq ρ] (t : Tree κ ρ) (r : ρ) : List (Tree κ ρ) := t.children.filter (isRule r)

/-- The children that are tokens of a kind. -/
def tokensOf [BEq κ] (t : Tree κ ρ) (k : κ) : List (Tree κ ρ) := t.children.filter (isToken k)

/-- The first child that is a node of a rule. -/
def child? [BEq ρ] (t : Tree κ ρ) (r : ρ) : Option (Tree κ ρ) := t.children.find? (isRule r)

/-- The first child that is a token of a kind. -/
def token? [BEq κ] (t : Tree κ ρ) (k : κ) : Option (Tree κ ρ) := t.children.find? (isToken k)

end Tree

end MiniGoc
