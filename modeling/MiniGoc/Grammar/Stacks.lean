import Std.Data.HashMap

/-!
# Sets of stacks

A set of stacks is a node of a graph.  A node says whether the empty stack is in
the set, and for each state that can be on top, which node holds the stacks below
it.  Nodes with the same content are one node, and a state is on top of a node at most
once.  So two sets are equal iff their nodes have the same number, and the
stacks of deeply nested rules share what they have in common.

A graph can be *local*.  Then nothing is known of what is below the last state of a
stack, and the empty stack stands for all stacks.
-/

namespace MiniGoc

structure StackNode where
  /-- Whether the empty stack is in the set. -/
  ends : Bool
  /-- The states on top in increasing order, each with the node below. -/
  tops : List (Nat × Nat)
deriving DecidableEq, Hashable, Repr, Inhabited

/-- A graph of sets of stacks. -/
structure Stacks where
  /-- Whether the empty stack stands for all. -/
  isLocal : Bool
  nodes : Array StackNode := #[]
  numbers : Std.HashMap StackNode Nat := {}
  /-- The unions that have been computed. -/
  unions : Std.HashMap (Nat × Nat) Nat := {}

namespace Stacks

def node (g : Stacks) (n : Nat) : StackNode := (g.nodes[n]?).getD ⟨true, []⟩

/-- The number of a node, which is added if it is new. -/
def number (s : StackNode) : StateM Stacks Nat := do
  let g ← get
  match g.numbers[s]? with
  | some n => return n
  | none =>
      set { g with nodes := g.nodes.push s, numbers := g.numbers.insert s g.nodes.size }
      return g.nodes.size

def empty : StateM Stacks Nat := number ⟨true, []⟩

/-- The stacks of a set with one more state on top. -/
def push (top below : Nat) : StateM Stacks Nat := number ⟨false, [(top, below)]⟩

def ofList : List Nat → StateM Stacks Nat
  | [] => empty
  | n :: ns => do push n (← ofList ns)

/-- Adds a top with what is below it; `join` unites what is below a top that is
there already. -/
def addTop (join : Nat → Nat → StateM Stacks Nat) (top below : Nat) :
    List (Nat × Nat) → StateM Stacks (List (Nat × Nat))
  | [] => return [(top, below)]
  | (t, b) :: ts => do
      if top < t then return (top, below) :: (t, b) :: ts
      else if top = t then return (t, ← join b below) :: ts
      else return (t, b) :: (← addTop join top below ts)

/-- The union of two sets, up to a depth of the stacks. -/
def unionUpTo : Nat → Nat → Nat → StateM Stacks Nat
  | 0, a, _ => return a
  | depth + 1, a, b => do
      if a = b then return a
      let g ← get
      if let some n := g.unions[(a, b)]? then return n
      let (s, t) := (g.node a, g.node b)
      let n ← show StateM Stacks Nat from
        if g.isLocal && (s.ends || t.ends) then empty
        else do
          let tops ← t.tops.foldlM
            (fun ts (top, below) => addTop (unionUpTo depth) top below ts) s.tops
          number ⟨s.ends || t.ends, tops⟩
      modify fun g => { g with unions := g.unions.insert (a, b) n }
      return n

/-- The union of two sets.  What is below a top has a smaller number than the node of
the top, so the number of nodes bounds the depth. -/
def union (a b : Nat) : StateM Stacks Nat := do unionUpTo ((← get).nodes.size + 1) a b

end Stacks

end MiniGoc
