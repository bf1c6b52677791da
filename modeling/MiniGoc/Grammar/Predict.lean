import Std.Data.HashSet
import MiniGoc.Grammar.Machine
import MiniGoc.Grammar.Stacks

/-!
# Looking ahead

`Machine.look` gives the kinds of tokens that can come next at a state.

`Machine.predict` settles a decision by running all its alternatives side by side on
the tokens ahead, until only one is left.  A *branch* is a state that an
alternative has come to, with the stacks of states to return to.  At first nothing is
known of what surrounds the rule at hand, so its end may be followed by whatever can
follow it anywhere in the grammar.  When the alternatives that are left cannot be told
apart like this, the decision is made again with the surroundings as they are, and then
the first alternative of an ambiguity wins.

If no alternative can go on, the first of those that came to the end of the rule is
taken, and if there is none, the token that could not be read is the culprit.
-/

namespace MiniGoc.Machine

variable {κ ρ : Type} [DecidableEq κ] [DecidableEq ρ] (m : Machine κ ρ)

/-- How many states can be gone through without reading a token, with a number of
states to return to. -/
def silentLimit (depth : Nat) : Nat := 1000 + 10 * depth

/-! ## The next token -/

/-- The kinds that can come next, with `none` for the end of all that is on the
stack. -/
def lookFrom : Nat → Nat → List Nat → List (Option κ)
  | 0, _, _ => []
  | fuel + 1, n, stack =>
      match m.state? n with
      | some (.read ks _ _) => ks.map some
      | some (.enter r next) => lookFrom fuel (m.start r) (next :: stack)
      | some (.wrap next) => lookFrom fuel next stack
      | some (.decide _ _ targets) => targets.flatMap fun t => lookFrom fuel t stack
      | some (.stop _) =>
          match stack with
          | next :: rest => lookFrom fuel next rest
          | [] => [none]
      | none => []

/-- The kinds that can come next at a state, with `none` for the end of the rule. -/
def look (n : Nat) : List (Option κ) := lookFrom m (silentLimit 0) n []

/-- The kinds that can come next at a state with a stack of states to return to. -/
def lookWithin (n : Nat) (stack : List Nat) : List κ :=
  (lookFrom m (silentLimit stack.length) n stack).map (·.getD m.eof)

/-! ## Branches -/

/-- Where an alternative has come to. -/
structure Branch where
  state : Nat
  /-- The alternative, counted from one. -/
  alt : Nat
  /-- The set of stacks of states to return to. -/
  below : Nat
  /-- Whether the end of the rule at hand has been passed. -/
  outside : Bool
deriving DecidableEq, Hashable, Repr, Inhabited

structure Search where
  graph : Stacks
  /-- The branches found so far. -/
  branches : List Branch := []
  /-- What has been gone through. -/
  visited : Std.HashSet Branch := {}

namespace Search

def onStacks {α : Type} (f : StateM Stacks α) : StateM Search α :=
  modifyGet fun s =>
    let (a, g) := f s.graph
    (a, { s with graph := g })

/-- A branch among others: those of one state and alternative are one. -/
def insert (b : Branch) : List Branch → StateM Search (List Branch)
  | [] => return [b]
  | c :: cs => do
      if c.state = b.state ∧ c.alt = b.alt then
        let below ← onStacks (Stacks.union c.below b.below)
        return { c with below, outside := c.outside || b.outside } :: cs
      else return c :: (← insert b cs)

/-- Adds a branch to those found. -/
def keep (b : Branch) : StateM Search Unit := do
  let bs ← insert b (← get).branches
  modify fun s => { s with branches := bs }

/-- Whether a branch comes up for the first time. -/
def isNew (b : Branch) : StateM Search Bool :=
  modifyGet fun s => (!s.visited.contains b, { s with visited := s.visited.insert b })

end Search

open Search

/-- Goes on from a branch up to the next tokens. -/
def close : Nat → Branch → StateM Search Unit
  | 0, _ => return
  | fuel + 1, b => do
      if !(← isNew b) then return
      match m.state? b.state with
      | some (.read ..) => keep b
      | some (.enter r next) =>
          let below ← onStacks (Stacks.push next b.below)
          close fuel { b with state := m.start r, below }
      | some (.wrap next) => close fuel { b with state := next }
      | some (.decide _ _ targets) => targets.forM fun t => close fuel { b with state := t }
      | some (.stop r) =>
          let g := (← get).graph
          let node := g.node b.below
          node.tops.forM fun (next, below) => close fuel { b with state := next, below }
          if node.ends then
            let below ← onStacks Stacks.empty
            let callers := if g.isLocal then m.follows r else []
            if callers.isEmpty then keep { b with below }
            else callers.forM fun t => close fuel { b with state := t, below, outside := true }
      | none => return

/-- The branches that some others lead to. -/
def closeAll (fuel : Nat) (bs : List Branch) : StateM Search (List Branch) := do
  modify fun s => { s with branches := [], visited := {} }
  bs.forM (close m fuel)
  return (← get).branches

/-- The branches at the start of a decision inside a stack. -/
def opening (fuel : Nat) (targets stack : List Nat) : StateM Search (List Branch) := do
  let below ← onStacks (Stacks.ofList stack)
  closeAll m fuel (targets.zipIdx.map fun (t, i) => ⟨t, i + 1, below, false⟩)

/-- Whether a branch is at the end of a rule. -/
def atStop (b : Branch) : Bool :=
  match m.state? b.state with
  | some (.stop _) => true
  | _ => false

/-- A branch after a token. -/
def move? (k : κ) (b : Branch) : Option Branch :=
  match m.state? b.state with
  | some (.read ks _ next) => if k ∈ ks then some { b with state := next } else none
  | _ => none

/-- The branches after a token.  At the end of the source only those at the end of a
rule are left, and those that were there before stay. -/
def reach (fuel : Nat) (k : κ) (bs : List Branch) : StateM Search (List Branch) := do
  let moved ← closeAll m fuel (bs.filterMap (move? m k))
  let full := !(← get).graph.isLocal
  let ended := if k = m.eof then moved.filter (atStop m) else moved
  let stayed := if full || k = m.eof then bs.filter (atStop m) else []
  if full && ended.any (atStop m) then return ended
  else stayed.foldlM (fun cs b => Search.insert b cs) ended

/-! ## Decisions -/

/-- The alternative of all branches, if they have only one. -/
def uniqueAlt? : List Branch → Option Nat
  | [] => none
  | b :: bs => if bs.all (·.alt = b.alt) then some b.alt else none

/-- The alternatives with a branch at the same state with the same stacks. -/
def rivals (bs : List Branch) (b : Branch) : List Nat :=
  (bs.filter fun c => c.state = b.state && c.below = b.below).map (·.alt)

/-- Whether some state is reached by one alternative only. -/
def hasOwnState (bs : List Branch) : Bool :=
  bs.any fun b => bs.all fun c => c.state ≠ b.state || c.alt = b.alt

/-- Whether reading on will not tell the alternatives apart. -/
def isConflict (bs : List Branch) : Bool :=
  bs.all (atStop m) ||
    (bs.any (fun b => (rivals bs b).any (· ≠ b.alt)) && !hasOwnState bs)

/-- The first alternative, if it is the same at all places. -/
def settled? (bs : List Branch) : Option Nat :=
  match bs.map (fun b => (rivals bs b).foldl min b.alt) with
  | [] => none
  | a :: as => if as.all (· = a) then some a else none

/-- The first alternative that came to the end of the rule at hand. -/
def finished? (bs : List Branch) : Option Nat :=
  ((bs.filter fun b => b.outside || atStop m b).map (·.alt)).min?

/-- How a decision turns out. -/
inductive Prediction (κ : Type) where
  /-- For an alternative, counted from one. -/
  | alt (n : Nat)
  /-- For none: this token cannot be read. -/
  | culprit (t : Token κ)

/-- The decision where no branch is left. -/
def dead (t : Token κ) (bs : List Branch) : Prediction κ :=
  match finished? m bs with
  | some a => .alt a
  | none => .culprit t

/-- Reads on until the decision is made; `none` where alternatives cannot be told
apart without the surroundings.  The last token is the end of the source and is
read again and again. -/
def decideOn (limit : Nat) : Nat → List Branch → List (Token κ) →
    StateM Search (Option (Prediction κ))
  | 0, _, _ => return none
  | _ + 1, _, [] => return none
  | fuel + 1, bs, t :: ts => do
      let next ← reach m limit t.kind bs
      let rest := if ts.isEmpty then [t] else ts
      if next.isEmpty then return some (dead m t bs)
      match uniqueAlt? next with
      | some a => return some (.alt a)
      | none =>
          if (← get).graph.isLocal then
            if isConflict m next then return none else decideOn limit fuel next rest
          else match settled? next with
            | some a => return some (.alt a)
            | none => decideOn limit fuel next rest

/-- Tries a decision, with or without surroundings. -/
def attempt (isLocal : Bool) (targets stack : List Nat) (ahead : List (Token κ)) :
    Option (Prediction κ) :=
  let limit := silentLimit (stack.length + ahead.length)
  let run : StateM Search (Option (Prediction κ)) := do
    decideOn m limit (ahead.length + 2) (← opening m limit targets stack) ahead
  (run.run { graph := { isLocal } }).1

/-- Settles a decision on the tokens ahead, inside a stack of states to return
to. -/
def predict (targets stack : List Nat) (ahead : List (Token κ)) : Prediction κ :=
  match attempt m true targets [] ahead with
  | some p => p
  | none => (attempt m false targets stack ahead).getD (.alt 1)

end MiniGoc.Machine
