import MiniGoc.Grammar

/-!
# The machine of a grammar

A grammar is laid out as a table of states.  A state reads a token, enters a rule,
decides among the states ahead, or is the end of a rule.  The number of a state is its
place in the table.

A left recursive rule becomes a loop: one of its other alternatives, and then any
number of the tails of its left recursive ones.  Each round of the loop makes all that
the rule has read so far the first child of a new node (`State.wrap`).
-/

namespace MiniGoc

/-- Where a decision stands. -/
inductive Juncture where
  /-- Among alternatives. -/
  | choice
  /-- Before an optional part. -/
  | option
  /-- Before the first round of a loop that has at least one. -/
  | firstRound
  /-- Before a loop that may have no round. -/
  | loopEntry
  /-- After a round of a loop. -/
  | loopBack
deriving DecidableEq, Repr, Inhabited

inductive State (κ ρ : Type) where
  /-- Reads a token of one of some kinds; `single` if only one kind is named. -/
  | read (kinds : List κ) (single : Bool) (next : Nat)
  /-- Enters a rule, after which another state follows. -/
  | enter (rule : ρ) (next : Nat)
  /-- Starts a new node around what the rule has read. -/
  | wrap (next : Nat)
  /-- Goes on with one of several states.  In a loop, and before an optional part,
  the last of them is the way past it. -/
  | decide (place : Juncture) (how : Lookahead) (targets : List Nat)
  | stop (rule : ρ)
deriving Repr, Inhabited

structure Machine (κ ρ : Type) where
  states : Array (State κ ρ)
  /-- The first state of each rule. -/
  starts : List (ρ × Nat)
  /-- The states that can follow each rule. -/
  returns : List (ρ × List Nat)
  /-- The kind of the end of the source. -/
  eof : κ
  /-- How a kind is shown. -/
  display : κ → String

namespace Machine

variable {κ ρ : Type}

/-- A table of states under construction. -/
abbrev Layout (κ ρ : Type) := StateM (Array (State κ ρ))

namespace Layout

/-- Adds a state and gives its number. -/
def add (s : State κ ρ) : Layout κ ρ Nat := modifyGet fun table => (table.size, table.push s)

/-- Fills in a state that was added before. -/
def fill (n : Nat) (s : State κ ρ) : Layout κ ρ Unit := modify fun table => table.setIfInBounds n s

mutual

/-- Lays out a part before a state, and gives its first state. -/
def part (rule : ρ) (next : Nat) : Part κ ρ → Layout κ ρ Nat
  | .token k => add (.read [k] true next)
  | .anyOf ks => add (.read ks false next)
  | .rule r => add (.enter r next)
  | .choice how alts => do
      let targets ← alternatives rule next alts
      add (.decide .choice how targets)
  | .option body => do
      let first ← parts rule next body
      add (.decide .option .next [first, next])
  | .many how body => do
      let back ← add (.stop rule)
      let first ← parts rule back body
      fill back (.decide .loopBack how [first, next])
      add (.decide .loopEntry how [first, next])
  | .many1 how body => do
      let back ← add (.stop rule)
      let first ← parts rule back body
      fill back (.decide .loopBack how [first, next])
      add (.decide .firstRound .next [first])

/-- Lays out a sequence of parts before a state. -/
def parts (rule : ρ) (next : Nat) : List (Part κ ρ) → Layout κ ρ Nat
  | [] => return next
  | p :: ps => do
      let after ← parts rule next ps
      part rule after p

/-- Lays out several sequences before a state. -/
def alternatives (rule : ρ) (next : Nat) : List (List (Part κ ρ)) → Layout κ ρ (List Nat)
  | [] => return []
  | a :: as => do
      let first ← parts rule next a
      return first :: (← alternatives rule next as)

end

/-- One of several states, without a decision if there is only one. -/
def oneOf (how : Lookahead) : List Nat → Layout κ ρ Nat
  | [n] => return n
  | ns => add (.decide .choice how ns)

variable [DecidableEq ρ]

/-- What follows the rule itself at the start of an alternative. -/
def tail? (rule : ρ) : List (Part κ ρ) → Option (List (Part κ ρ))
  | .rule r :: ps => if r = rule then some ps else none
  | _ => none

/-- Lays out the alternatives of a rule and gives the first state. -/
def rule (r : ρ) (a : Alternatives κ ρ) : Layout κ ρ Nat := do
  let stop ← add (.stop r)
  match a.alts.filterMap (tail? r) with
  | [] => oneOf a.how (← alternatives r stop a.alts)
  | tails => do
      let back ← add (.stop r)
      let firsts ← alternatives r back tails
      let wraps ← firsts.mapM fun n => add (.wrap n)
      let round ← oneOf a.how wraps
      fill back (.decide .loopBack .far [round, stop])
      let entry ← add (.decide .loopEntry .far [round, stop])
      oneOf a.how (← alternatives r entry (a.alts.filter fun p => (tail? r p).isNone))

/-- Lays out several rules and gives the first state of each. -/
def rules (g : Grammar κ ρ) : List ρ → Layout κ ρ (List (ρ × Nat))
  | [] => return []
  | r :: rs => do
      let first ← rule r (g.alternatives r)
      return (r, first) :: (← rules g rs)

end Layout

/-- The state that follows if this one enters the rule. -/
def returnOf? [DecidableEq ρ] (r : ρ) : State κ ρ → Option Nat
  | .enter s next => if s = r then some next else none
  | _ => none

/-- The machine of a grammar with the given rules. -/
def ofGrammar [DecidableEq ρ] (g : Grammar κ ρ) (rules : List ρ) (eof : κ)
    (display : κ → String) : Machine κ ρ :=
  let (starts, states) := (Layout.rules g rules).run #[]
  let returns := rules.map fun r => (r, states.toList.filterMap (returnOf? r))
  { states, starts, returns, eof, display }

variable [DecidableEq ρ]

def state? (m : Machine κ ρ) (n : Nat) : Option (State κ ρ) := m.states[n]?

/-- The first state of a rule. -/
def start (m : Machine κ ρ) (r : ρ) : Nat :=
  ((m.starts.find? fun p => decide (p.1 = r)).map Prod.snd).getD 0

/-- The states that can follow a rule. -/
def follows (m : Machine κ ρ) (r : ρ) : List Nat :=
  ((m.returns.find? fun p => decide (p.1 = r)).map Prod.snd).getD []

end Machine

end MiniGoc
