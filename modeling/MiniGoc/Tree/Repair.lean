import MiniGoc.Grammar.Predict
import MiniGoc.Grammar.Rules
import MiniGoc.Token.Lexer

/-!
# Reading with repairs

A repairing reader runs the machine of a grammar on tokens and always gives a tree.
Where a token does not fit it tries, in this order, to leave out that token, to
supply the token that is missing, and to give up the rule at hand.

* A token is left out if the one behind it fits.  It becomes a leaf all the same.
* A token is supplied if the one at hand fits behind it.  It becomes a leaf
  `<missing X>` if the grammar asks for a single kind, and none if it asks for one of
  several.
* A rule that is given up skips the tokens that cannot follow any of the open rules.
  The skipped tokens are its last leaves.

Before every decision the reader looks whether the next token can follow at all, and
repairs at once if not (`Repair.sync`).  After an error it is *recovering* until
it has read a token that fits, and reports no other error before.  A rule that fails
again at a state where one failed before, with no token read since, skips at
least one token, so that the reader comes to an end.
-/

namespace MiniGoc

/-- An open rule around the one at hand. -/
structure Level (κ ρ : Type) where
  rule : ρ
  /-- Its children so far, the last one first. -/
  children : List (Tree κ ρ)
  /-- Where it goes on after the rule inside it. -/
  returnTo : Nat

structure Repair (κ ρ : Type) where
  state : Nat
  rule : ρ
  /-- Its children so far, the last one first. -/
  children : List (Tree κ ρ) := []
  /-- The rules around it, from the inside out. -/
  outer : List (Level κ ρ) := []
  ahead : List (Token κ)
  /-- How many tokens have been read. -/
  index : Nat := 0
  /-- Whether an error has been reported and no fitting token read since. -/
  recovering : Bool := false
  /-- The number of tokens read when a rule last failed. -/
  failedAt : Option Nat := none
  /-- The states at which rules have failed since the last fitting token. -/
  failedStates : List Nat := []
  /-- What loops take for a next token from then on, beside what can follow. -/
  widened : List (Nat × κ) := []
  /-- The places of the reported errors, the last one first. -/
  errors : List Place := []

namespace Repair

variable {κ ρ : Type} [DecidableEq κ] [DecidableEq ρ] (m : Machine κ ρ) (r : Repair κ ρ)

/-! ## Tokens -/

/-- The token at hand; after the last one, the end of the source. -/
def current : Token κ := r.ahead.head?.getD ⟨m.eof, "<EOF>", {}⟩

/-- The kind of the token behind the one at hand. -/
def secondKind : κ :=
  match r.ahead with
  | _ :: t :: _ => t.kind
  | _ => m.eof

/-- Makes the token at hand a leaf and goes to the next one.  The end of the source
stays. -/
def consume : Repair κ ρ :=
  let t := current m r
  let r := { r with children := .leaf t :: r.children }
  if t.kind = m.eof then r else { r with ahead := r.ahead.tail, index := r.index + 1 }

/-- Makes leaves of the tokens up to one of some kinds or the end of the source. -/
def skipTo (stops : List κ) : Repair κ ρ :=
  let skipped := r.ahead.takeWhile fun t => decide (t.kind ≠ m.eof ∧ t.kind ∉ stops)
  { r with
    children := (skipped.map Tree.leaf).reverse ++ r.children
    ahead := r.ahead.drop skipped.length
    index := r.index + skipped.length }

/-! ## Errors -/

/-- Reports an error unless there is one already. -/
def report (t : Token κ) : Repair κ ρ :=
  if r.recovering then r else { r with recovering := true, errors := t.place :: r.errors }

/-- Ends the recovering. -/
def settle : Repair κ ρ := { r with recovering := false, failedAt := none, failedStates := [] }

/-- The states to return to, from the inside out. -/
def returns : List Nat := r.outer.map Level.returnTo

/-- The kinds that can follow one of the open rules in the rule around it. -/
def followers : List κ := r.returns.flatMap fun n => (m.look n).filterMap id

/-- The kinds that can come next at a state inside the open rules. -/
def expected (n : Nat) : List κ := m.lookWithin n r.returns

/-- Leaves out the token at hand if the one behind it fits. -/
def leaveOut? : Option (Repair κ ρ) :=
  if secondKind m r ∈ expected m r r.state then
    some (settle (consume m (r.report (current m r))))
  else none

/-- The places of the errors and the tree, when all is read. -/
abbrev Repaired (κ ρ : Type) := List Place × Tree κ ρ

/-- The tree of the rule at hand. -/
def tree : Tree κ ρ := .node r.rule r.children.reverse

/-- The rule at hand is done. -/
def leave : Repair κ ρ ⊕ Repaired κ ρ :=
  let t := r.tree
  match r.outer with
  | [] => .inr (r.errors.reverse, t)
  | l :: ls =>
      .inl { r with state := l.returnTo, rule := l.rule, children := t :: l.children, outer := ls }

/-- The rule at hand is given up because of a token. -/
def giveUp (t : Token κ) : Repair κ ρ :=
  let r := r.report t
  let r := if r.failedAt = some r.index ∧ r.state ∈ r.failedStates then consume m r else r
  let r := { r with failedAt := some r.index, failedStates := r.state :: r.failedStates }
  skipTo m r (followers m r)

/-! ## Steps -/

/-- What a step leads to: the reading goes on, or the rule at hand fails because of a
token. -/
abbrev Outcome (κ ρ : Type) := Except (Token κ) (Repair κ ρ)

def read (kinds : List κ) (single : Bool) (next : Nat) : Outcome κ ρ :=
  let t := current m r
  if t.kind ∈ kinds then .ok { consume m r.settle with state := next }
  else match leaveOut? m r with
    | some r => .ok { consume m r with state := next }
    | none =>
        if t.kind ∈ expected m r next then
          let r := r.report t
          match single, kinds with
          | true, k :: _ =>
              let missing := ⟨k, "<missing " ++ m.display k ++ ">", t.place⟩
              .ok { r with state := next, children := .leaf missing :: r.children }
          | _, _ => .ok { r with state := next }
        else .error t

/-- Looks whether the next token can follow at a decision.  After a round of a loop,
wrong tokens are skipped; before a decision, one may be left out. -/
def sync (place : Juncture) : Outcome κ ρ :=
  let t := current m r
  let next := m.look r.state
  if r.recovering ∨ some t.kind ∈ next ∨ none ∈ next ∨ (r.state, t.kind) ∈ r.widened then .ok r
  else match place with
    | .loopBack =>
        let more := followers m r
        let r := r.report t
        let own := next.filterMap id ++ (r.widened.filter fun p => p.1 = r.state).map Prod.snd
        let r := { r with widened := more.map (fun k => (r.state, k)) ++ r.widened }
        .ok (skipTo m r (own ++ more))
    | _ =>
        match leaveOut? m r with
        | some r => .ok r
        | none => .error t

/-- Settles a decision: for the state to go on with, or for the token to blame. -/
def choose (place : Juncture) (how : Lookahead) (targets : List Nat) :
    Except (Token κ) (Option Nat) :=
  let t := current m r
  match place, how with
  | .firstRound, _ => .ok targets.head?
  | .choice, .next =>
      match targets.find? fun n => some t.kind ∈ m.look n with
      | some n => .ok (some n)
      | none => .error t
  | _, .next =>
      match targets with
      | [body, past] => .ok (some (if some t.kind ∈ m.look body then body else past))
      | _ => .ok targets.head?
  | _, .far =>
      match m.predict targets r.returns r.ahead with
      | .alt n => .ok targets[n - 1]?
      | .culprit t => .error t

def step : Repair κ ρ ⊕ Repaired κ ρ :=
  match m.state? r.state with
  | none => r.leave
  | some (.stop _) => r.leave
  | some (.wrap next) =>
      .inl { r with state := next, children := [r.tree] }
  | some (.enter s next) =>
      .inl { r with
        state := m.start s, rule := s, children := []
        outer := ⟨r.rule, r.children, next⟩ :: r.outer }
  | some (.read kinds single next) =>
      match read m r kinds single next with
      | .ok r => .inl r
      | .error t => leave (giveUp m r t)
  | some (.decide place how targets) =>
      match sync m r place with
      | .error t => leave (giveUp m r t)
      | .ok r =>
          match choose m r place how targets with
          | .ok (some n) => .inl { r with state := n }
          | .ok none => r.leave
          | .error t => leave (giveUp m r t)

/-- Takes steps until all rules are done. -/
def run : Nat → Repair κ ρ → Repaired κ ρ
  | 0, r => (r.errors.reverse, r.tree)
  | fuel + 1, r =>
      match step m r with
      | .inl next => run fuel next
      | .inr done => done

end Repair

/-- How many steps a repairing reader may take for a token. -/
def Repair.stepsPerToken : Nat := 4000

/-- Reads tokens as a rule and repairs what does not fit: the places of the errors,
and the tree. -/
def Machine.repair {κ ρ : Type} [DecidableEq κ] [DecidableEq ρ] (m : Machine κ ρ) (rule : ρ)
    (ts : List (Token κ)) : Repair.Repaired κ ρ :=
  Repair.run m (Repair.stepsPerToken * (ts.length + 2))
    { state := m.start rule, rule := rule, ahead := ts }

/-! ## MiniGo -/

def Machine.miniGo : Machine TokenKind Rule :=
  .ofGrammar Grammar.miniGo Rule.all .eof TokenKind.display

/-- Reads a MiniGo source with repairs.  Only a lexical error stops the reader. -/
def SyntaxTree.repair (source : String) : Except LexError (Repair.Repaired TokenKind Rule) :=
  let tokens := Tokens.ofSource source
  match tokens.error with
  | some e => .error e
  | none => .ok (Machine.miniGo.repair .program tokens.tokens)

end MiniGoc
