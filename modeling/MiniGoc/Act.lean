import MiniGoc.Fault

/-!
# Actions

An action changes a state and has a result or a fault.  What it changed before a
fault stays changed: a caller that goes on after the fault sees the state as the
action left it.
-/

namespace MiniGoc

/-- A change of a state `σ` with a result or a fault. -/
abbrev Act (σ α : Type) := ExceptT Fault (StateM σ) α

namespace Act

variable {σ τ α : Type}

/-- The result of an action and the state it leaves. -/
def start (m : Act σ α) (s : σ) : Except Fault α × σ := m.run.run s

/-- A result that needs no state. -/
def ofExcept : Except Fault α → Act σ α
  | .ok a => pure a
  | .error f => throw f

/-- A part that has to be there. -/
def ofOption (f : Fault) : Option α → Act σ α
  | some a => pure a
  | none => throw f

/-- An action on a part of the state. -/
def onPart (get : σ → τ) (put : τ → σ → σ) (m : Act τ α) : Act σ α :=
  ExceptT.mk fun s => let (r, t) := m.start (get s); (r, put t s)

/-- An action, followed by a change of the state that a fault does not skip. -/
def andFinally (m : Act σ α) (f : σ → σ) : Act σ α :=
  ExceptT.mk fun s => let (r, t) := m.start s; (r, f t)

end Act

end MiniGoc
