import MiniGoc.Proofs.Code
import Mathlib.Logic.Function.Basic
import Mathlib.Logic.Relation

/-!
# A machine for integers

The machine runs the lines of one method, as far as they deal with integers of 32 bits:
constants, local slots, static fields, arithmetic that wraps around, and jumps to labels.
A configuration is the code that is still to be run, which is a rest of the whole method,
and the machine itself.  The machine keeps a record of what it has set (`StackMachine.writes`).

`step` gives the next configuration, if there is one.  There is none where a division has
no result, where an object is asked for in the place of an integer, and at the
instructions that leave the method.
-/

namespace MiniGoc

open Emit (one)

/-- Something that was set: a local slot or a static field. -/
inductive Write where
  | slot (i : Int) (w : Int32)
  | field (member : String) (w : Int32)
deriving DecidableEq, Repr

/-- The values a method works on, and what it has set so far. -/
structure StackMachine where
  stack : List Int32 := []
  /-- The local slots.  At first nothing is known of them. -/
  slots : Int → Option Int32 := fun _ => none
  /-- The static fields by their full names.  At first they are zero. -/
  fields : String → Int32 := fun _ => 0
  writes : List Write := []

/-! ## Instructions -/

/-- Whether two integers compare so. -/
def Cond.test : Cond → Int32 → Int32 → Bool
  | eq, a, b => a == b
  | ne, a, b => a != b
  | lt, a, b => decide (a < b)
  | le, a, b => decide (a ≤ b)
  | gt, a, b => decide (b < a)
  | ge, a, b => decide (b ≤ a)

/-- The integer that an instruction pushes.  Each has a range of its own. -/
def Instr.constant? : Instr → Option Int32
  | iconst i => if -1 ≤ i ∧ i ≤ 5 then some (.ofInt i) else none
  | bipush i => if -128 ≤ i ∧ i ≤ 127 then some (.ofInt i) else none
  | sipush i => if -32768 ≤ i ∧ i ≤ 32767 then some (.ofInt i) else none
  | ldc (.int i) => if -2147483648 ≤ i ∧ i ≤ 2147483647 then some (.ofInt i) else none
  | _ => none

/-- What an instruction makes of two integers.  Nothing is divided by zero. -/
def Instr.binary? : Instr → Int32 → Int32 → Option Int32
  | iadd, a, b => some (a + b)
  | isub, a, b => some (a - b)
  | imul, a, b => some (a * b)
  | idiv, a, b => if b = 0 then none else some (a / b)
  | irem, a, b => if b = 0 then none else some (a % b)
  | iand, a, b => some (a &&& b)
  | ior, a, b => some (a ||| b)
  | _, _, _ => none

namespace StackMachine

/-- The machine with one more value on its stack. -/
def push (m : StackMachine) (w : Int32) : StackMachine := { m with stack := w :: m.stack }

/-- The machine after a slot has been set. -/
def setSlot (m : StackMachine) (i : Int) (w : Int32) : StackMachine :=
  { m with slots := Function.update m.slots i (some w), writes := m.writes ++ [.slot i w] }

/-- The machine after a field has been set. -/
def setField (m : StackMachine) (member : String) (w : Int32) : StackMachine :=
  { m with fields := Function.update m.fields member w, writes := m.writes ++ [.field member w] }

@[simp] theorem push_stack (m : StackMachine) (w : Int32) : (m.push w).stack = w :: m.stack := rfl

@[simp] theorem push_slots (m : StackMachine) (w : Int32) : (m.push w).slots = m.slots := rfl

@[simp] theorem push_fields (m : StackMachine) (w : Int32) : (m.push w).fields = m.fields := rfl

@[simp] theorem push_writes (m : StackMachine) (w : Int32) : (m.push w).writes = m.writes := rfl

@[simp] theorem setSlot_stack (m : StackMachine) (i : Int) (w : Int32) :
    (m.setSlot i w).stack = m.stack := rfl

@[simp] theorem setField_stack (m : StackMachine) (f : String) (w : Int32) :
    (m.setField f w).stack = m.stack := rfl

/-- The machine without the topmost value, and that value. -/
def pop? (m : StackMachine) : Option (Int32 × StackMachine) :=
  match m.stack with
  | w :: ws => some (w, { m with stack := ws })
  | [] => none

@[simp] theorem pop?_push (m : StackMachine) (w : Int32) : (m.push w).pop? = some (w, m) := rfl

end StackMachine

/-- The code after the first place of a label. -/
def Code.after? (l : Operand) : Code → Option Code
  | [] => none
  | .label l' :: c => if l' = l then some c else after? l c
  | _ :: c => after? l c

/-- Whether the values of a type are integers for the machine. -/
def isWord (descriptor : String) : Bool := descriptor = "I" || descriptor = "Z"

/-- Goes on after a label, or where the code is, as a test comes out. -/
def branch (prog rest : Code) (l : Operand) (m : StackMachine) (test : Bool) :
    Option (Code × StackMachine) :=
  if test then (prog.after? l).map fun c => (c, m) else some (rest, m)

/-- Performs one instruction of a method, in front of the rest of its code. -/
def perform (prog rest : Code) (m : StackMachine) (i : Instr) : Option (Code × StackMachine) :=
  match i with
  | .load .int j => do return (rest, m.push (← m.slots j))
  | .store .int j => do
    let (w, m) ← m.pop?
    return (rest, m.setSlot j w)
  | .getStatic f d => if isWord d then some (rest, m.push (m.fields f)) else none
  | .putStatic f d => do
    let (w, m) ← m.pop?
    if isWord d then some (rest, m.setField f w) else none
  | .ifInts c l => do
    let (b, m) ← m.pop?
    let (a, m) ← m.pop?
    branch prog rest l m (c.test a b)
  | .ifZero c l => do
    let (a, m) ← m.pop?
    branch prog rest l m (c.test a 0)
  | .goto l => branch prog rest l m true
  | i =>
    match i.constant? with
    | some w => some (rest, m.push w)
    | none => do
      let (b, m) ← m.pop?
      let (a, m) ← m.pop?
      return (rest, m.push (← i.binary? a b))

/-- The next configuration of a method.  Labels and the lines for slots do nothing. -/
def step (prog : Code) : Code × StackMachine → Option (Code × StackMachine)
  | (.label _ :: rest, m) => some (rest, m)
  | (.var .. :: rest, m) => some (rest, m)
  | (.instr i :: rest, m) => perform prog rest m i
  | _ => none

@[simp] theorem step_one (prog k : Code) (m : StackMachine) (i : Instr) :
    step prog (one i ++ k, m) = perform prog k m i := rfl

/-- Some steps, or none, lead from a configuration to another. -/
def Runs (prog : Code) : Code × StackMachine → Code × StackMachine → Prop :=
  Relation.ReflTransGen fun s t => step prog s = some t

namespace Runs

variable {prog : Code} {s t u : Code × StackMachine}

theorem refl : Runs prog s s := Relation.ReflTransGen.refl

theorem trans (h : Runs prog s t) (h' : Runs prog t u) : Runs prog s u :=
  Relation.ReflTransGen.trans h h'

theorem of_step (h : step prog s = some t) : Runs prog s t := Relation.ReflTransGen.single h

/-- There is only one way to go: a run that cannot go on is the longest. -/
theorem to_end (h : Runs prog s t) (h' : Runs prog s u) (hu : step prog u = none) :
    Runs prog t u := by
  induction h using Relation.ReflTransGen.head_induction_on with
  | refl => exact h'
  | head hstep _ ih =>
    apply ih
    rcases Relation.ReflTransGen.cases_head h' with rfl | ⟨v, hv, h'⟩
    · rw [hu] at hstep
      cases hstep
    · rw [hstep] at hv
      cases hv
      exact h'

theorem end_unique (h : Runs prog s t) (h' : Runs prog s u) (ht : step prog t = none)
    (hu : step prog u = none) : t = u := by
  rcases Relation.ReflTransGen.cases_head (h.to_end h' hu) with rfl | ⟨v, hv, -⟩
  · rfl
  · rw [ht] at hv
    cases hv

end Runs

/-! ## Code in its place -/

/-- In a method with distinct labels, a jump goes on where its label stands. -/
theorem Code.after?_of_suffix {prog r : Code} {l : Operand} (hprog : prog.labels.Nodup)
    (h : .label l :: r <:+ prog) : prog.after? l = some r := by
  obtain ⟨pre, rfl⟩ := h
  induction pre with
  | nil => simp [after?]
  | cons line pre ih =>
    cases line with
    | label l' =>
      simp only [List.cons_append, Code.labels, List.filterMap_cons, Line.label?,
        List.nodup_cons] at hprog
      have hne : l' ≠ l := by
        rintro rfl
        apply hprog.1
        simp [Line.label?]
      simp only [List.cons_append, after?, hne, if_false]
      exact ih hprog.2
    | _ => exact ih hprog

namespace Runs

variable {prog k r : Code} {m : StackMachine} {a b w : Int32} {i : Instr} {l : Operand}

attribute [local simp] perform

theorem label : Runs prog (Emit.label l ++ k, m) (k, m) := of_step rfl

theorem vars {c : Code} (hc : ∀ line ∈ c, ∃ i n d l l', line = .var i n d l l') :
    Runs prog (c ++ k, m) (k, m) := by
  induction c with
  | nil => exact refl
  | cons line c ih =>
    obtain ⟨i, n, d, l, l', rfl⟩ := hc line (List.mem_cons_self ..)
    have first : Runs prog (.var i n d l l' :: (c ++ k), m) (c ++ k, m) := of_step rfl
    exact first.trans (ih fun line h => hc line (List.mem_cons_of_mem _ h))

theorem constant (h : i.constant? = some w) : Runs prog (one i ++ k, m) (k, m.push w) := by
  apply of_step
  cases i with
  | iconst | bipush | sipush | ldc =>
    simp [h]
  | _ => cases h

theorem binary (h : i.binary? a b = some w) :
    Runs prog (one i ++ k, (m.push a).push b) (k, m.push w) := by
  apply of_step
  cases i with
  | iadd | isub | imul | idiv | irem | iand | ior =>
    simp [h, Instr.constant?]
  | _ => cases h

theorem load {j : Int} (h : m.slots j = some w) :
    Runs prog (one (.load .int j) ++ k, m) (k, m.push w) := by
  apply of_step
  simp [h]

theorem store {j : Int} : Runs prog (one (.store .int j) ++ k, m.push w) (k, m.setSlot j w) :=
  of_step rfl

theorem getStatic {f d : String} (h : isWord d) :
    Runs prog (one (.getStatic f d) ++ k, m) (k, m.push (m.fields f)) := by
  apply of_step
  simp [h]

theorem putStatic {f d : String} (h : isWord d) :
    Runs prog (one (.putStatic f d) ++ k, m.push w) (k, m.setField f w) := by
  apply of_step
  simp [h]

section Jumps

variable (hprog : prog.labels.Nodup) (hl : Emit.label l ++ r <:+ prog)

include hprog hl

theorem branch_eq (k : Code) (m : StackMachine) (test : Bool) :
    branch prog k l m test = some (if test then r else k, m) := by
  unfold branch
  cases test with
  | false => rfl
  | true =>
    rw [Code.after?_of_suffix hprog hl]
    rfl

theorem jump : Runs prog (Emit.jump l ++ k, m) (r, m) := by
  exact of_step (branch_eq hprog hl k m true)

theorem ifInts {c : Cond} :
    Runs prog (one (.ifInts c l) ++ k, (m.push a).push b)
      (if c.test a b then r else k, m) :=
  of_step (branch_eq hprog hl k m _)

theorem ifZero {c : Cond} :
    Runs prog (one (.ifZero c l) ++ k, m.push a) (if c.test a 0 then r else k, m) :=
  of_step (branch_eq hprog hl k m _)

end Jumps

end Runs

/-! ## Runs that may go wrong -/

/-- A run that comes to a place where an object is asked for. -/
def Halted (prog : Code) (s : Code × StackMachine) : Prop :=
  ∃ j k m, Runs prog s (one (.load .ref j) ++ k, m)

/-- A run goes on to a configuration if nothing is bad, and is stuck if something is. -/
structure Outcome (prog : Code) (s : Code × StackMachine) (bad : Prop) (t : Code × StackMachine) :
    Prop where
  runs : ¬ bad → Runs prog s t
  stuck : bad → Halted prog s

namespace Outcome

variable {prog : Code} {s t u : Code × StackMachine} {bad bad' : Prop}

theorem of_runs (h : Runs prog s t) : Outcome prog s False t := ⟨fun _ => h, False.elim⟩

/-- One part after the other.  The second counts if nothing was bad in the first. -/
theorem seq (h : Outcome prog s bad t) (h' : Outcome prog t bad' u) :
    Outcome prog s (bad ∨ bad') u where
  runs hgood := (h.runs fun hb => hgood (.inl hb)).trans (h'.runs fun hb => hgood (.inr hb))
  stuck := by
    intro hbad
    by_cases hb : bad
    · exact h.stuck hb
    · obtain ⟨j, k, m, hm⟩ := h'.stuck (hbad.resolve_left hb)
      exact ⟨j, k, m, (h.runs hb).trans hm⟩

theorem andThen (h : Outcome prog s bad t) (h' : Runs prog t u) : Outcome prog s bad u := by
  simpa using h.seq (.of_runs h')

theorem after (h : Runs prog s t) (h' : Outcome prog t bad u) : Outcome prog s bad u := by
  simpa using (Outcome.of_runs h).seq h'

theorem not_bad (h : Outcome prog s bad t) (hu : Runs prog s u) (hend : step prog u = none)
    (hload : ∀ j k m, u ≠ (one (.load .ref j) ++ k, m)) : ¬ bad := by
  intro hb
  obtain ⟨j, k, m, hm⟩ := h.stuck hb
  have hstuck : step prog (one (.load .ref j) ++ k, m) = none := by
    simp [perform, Instr.constant?, Instr.binary?]
  exact hload j k m (hu.end_unique hm hend hstuck)

end Outcome

end MiniGoc
