import MiniGoc.Proofs.Depth

/-!
# Types on the operand stack

The machine of this module runs code on a stack of types.  Every instruction asks for the types of
the values that it takes and says which types it gives (`Instr.signature?`).  The types of the
local slots are given, and those of the static fields stand in the code.  Where an instruction tests
something, both ways are open.

`Ends` says that on all ways every instruction finds what it asks for, and that the code is left
with one given stack.  Code without loops does one thing to a stack (`Does`): it fails or leaves
another one, and the code that follows has to end from there.  This is an equivalence, so it can be
read forwards, to show that code is right, and backwards, to show what wrong code does.
-/

namespace MiniGoc

open Emit

/-- The types of values on the stack.  A truth value is an integer, and the only objects are
texts. -/
inductive StackType where
  | int
  | float
  | text
deriving DecidableEq, Repr

namespace StackType

def ofBank : Bank → StackType
  | .int => int
  | .float => float
  | .ref => text

def ofDescriptor? (d : String) : Option StackType :=
  if isWord d then some int
  else if d = "F" then some float
  else if d = "Ljava/lang/String;" then some text
  else none

end StackType

/-- The types that an instruction takes, the topmost first, and those that it gives.  The slots
have types of their own. -/
def Instr.signature? (slots : Int → Option StackType) :
    Instr → Option (List StackType × List StackType)
  | iconst _ | iconstFlag _ | bipush _ | sipush _ | ldc (.int _) => some ([], [.int])
  | fconst _ | ldc (.float _) => some ([], [.float])
  | ldc (.string _) => some ([], [.text])
  | load b j => if slots j = some (.ofBank b) then some ([], [.ofBank b]) else none
  | getStatic _ d => (StackType.ofDescriptor? d).map fun t => ([], [t])
  | iadd | isub | imul | idiv | irem | iand | ior => some ([.int, .int], [.int])
  | ineg => some ([.int], [.int])
  | fadd | fsub | fmul | fdiv => some ([.float, .float], [.float])
  | fneg => some ([.float], [.float])
  | fcmpl => some ([.float, .float], [.int])
  | i2f => some ([.int], [.float])
  | ifInts _ _ => some ([.int, .int], [])
  | ifZero _ _ => some ([.int], [])
  | goto _ => some ([], [])
  | invokeVirtual m _ =>
    if m = "java/lang/String/concat" then some ([.text, .text], [.text])
    else if m = "java/lang/String/compareTo" then some ([.text, .text], [.int])
    else none
  | _ => none

attribute [local simp] Instr.signature?

/-- The stack after something, unless that fails. -/
abbrev StackEffect := List StackType → Option (List StackType)

theorem StackEffect.kleisli_eq_some {F G : StackEffect} {S X : List StackType} :
    (F >=> G) S = some X ↔ ∃ Y, F S = some Y ∧ G Y = some X := by
  simp [Bind.kleisliRight, Option.bind_eq_some_iff]

/-- Types at the top of a stack are taken, and others are put there. -/
def exchange (taken given : List StackType) : StackEffect := fun S =>
  (S.dropPrefix? taken).map (given ++ ·)

theorem exchange_eq_some {taken given S X : List StackType} :
    exchange taken given S = some X ↔ ∃ T, S = taken ++ T ∧ X = given ++ T := by
  simp only [exchange, Option.map_eq_some_iff, List.dropPrefix?_eq_some_iff]
  constructor
  · rintro ⟨T, ⟨u, rfl, hu⟩, rfl⟩
    exact ⟨T, by rw [eq_of_beq hu], rfl⟩
  · rintro ⟨T, rfl, rfl⟩
    exact ⟨T, ⟨taken, rfl, beq_self_eq_true taken⟩, rfl⟩

/-- What is put there can be taken again. -/
theorem exchange_kleisli (a b c : List StackType) :
    exchange a b >=> exchange b c = exchange a c := by
  funext S
  refine Option.ext fun X => ?_
  simp only [StackEffect.kleisli_eq_some, exchange_eq_some]
  constructor
  · rintro ⟨_, ⟨T, rfl, rfl⟩, U, heq, rfl⟩
    exact ⟨T, rfl, by rw [List.append_cancel_left heq]⟩
  · rintro ⟨T, rfl, rfl⟩
    exact ⟨_, ⟨T, rfl, rfl⟩, T, rfl, rfl⟩

/-- The code that is still to be run, and the types on the stack. -/
abbrev TypedPoint := Code × List StackType

/-- The points that may come next, if the line can be run on the stack. -/
def typedSuccessors? (slots : Int → Option StackType) (prog : Code) :
    TypedPoint → Option (List TypedPoint)
  | ([], _) => none
  | (.instr i :: rest, S) => do
    let (taken, given) ← i.signature? slots
    let X ← exchange taken given S
    let next := if i.fallsThrough then [(rest, X)] else []
    match i.jump? with
    | none => return next
    | some l => return next ++ [(← prog.after? l, X)]
  | (_ :: rest, S) => some [(rest, S)]

/-- On all ways from a point the code can be run to its end, and leaves the stack `R`. -/
inductive Ends (slots : Int → Option StackType) (prog : Code) (R : List StackType) :
    TypedPoint → Prop where
  | done : Ends slots prog R ([], R)
  | step {s : TypedPoint} {ts : List TypedPoint} : typedSuccessors? slots prog s = some ts →
      (∀ t ∈ ts, Ends slots prog R t) → Ends slots prog R s

/-- Code of the program has an effect on the stack, whatever code follows. -/
def Does (slots : Int → Option StackType) (prog : Code) (R : List StackType) (c : Code)
    (F : StackEffect) : Prop :=
  ∀ k S, c ++ k <:+ prog →
    (Ends slots prog R (c ++ k, S) ↔ ∃ X, F S = some X ∧ Ends slots prog R (k, X))

variable {slots : Int → Option StackType} {prog k r : Code} {R S : List StackType} {i : Instr}
  {l : Operand} {taken given : List StackType}

namespace Ends

theorem nil_iff : Ends slots prog R ([], S) ↔ S = R := by
  constructor
  · intro h
    cases h with
    | done => rfl
    | step h => cases h
  · rintro rfl
    exact .done

theorem cons_iff {line : Line} : Ends slots prog R (line :: k, S) ↔
    ∃ ts, typedSuccessors? slots prog (line :: k, S) = some ts ∧ ∀ t ∈ ts, Ends slots prog R t := by
  constructor
  · intro h
    cases h with
    | step h hts => exact ⟨_, h, hts⟩
  · rintro ⟨ts, h, hts⟩
    exact .step h hts

theorem label_iff : Ends slots prog R (Emit.label l ++ k, S) ↔ Ends slots prog R (k, S) := by
  rw [Emit.label, List.singleton_append, cons_iff]
  simp [typedSuccessors?]

theorem one_iff (hi : i.signature? slots = some (taken, given)) (hstraight : i.isStraight) :
    Ends slots prog R (one i ++ k, S) ↔
      ∃ X, exchange taken given S = some X ∧ Ends slots prog R (k, X) := by
  simp only [Instr.isStraight, Bool.and_eq_true, Option.isNone_iff_eq_none] at hstraight
  rw [one, List.singleton_append, cons_iff]
  simp [-Instr.signature?, typedSuccessors?, hi, hstraight, Option.bind_eq_some_iff]

section Jumps

variable (hprog : prog.labels.Nodup) (hl : Emit.label l ++ r <:+ prog)

include hprog hl

theorem jump_iff : Ends slots prog R (Emit.jump l ++ k, S) ↔ Ends slots prog R (r, S) := by
  have hnone : exchange [] [] S = some S := exchange_eq_some.2 ⟨S, rfl, rfl⟩
  rw [Emit.jump, one, List.singleton_append, cons_iff]
  simp [typedSuccessors?, Instr.signature?, Instr.fallsThrough, Instr.jump?, hnone,
    Code.after?_of_suffix hprog hl]

theorem test_iff (hi : i.signature? slots = some (taken, [])) (hfalls : i.fallsThrough)
    (hjump : i.jump? = some l) : Ends slots prog R (one i ++ k, S) ↔
      ∃ X, exchange taken [] S = some X ∧ Ends slots prog R (k, X) ∧ Ends slots prog R (r, X) := by
  have hafter : prog.after? l = some r := Code.after?_of_suffix hprog hl
  rw [one, List.singleton_append, cons_iff]
  simp [-Instr.signature?, typedSuccessors?, hi, hfalls, hjump, hafter, Option.bind_eq_some_iff,
    or_imp, forall_and]

end Jumps

end Ends

namespace Does

theorem nil : Does slots prog R [] some := by
  intro k S _
  simp

theorem append {c d : Code} {F G : StackEffect} (hc : Does slots prog R c F)
    (hd : Does slots prog R d G) : Does slots prog R (c ++ d) (F >=> G) := by
  intro k S hk
  rw [List.append_assoc] at hk ⊢
  rw [hc _ S hk]
  simp only [hd _ _ ((List.suffix_append c _).trans hk), StackEffect.kleisli_eq_some]
  constructor
  · rintro ⟨X, hX, Y, hY, h⟩
    exact ⟨Y, ⟨X, hX, hY⟩, h⟩
  · rintro ⟨Y, ⟨X, hX, hY⟩, h⟩
    exact ⟨X, hX, Y, hY, h⟩

theorem one (hi : i.signature? slots = some (taken, given)) (hstraight : i.isStraight) :
    Does slots prog R (one i) (exchange taken given) := by
  intro k S _
  exact Ends.one_iff hi hstraight

theorem push {t : StackType} (hi : i.signature? slots = some ([], [t])) (hstraight : i.isStraight) :
    Does slots prog R (Emit.one i) fun S => some (t :: S) := by
  intro k S _
  rw [Ends.one_iff hi hstraight]
  simp [exchange_eq_some]

theorem load_none {b : Bank} {j : Int} (h : slots j ≠ some (.ofBank b)) :
    Does slots prog R (Emit.one (.load b j)) fun _ => none := by
  intro k S _
  rw [Emit.one, List.singleton_append, Ends.cons_iff]
  simp [typedSuccessors?, Instr.signature?, h]

/-- A test and its outcomes put a truth value in the place of what is tested. -/
theorem choose (hprog : prog.labels.Nodup) {op : String} (hop : op ∈ relationalOperators)
    {make : Cond → Operand → Instr} {lf lo : Nat}
    (hmake : ∀ c o, (make c o).signature? slots = some (taken, []))
    (hfalls : ∀ c o, (make c o).fallsThrough) (hjump : ∀ c o, (make c o).jump? = some o) :
    Does slots prog R (failJump make op (.ofNat lf) ++ outcomes lf lo)
      (exchange taken [.int]) := by
  intro k S hk
  have decided : ∀ op ∈ relationalOperators, (failing? op).isSome := by decide
  obtain ⟨c, hc⟩ := Option.isSome_iff_exists.1 (decided op hop)
  simp only [failJump, hc, outcomes, List.append_assoc] at hk ⊢
  have hyes := (List.suffix_append _ _).trans hk
  have hno := (List.suffix_append _ _).trans ((List.suffix_append _ _).trans hyes)
  have hend := (List.suffix_append _ _).trans ((List.suffix_append _ _).trans hno)
  have constant (j : Int) (d : Code) (T : List StackType) :
      Ends slots prog R (Emit.one (.iconst j) ++ d, T) ↔ Ends slots prog R (d, .int :: T) := by
    have hconst : (Instr.iconst j).signature? slots = some ([], [.int]) := rfl
    rw [Ends.one_iff hconst rfl]
    simp [exchange_eq_some]
  rw [Ends.test_iff hprog hno (hmake c _) (hfalls c _) (hjump c _)]
  simp only [constant, Ends.jump_iff hprog hend, Ends.label_iff, and_self, exchange_eq_some]
  constructor
  · rintro ⟨X, ⟨_, rfl, rfl⟩, h⟩
    exact ⟨_, ⟨X, rfl, rfl⟩, h⟩
  · rintro ⟨_, ⟨T, rfl, rfl⟩, h⟩
    exact ⟨T, ⟨T, rfl, rfl⟩, h⟩

end Does

end MiniGoc
