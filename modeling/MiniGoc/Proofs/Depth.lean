import MiniGoc.Proofs.Machine

/-!
# The depth of the operand stack

Every instruction takes some values from the operand stack and gives some
(`Instr.exchange?`).  A point in a method is the code that is still to be run, together with
the depth of the stack there.  `successors?` gives all points that may come next: where an
instruction tests something, both ways are open, so the paths from a point (`Flows`) are the
paths through the control flow of the method.

`Contained` says that on all paths from a point the depth stays within a bound and the next
step is known.  Code is put together by what it makes of such bounds (`Leads`): code that
leads from one depth to another may stand in front of code that is contained from the other.
Branches and their joins are treated here once (`Leads.skip`, `Leads.choose`).
-/

namespace MiniGoc

open Emit

/-! ## Instructions -/

/-- What the methods of functions take and give, by their full names. -/
abbrev Exchanges := String → Option (Nat × Nat)

namespace Instr

/-- How many values an instruction takes from the operand stack, and how many it gives.  Of
the methods of objects only those for texts are known. -/
def exchange? (calls : Exchanges) : Instr → Option (Nat × Nat)
  | pushNull | iconst _ | iconstFlag _ | bipush _ | sipush _ | fconst _ | ldc _ => some (0, 1)
  | load _ _ | getStatic _ _ | newObject _ => some (0, 1)
  | store _ _ | putStatic _ _ | pop => some (1, 0)
  | arrayLoad _ => some (2, 1)
  | arrayStore _ => some (3, 0)
  | getField _ _ | newArray _ | newRefArray _ | ineg | fneg | i2f => some (1, 1)
  | putField _ _ => some (2, 0)
  | iadd | isub | imul | idiv | irem | iand | ior | fadd | fsub | fmul | fdiv | fcmpl =>
    some (2, 1)
  | ifInts _ _ | ifRefs _ _ => some (2, 0)
  | ifZero _ _ => some (1, 0)
  | goto _ | ret => some (0, 0)
  | retValue _ => some (1, 0)
  | dup => some (1, 2)
  | dupX2 => some (3, 4)
  | invokeStatic m _ => calls m
  | invokeSpecial _ t => if t = "()V" then some (1, 0) else none
  | invokeVirtual m _ =>
    if m = "java/lang/String/concat" || m = "java/lang/String/compareTo" then some (2, 1)
    else none
  | invokeInterface _ _ _ | newMultiArray _ _ => none

attribute [local simp] exchange?

/-- The label that an instruction may jump to. -/
def jump? : Instr → Option Operand
  | ifInts _ l | ifZero _ l | ifRefs _ l | goto l => some l
  | _ => none

/-- Whether the next line may come after an instruction. -/
def fallsThrough : Instr → Bool
  | goto _ | ret | retValue _ => false
  | _ => true

variable {calls : Exchanges} {i : Instr}

theorem exchange?_of_isConstant (h : i.isConstant) : i.exchange? calls = some (0, 1) := by
  cases i <;> first | rfl | simp [isConstant] at h

theorem exchange?_of_isOperator (h : i.isOperator) : i.exchange? calls = some (2, 1) := by
  cases i with
  | invokeVirtual m t =>
    simp only [isOperator] at h
    simp only [exchange?, h, if_true]
  | iadd | isub | imul | idiv | irem | iand | ior | fadd | fsub | fmul | fdiv | fcmpl => rfl
  | _ => cases h

theorem exchange?_of_makesArray (h : i.makesArray) : i.exchange? calls = some (1, 1) := by
  cases i <;> first | rfl | simp [makesArray] at h

/-- Instructions after which the next line comes. -/
def isStraight (i : Instr) : Bool := i.fallsThrough && i.jump?.isNone

theorem isStraight_of_isConstant (h : i.isConstant) : i.isStraight := by
  cases i <;> first | rfl | simp [isConstant] at h

theorem isStraight_of_isOperator (h : i.isOperator) : i.isStraight := by
  cases i <;> first | rfl | simp [isOperator] at h

theorem isStraight_of_makesArray (h : i.makesArray) : i.isStraight := by
  cases i <;> first | rfl | simp [makesArray] at h

end Instr

/-! ## Paths -/

/-- The code that is still to be run, and the depth of the operand stack. -/
abbrev Point := Code × Int

/-- The points that may come next, unless an instruction or a label is not known. -/
def successors? (calls : Exchanges) (prog : Code) : Point → Option (List Point)
  | ([], _) => some []
  | (.instr i :: rest, n) => do
    let (taken, given) ← i.exchange? calls
    let next := if i.fallsThrough then [(rest, n - taken + given)] else []
    match i.jump? with
    | none => return next
    | some l => return next ++ [(← prog.after? l, n - taken + given)]
  | (_ :: rest, n) => some [(rest, n)]

/-- A point on a path through a method that starts at another point. -/
def Flows (calls : Exchanges) (prog : Code) : Point → Point → Prop :=
  Relation.ReflTransGen fun s t => ∃ ts, successors? calls prog s = some ts ∧ t ∈ ts

/-- The point after some steps, if always the first way on is taken. -/
def walk (calls : Exchanges) (prog : Code) : Nat → Point → Option Point
  | 0, s => some s
  | k + 1, s => do walk calls prog k (← (← successors? calls prog s).head?)

theorem flows_of_walk {calls : Exchanges} {prog : Code} :
    ∀ {k : Nat} {s t : Point}, walk calls prog k s = some t → Flows calls prog s t
  | 0, s, t, h => by
    cases h
    exact .refl
  | k + 1, s, t, h => by
    simp only [walk, Option.bind_eq_bind, Option.bind_eq_some_iff] at h
    obtain ⟨ts, hts, u, hu, h⟩ := h
    exact .head ⟨ts, hts, List.mem_of_mem_head? hu⟩ (flows_of_walk h)

/-- On all paths from a point in a method, with any depth up to a number, the depth stays
within a bound, and what comes next is known. -/
def Contained (calls : Exchanges) (prog : Code) (bound : Int) (c : Code) (n : Int) : Prop :=
  ∀ m ≤ n, ∀ t, Flows calls prog (c, m) t → t.2 ≤ bound ∧ (successors? calls prog t).isSome

namespace Contained

variable {calls : Exchanges} {prog c k : Code} {bound n m : Int}

theorem mono (h : Contained calls prog bound c n) (hm : m ≤ n) :
    Contained calls prog bound c m := fun i hi => h i (Int.le_trans hi hm)

theorem le (h : Contained calls prog bound c n) : n ≤ bound := (h n (Int.le_refl n) _ .refl).1

theorem nil (hn : n ≤ bound) : Contained calls prog bound [] n := by
  intro i hi t ht
  rcases Relation.ReflTransGen.cases_head ht with rfl | ⟨u, ⟨us, hus, hu⟩, -⟩
  · exact ⟨Int.le_trans hi hn, rfl⟩
  · cases hus
    cases hu

/-- A point is contained if all points that may come next are. -/
theorem of_successors (hn : n ≤ bound)
    (h : ∀ i ≤ n, ∃ ts, successors? calls prog (c, i) = some ts ∧
      ∀ t ∈ ts, Contained calls prog bound t.1 t.2) : Contained calls prog bound c n := by
  intro i hi t ht
  obtain ⟨ts, hts, hnext⟩ := h i hi
  rcases Relation.ReflTransGen.cases_head ht with rfl | ⟨u, ⟨us, hus, hu⟩, ht⟩
  · exact ⟨Int.le_trans hi hn, by simp [hts]⟩
  · cases hts.symm.trans hus
    exact hnext u hu u.2 (Int.le_refl _) t ht

end Contained

/-! ## Code that leads from one depth to another -/

/-- Code that is run from depths up to one number, and goes on behind it with depths up to
another.  On the way the depth stays within the bound. -/
def Leads (calls : Exchanges) (prog : Code) (bound : Int) (c : Code) (n m : Int) : Prop :=
  ∀ k, c ++ k <:+ prog → Contained calls prog bound k m → Contained calls prog bound (c ++ k) n

namespace Leads

variable {calls : Exchanges} {prog c d : Code} {bound n m o : Int} {i : Instr} {l : Operand}

theorem nil (h : n ≤ m) : Leads calls prog bound [] n m := fun _ _ hk => hk.mono h

theorem append (hc : Leads calls prog bound c n m) (hd : Leads calls prog bound d m o) :
    Leads calls prog bound (c ++ d) n o := by
  intro k hprog hk
  rw [List.append_assoc] at hprog ⊢
  exact hc _ hprog (hd k ((List.suffix_append c _).trans hprog) hk)

theorem mono {n' m' : Int} (hc : Leads calls prog bound c n m) (hn : n' ≤ n) (hm : m ≤ m') :
    Leads calls prog bound c n' m' := fun k hprog hk => (hc k hprog (hk.mono hm)).mono hn

theorem line {line : Line} (hline : ∀ i, line ≠ .instr i) :
    Leads calls prog bound [line] n n := by
  intro k _ hk
  refine Contained.of_successors hk.le fun i hi => ⟨[(k, i)], ?_, ?_⟩
  · cases line with
    | instr i => exact absurd rfl (hline i)
    | _ => rfl
  · simpa using hk.mono hi

theorem label : Leads calls prog bound (Emit.label l) n n := line nofun

theorem lines (hc : ∀ line ∈ c, ∀ i, line ≠ .instr i) : Leads calls prog bound c n n := by
  induction c with
  | nil => exact nil (Int.le_refl n)
  | cons l c ih =>
    exact (line (hc l (List.mem_cons_self ..))).append
      (ih fun l' hl' => hc l' (List.mem_cons_of_mem _ hl'))

theorem one {taken given : Nat} (hi : i.exchange? calls = some (taken, given))
    (hstraight : i.isStraight) (hn : n ≤ bound) (hm : n - taken + given ≤ m) :
    Leads calls prog bound (Emit.one i) n m := by
  simp only [Instr.isStraight, Bool.and_eq_true, Option.isNone_iff_eq_none] at hstraight
  intro k _ hk
  refine Contained.of_successors hn fun j hj => ⟨[(k, j - taken + given)], ?_, ?_⟩
  · simp [Emit.one, successors?, hi, hstraight]
  · simpa using hk.mono (by omega)

theorem constant (h : i.isConstant) (hm : n + 1 ≤ m) (hb : n ≤ bound) :
    Leads calls prog bound (Emit.one i) n m :=
  one (Instr.exchange?_of_isConstant h) (Instr.isStraight_of_isConstant h) hb (by simpa using hm)

/-- Nothing comes after an instruction that leaves the method. -/
theorem leave {taken given : Nat} (hi : i.exchange? calls = some (taken, given))
    (hfalls : i.fallsThrough = false) (hjump : i.jump? = none) (hn : n ≤ bound) :
    Leads calls prog bound (Emit.one i) n m := by
  intro k _ _
  refine Contained.of_successors hn fun j _ => ⟨[], ?_, by simp⟩
  simp [Emit.one, successors?, hi, hfalls, hjump]

section Jumps

variable (hprog : prog.labels.Nodup)

include hprog

theorem jump {r : Code} (hl : Emit.label l ++ r <:+ prog) (hr : Contained calls prog bound r n) :
    Leads calls prog bound (Emit.jump l) n m := by
  intro k _ _
  refine Contained.of_successors hr.le fun j hj => ⟨[(r, j)], ?_, ?_⟩
  · simp [Emit.jump, Emit.one, successors?, Instr.exchange?, Instr.fallsThrough, Instr.jump?,
      Code.after?_of_suffix hprog hl]
  · simpa using hr.mono hj

theorem test {taken : Nat} {k r : Code} (hi : i.exchange? calls = some (taken, 0))
    (hfalls : i.fallsThrough) (hjump : i.jump? = some l) (hl : Emit.label l ++ r <:+ prog)
    (hn : n ≤ bound) (hk : Contained calls prog bound k (n - taken))
    (hr : Contained calls prog bound r (n - taken)) :
    Contained calls prog bound (Emit.one i ++ k) n := by
  refine Contained.of_successors hn fun j hj =>
    ⟨[(k, j - taken), (r, j - taken)], ?_, ?_⟩
  · simp [Emit.one, successors?, hi, hfalls, hjump, Code.after?_of_suffix hprog hl]
  · have hj' : j - taken ≤ n - taken := by omega
    simpa using ⟨hk.mono hj', hr.mono hj'⟩

theorem skip {taken : Nat} (hi : i.exchange? calls = some (taken, 0)) (hfalls : i.fallsThrough)
    (hjump : i.jump? = some l) (hn : n ≤ bound) (hc : Leads calls prog bound c (n - taken) m)
    (hm : n - taken ≤ m) :
    Leads calls prog bound (Emit.one i ++ c ++ Emit.label l) n m := by
  intro k hk hcontained
  simp only [List.append_assoc] at hk ⊢
  have behind : c ++ (Emit.label l ++ k) <:+ prog := (List.suffix_append _ _).trans hk
  have join : Emit.label l ++ k <:+ prog := (List.suffix_append _ _).trans behind
  exact test hprog hi hfalls hjump join hn (hc _ behind (label k join hcontained))
    (hcontained.mono hm)

/-- A test that chooses between two pieces of code. -/
theorem choose {taken : Nat} {l' : Operand} (hi : i.exchange? calls = some (taken, 0))
    (hfalls : i.fallsThrough) (hjump : i.jump? = some l) (hn : n ≤ bound)
    (hc : Leads calls prog bound c (n - taken) m) (hd : Leads calls prog bound d (n - taken) m) :
    Leads calls prog bound
      (Emit.one i ++ c ++ Emit.jump l' ++ Emit.label l ++ d ++ Emit.label l') n m := by
  intro k hk hcontained
  simp only [List.append_assoc] at hk ⊢
  have first : c ++ (Emit.jump l' ++ (Emit.label l ++ (d ++ (Emit.label l' ++ k)))) <:+ prog :=
    (List.suffix_append _ _).trans hk
  have exit : Emit.jump l' ++ (Emit.label l ++ (d ++ (Emit.label l' ++ k))) <:+ prog :=
    (List.suffix_append _ _).trans first
  have second : Emit.label l ++ (d ++ (Emit.label l' ++ k)) <:+ prog :=
    (List.suffix_append _ _).trans exit
  have inside : d ++ (Emit.label l' ++ k) <:+ prog := (List.suffix_append _ _).trans second
  have join : Emit.label l' ++ k <:+ prog := (List.suffix_append _ _).trans inside
  exact test hprog hi hfalls hjump second hn
    (hc _ first (jump hprog join hcontained _ exit (label _ second (hd _ inside
      (label k join hcontained)))))
    (hd _ inside (label k join hcontained))

end Jumps

end Leads

end MiniGoc
