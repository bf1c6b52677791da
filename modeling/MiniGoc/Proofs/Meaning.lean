import MiniGoc.Proofs.Printed
import MiniGoc.Number.Numeral

/-!
# The meaning of integer and boolean code

The meaning of the statements that only deal with integers of 32 bits and truth values:
declarations with a value, assignments to names, and conditions.  `eval` gives the value
of an expression with the names that were read for it, and `exec` what a statement does
to the store, with the list of what was read and written on the way.

Operators may be evaluated in two ways.  In the first both operands of `&&` and `||`
are, in the second (`short`) the right one only where the left one does not decide.
Where the first way has a result, the second has the same (`HasType.shortened`, and
`Checked.shortened` for statements).

`HasType` and `Checked` are the rules for such code: the types agree, every variable is
introduced once, and it is used after that and within its block.  Code that keeps to the
rules has a result, unless it divides by zero (`HasType.sound`, `Checked.sound`).
-/

namespace MiniGoc

/-! ## Values -/

/-- The two types. -/
inductive Ty where
  | int
  | bool
deriving DecidableEq, Repr

/-- The values of the two types. -/
inductive Value where
  | int (w : Int32)
  | bool (b : Bool)
deriving DecidableEq, Repr

/-- A type as it is written. -/
def Ty.node : Ty → Node
  | int => .intType
  | bool => .boolType

def Value.ty : Value → Ty
  | int _ => .int
  | bool _ => .bool

/-- A value as one word: true is one, and false is zero. -/
def Value.word : Value → Int32
  | int w => w
  | bool b => if b then 1 else 0

theorem Ty.node_inj {τ σ : Ty} (h : τ.node = σ.node) : τ = σ := by
  cases τ <;> cases σ <;> first | rfl | cases h

theorem Value.ty_eq_int {v : Value} (h : v.ty = .int) : ∃ w, v = .int w := by
  cases v with
  | int w => exact ⟨w, rfl⟩
  | bool b => cases h

theorem Value.ty_eq_bool {v : Value} (h : v.ty = .bool) : ∃ b, v = .bool b := by
  cases v with
  | int w => cases h
  | bool b => exact ⟨b, rfl⟩

/-- Why code has no result. -/
inductive Trap where
  | zeroDivide
  /-- The code is not of the kind that has a meaning here. -/
  | senseless
deriving DecidableEq, Repr

/-- The values of the variables, the latest first. -/
abbrev Store := List (String × Value)

/-- The types of the variables, the latest first. -/
abbrev Vars := List (String × Ty)

/-! ## Expressions -/

/-- The number that stands in a literal. -/
def Node.numeral? : Node → Option Int
  | int i => some i
  | text s => Numeral.readInt? s
  | _ => Option.none

/-- An operator of arithmetic, which wraps around and rounds towards zero. -/
def calculate (op : String) (a b : Int32) : Except Trap Int32 :=
  if op = "+" then .ok (a + b)
  else if op = "-" then .ok (a - b)
  else if op = "*" then .ok (a * b)
  else if b = 0 then .error .zeroDivide
  else if op = "/" then .ok (a / b)
  else .ok (a % b)

/-- Whether a comparison holds. -/
def holds (op : String) (a b : Int32) : Bool :=
  if op = "==" then a == b
  else if op = "!=" then a != b
  else if op = "<" then decide (a < b)
  else if op = "<=" then decide (a ≤ b)
  else if op = ">" then decide (b < a)
  else decide (b ≤ a)

def combine (op : String) : Value → Value → Except Trap Value
  | .int a, .int b =>
    if op ∈ arithmeticOperators then .int <$> calculate op a b
    else if op ∈ relationalOperators then .ok (.bool (holds op a b))
    else .error .senseless
  | .bool a, .bool b =>
    if op = "&&" then .ok (.bool (a && b))
    else if op = "||" then .ok (.bool (a || b))
    else .error .senseless
  | _, _ => .error .senseless

/-- Whether the left operand decides alone. -/
def decides (op : String) (v : Value) : Bool :=
  (op == "&&" && v == .bool false) || (op == "||" && v == .bool true)

/-- The value of an expression, and the names that are read for it in turn. -/
def eval (short : Bool) (ρ : Store) : Node → Except Trap (Value × List String)
  | .intLit v =>
    match v.numeral? with
    | some i => .ok (.int (.ofInt i), [])
    | none => .error .senseless
  | .id x =>
    match ρ.lookup x with
    | some v => .ok (v, [x])
    | none => .error .senseless
  | .binary op l r => do
    let (a, xs) ← eval short ρ l
    if short && decides op a then return (a, xs)
    let (b, ys) ← eval short ρ r
    return (← combine op a b, xs ++ ys)
  | _ => .error .senseless

/-- The types of expressions. -/
inductive HasType (Γ : Vars) : Node → Ty → Prop where
  | literal {v i} : v.numeral? = some i → 0 ≤ i → i ≤ 2147483647 → HasType Γ (.intLit v) .int
  | name {x τ} : Γ.lookup x = some τ → HasType Γ (.id x) τ
  | arithmetic {op l r} : op ∈ arithmeticOperators → HasType Γ l .int → HasType Γ r .int →
      HasType Γ (.binary op l r) .int
  | comparison {op l r} : op ∈ relationalOperators → HasType Γ l .int → HasType Γ r .int →
      HasType Γ (.binary op l r) .bool
  | both {l r} : HasType Γ l .bool → HasType Γ r .bool → HasType Γ (.binary "&&" l r) .bool
  | either {l r} : HasType Γ l .bool → HasType Γ r .bool → HasType Γ (.binary "||" l r) .bool

/-! ## Statements -/

/-- Something that happens to a variable. -/
inductive Event where
  | read (x : String)
  | write (x : String) (v : Value)
deriving DecidableEq, Repr

/-- The variables that are written, with their values, in turn. -/
def Event.writes (es : List Event) : List (String × Value) :=
  es.filterMap fun
    | write x v => some (x, v)
    | read _ => none

@[simp] theorem Event.writes_append (es es' : List Event) :
    writes (es ++ es') = writes es ++ writes es' := List.filterMap_append

@[simp] theorem Event.writes_reads (xs : List String) : writes (xs.map read) = [] := by
  induction xs with
  | nil => rfl
  | cons x xs ih => exact ih

/-- Gives a variable the value of an expression. -/
def store (short : Bool) (ρ : Store) (x : String) (e : Node) :
    Except Trap (Store × List Event) := do
  let (v, xs) ← eval short ρ e
  return ((x, v) :: ρ, xs.map .read ++ [.write x v])

mutual

/-- What a statement does to the store.  A branch that is left out does nothing. -/
def exec (short : Bool) (ρ : Store) : Node → Except Trap (Store × List Event)
  | .var x _ e => store short ρ x e
  | .assign (.id x) e => store short ρ x e
  | .block ms => execAll short ρ ms
  | .ifElse c y n => do
    let (v, xs) ← eval short ρ c
    let (ρ', es) ← (match v with
      | .bool true => exec short ρ y
      | .bool false => exec short ρ n
      | .int _ => .error .senseless)
    return (ρ', xs.map .read ++ es)
  | .none => .ok (ρ, [])
  | _ => .error .senseless

/-- What statements in a row do to the store. -/
def execAll (short : Bool) (ρ : Store) : List Node → Except Trap (Store × List Event)
  | [] => .ok (ρ, [])
  | m :: ms => do
    let (ρ', es) ← exec short ρ m
    let (ρ'', es') ← execAll short ρ' ms
    return (ρ'', es ++ es')

end

def Stage.exec (short : Bool) (ρ : Store) : Stage → Except Trap (Store × List Event)
  | stmt m => MiniGoc.exec short ρ m
  | members ms => execAll short ρ ms

/-- The rules for statements.  `used` are the names that cannot be introduced any more, and
`tops` those at the top level, to which an assignment does not introduce anything. -/
inductive Checked (tops : List String) : Vars → List String → Stage → Vars → List String → Prop
    where
  | var {Γ used x e τ} : x ∉ used → HasType Γ e τ →
      Checked tops Γ used (.stmt (.var x τ.node e)) ((x, τ) :: Γ) (x :: used)
  | introduce {Γ used x e τ} : x ∉ used → x ∉ tops → HasType Γ e τ →
      Checked tops Γ used (.stmt (.assign (.id x) e)) ((x, τ) :: Γ) (x :: used)
  | assign {Γ used x e τ} : Γ.lookup x = some τ → HasType Γ e τ →
      Checked tops Γ used (.stmt (.assign (.id x) e)) Γ used
  | block {Γ used ms Γ' used'} : Checked tops Γ used (.members ms) Γ' used' →
      Checked tops Γ used (.stmt (.block ms)) Γ used'
  | ifElse {Γ used c y n used₁ used₂} : HasType Γ c .bool → Checked tops Γ used (.stmt y) Γ used₁ →
      Checked tops Γ used₁ (.stmt n) Γ used₂ →
      Checked tops Γ used (.stmt (.ifElse c y n)) Γ used₂
  | none {Γ used} : Checked tops Γ used (.stmt .none) Γ used
  | noMembers {Γ used} : Checked tops Γ used (.members []) Γ used
  | member {Γ used m ms Γ₁ used₁ Γ₂ used₂} : Checked tops Γ used (.stmt m) Γ₁ used₁ →
      Checked tops Γ₁ used₁ (.members ms) Γ₂ used₂ →
      Checked tops Γ used (.members (m :: ms)) Γ₂ used₂

/-! ## Typed expressions have a value -/

/-- A store has a value of the right type for each variable. -/
def Fits (Γ : Vars) (ρ : Store) : Prop :=
  ∀ x τ, Γ.lookup x = some τ → ∃ v, ρ.lookup x = some v ∧ v.ty = τ

theorem Fits.set {Γ : Vars} {ρ : Store} {x : String} {v : Value} (h : Fits Γ ρ) :
    Fits ((x, v.ty) :: Γ) ((x, v) :: ρ) := by
  intro y τ hy
  by_cases hxy : y = x
  · subst hxy
    simp only [List.lookup_cons_self, Option.some.injEq] at hy
    exact ⟨v, List.lookup_cons_self, hy⟩
  · have hne : (y == x) = false := by simpa using hxy
    simp only [List.lookup_cons, hne] at hy ⊢
    exact h y τ hy

theorem combine_arithmetic {op : String} (hop : op ∈ arithmeticOperators) (a b : Int32) :
    combine op (.int a) (.int b) = .int <$> calculate op a b := by
  simp [combine, hop]

theorem combine_comparison {op : String} (hop : op ∈ relationalOperators) (a b : Int32) :
    combine op (.int a) (.int b) = .ok (.bool (holds op a b)) := by
  have hnot : op ∉ arithmeticOperators := by
    intro h
    revert op
    decide
  simp [combine, hop, hnot]

theorem calculate_sound (op : String) (a b : Int32) :
    (∃ w, calculate op a b = .ok w) ∨ calculate op a b = .error .zeroDivide := by
  unfold calculate
  repeat' split
  all_goals simp

theorem combine_of_decides {op : String} {a b v : Value} (ha : decides op a)
    (h : combine op a b = .ok v) : v = a := by
  simp only [decides, Bool.or_eq_true, Bool.and_eq_true, beq_iff_eq] at ha
  rcases ha with ⟨rfl, rfl⟩ | ⟨rfl, rfl⟩ <;> cases b with
  | int => cases h
  | bool => cases h; simp

section Expressions

variable {Γ : Vars} {ρ : Store} {e l r : Node} {τ : Ty} {op : String} {a b v : Value}
  {xs ys : List String}

attribute [local simp] eval

theorem eval_binary (hl : eval false ρ l = .ok (a, xs)) (hr : eval false ρ r = .ok (b, ys)) :
    eval false ρ (.binary op l r) = (fun v => (v, xs ++ ys)) <$> combine op a b := by
  simp only [eval, hl, hr, bind, Except.bind, Bool.false_and, Bool.false_eq_true, if_false]
  cases combine op a b <;> rfl

theorem eval_binary_inv (h : eval false ρ (.binary op l r) = .ok (v, xs)) :
    ∃ a ys b zs, eval false ρ l = .ok (a, ys) ∧ eval false ρ r = .ok (b, zs) ∧
      combine op a b = .ok v ∧ xs = ys ++ zs := by
  simp only [eval, Bool.false_and, Bool.false_eq_true, if_false, bind_eq_ok, pure,
    Except.pure] at h
  obtain ⟨⟨a, ys⟩, hl, ⟨b, zs⟩, hr, w, hv, h⟩ := h
  cases h
  exact ⟨a, ys, b, zs, hl, hr, hv, rfl⟩

/-- An operator is sound if it is on values of the types of its operands. -/
theorem sound_binary {σ : Ty}
    (hl : (∃ a xs, eval false ρ l = .ok (a, xs) ∧ a.ty = σ) ∨ eval false ρ l = .error .zeroDivide)
    (hr : (∃ b xs, eval false ρ r = .ok (b, xs) ∧ b.ty = σ) ∨ eval false ρ r = .error .zeroDivide)
    (hop : ∀ a b : Value, a.ty = σ → b.ty = σ →
      (∃ v, combine op a b = .ok v ∧ v.ty = τ) ∨ combine op a b = .error .zeroDivide) :
    (∃ v xs, eval false ρ (.binary op l r) = .ok (v, xs) ∧ v.ty = τ) ∨
      eval false ρ (.binary op l r) = .error .zeroDivide := by
  rcases hl with ⟨a, xs, hl, ha⟩ | hl
  · rcases hr with ⟨b, ys, hr, hb⟩ | hr
    · rw [eval_binary hl hr]
      rcases hop a b ha hb with ⟨v, hv, ht⟩ | hv
      · rw [hv]
        exact .inl ⟨v, xs ++ ys, rfl, ht⟩
      · rw [hv]
        exact .inr rfl
    · exact .inr (by simp [hl, hr, bind, Except.bind])
  · exact .inr (by simp [hl, bind, Except.bind])

/-- A typed expression has a value of its type, unless something is divided by zero. -/
theorem HasType.sound (he : HasType Γ e τ) (hρ : Fits Γ ρ) :
    (∃ v xs, eval false ρ e = .ok (v, xs) ∧ v.ty = τ) ∨ eval false ρ e = .error .zeroDivide := by
  induction he with
  | @literal v i hv _ _ => exact .inl ⟨.int (.ofInt i), [], by simp [hv], rfl⟩
  | @name x τ hx =>
    obtain ⟨v, hv, ht⟩ := hρ x τ hx
    exact .inl ⟨v, [x], by simp [hv], ht⟩
  | arithmetic hop _ _ ihl ihr =>
    refine sound_binary ihl ihr fun a b ha hb => ?_
    obtain ⟨a, rfl⟩ := Value.ty_eq_int ha
    obtain ⟨b, rfl⟩ := Value.ty_eq_int hb
    rw [combine_arithmetic hop]
    rcases calculate_sound _ a b with ⟨w, hw⟩ | hw
    · exact .inl ⟨.int w, by rw [hw]; rfl, rfl⟩
    · exact .inr (by rw [hw]; rfl)
  | comparison hop _ _ ihl ihr =>
    refine sound_binary ihl ihr fun a b ha hb => ?_
    obtain ⟨a, rfl⟩ := Value.ty_eq_int ha
    obtain ⟨b, rfl⟩ := Value.ty_eq_int hb
    exact .inl ⟨_, combine_comparison hop a b, rfl⟩
  | both _ _ ihl ihr | either _ _ ihl ihr =>
    refine sound_binary ihl ihr fun a b ha hb => ?_
    obtain ⟨a, rfl⟩ := Value.ty_eq_bool ha
    obtain ⟨b, rfl⟩ := Value.ty_eq_bool hb
    exact .inl ⟨_, rfl, rfl⟩

theorem HasType.ty_eq (he : HasType Γ e τ) (hρ : Fits Γ ρ) (h : eval false ρ e = .ok (v, xs)) :
    v.ty = τ := by
  rcases he.sound hρ with ⟨w, ys, hw, ht⟩ | hw
  · rw [h] at hw
    cases hw
    exact ht
  · rw [h] at hw
    cases hw

/-- What is read are variables. -/
theorem HasType.reads (he : HasType Γ e τ) (h : eval false ρ e = .ok (v, xs)) :
    ∀ x ∈ xs, ∃ σ, Γ.lookup x = some σ := by
  induction he generalizing v xs with
  | @literal v i hv _ _ =>
    simp only [eval, hv] at h
    cases h
    simp
  | @name x τ hx =>
    simp only [eval] at h
    split at h
    · cases h
      simpa using ⟨τ, hx⟩
    · cases h
  | arithmetic _ _ _ ihl ihr | comparison _ _ _ ihl ihr | both _ _ ihl ihr | either _ _ ihl ihr =>
    obtain ⟨a, ys, b, zs, hl, hr, -, rfl⟩ := eval_binary_inv h
    intro x hx
    rcases List.mem_append.1 hx with hx | hx
    · exact ihl hl x hx
    · exact ihr hr x hx

theorem eval_binary_short (hl : eval true ρ l = .ok (a, xs)) (hr : eval true ρ r = .ok (b, ys))
    (hv : combine op a b = .ok v) : ∃ zs, eval true ρ (.binary op l r) = .ok (v, zs) := by
  by_cases ha : decides op a
  · obtain rfl := combine_of_decides ha hv
    exact ⟨xs, by simp [hl, ha, bind, Except.bind, pure, Except.pure]⟩
  · exact ⟨xs ++ ys, by simp [hl, hr, hv, ha, bind, Except.bind, pure, Except.pure]⟩

theorem HasType.shortened (he : HasType Γ e τ) (h : eval false ρ e = .ok (v, xs)) :
    ∃ ys, eval true ρ e = .ok (v, ys) := by
  induction he generalizing v xs with
  | literal => exact ⟨xs, by simpa using h⟩
  | name => exact ⟨xs, by simpa using h⟩
  | arithmetic _ _ _ ihl ihr | comparison _ _ _ ihl ihr | both _ _ ihl ihr | either _ _ ihl ihr =>
    obtain ⟨a, ys, b, zs, hl, hr, hv, rfl⟩ := eval_binary_inv h
    obtain ⟨_, hl⟩ := ihl hl
    obtain ⟨_, hr⟩ := ihr hr
    exact eval_binary_short hl hr hv

end Expressions

/-! ## Checked statements have a result -/

/-- The variables are among the names that are used. -/
def Within (Γ : Vars) (used : List String) : Prop := ∀ x τ, Γ.lookup x = some τ → x ∈ used

/-- Every variable of the first list is one of the second, with the same type. -/
def Extends (Γ Γ' : Vars) : Prop := ∀ x τ, Γ.lookup x = some τ → Γ'.lookup x = some τ

theorem Within.set {Γ : Vars} {used : List String} {x : String} {τ : Ty} (h : Within Γ used) :
    Within ((x, τ) :: Γ) (x :: used) := by
  intro y σ hy
  by_cases hxy : y = x
  · simp [hxy]
  · have hne : (y == x) = false := by simpa using hxy
    simp only [List.lookup_cons, hne] at hy
    exact List.mem_cons_of_mem _ (h y σ hy)

theorem Extends.set {Γ : Vars} {used : List String} {x : String} {τ : Ty} (h : Within Γ used)
    (hx : x ∉ used) : Extends Γ ((x, τ) :: Γ) := by
  intro y σ hy
  have hne : (y == x) = false := by
    simp only [beq_eq_false_iff_ne]
    rintro rfl
    exact hx (h y σ hy)
  simpa only [List.lookup_cons, hne] using hy

theorem Extends.assign {Γ : Vars} {x : String} {τ : Ty} (h : Γ.lookup x = some τ) :
    Extends Γ ((x, τ) :: Γ) ∧ Extends ((x, τ) :: Γ) Γ := by
  have same (y : String) : ((x, τ) :: Γ).lookup y = Γ.lookup y := by
    by_cases hxy : y = x
    · rw [hxy, List.lookup_cons_self, h]
    · have hne : (y == x) = false := by simpa using hxy
      simp only [List.lookup_cons, hne]
  exact ⟨fun y σ hy => by rwa [same], fun y σ hy => by rwa [← same]⟩

theorem Fits.mono {Γ Γ' : Vars} {ρ : Store} (h : Fits Γ' ρ) (hΓ : Extends Γ Γ') : Fits Γ ρ :=
  fun x τ hx => h x τ (hΓ x τ hx)

section Statements

variable {tops : List String} {Γ Γ' : Vars} {used used' : List String} {stage : Stage}
  {ρ ρ' : Store} {es : List Event} {short : Bool}

attribute [local simp] exec execAll

theorem Checked.used_subset (h : Checked tops Γ used stage Γ' used') : used ⊆ used' := by
  induction h with
  | var | introduce => exact List.subset_cons_self ..
  | assign | none | noMembers => exact List.Subset.refl _
  | block _ ih => exact ih
  | ifElse _ _ _ ih ih' | member _ _ ih ih' => exact List.Subset.trans ih ih'

theorem Checked.within (h : Checked tops Γ used stage Γ' used') (hΓ : Within Γ used) :
    Within Γ' used' := by
  induction h with
  | var | introduce => exact hΓ.set
  | assign | none | noMembers => exact hΓ
  | block h _ => exact fun x τ hx => h.used_subset (hΓ x τ hx)
  | ifElse _ _ _ ih ih' => exact ih' (ih hΓ)
  | member _ _ ih ih' => exact ih' (ih hΓ)

theorem Checked.extends (h : Checked tops Γ used stage Γ' used') (hΓ : Within Γ used) :
    Extends Γ Γ' := by
  induction h with
  | var hx | introduce hx => exact .set hΓ hx
  | assign | none | noMembers | block | ifElse => exact fun _ _ hx => hx
  | member h _ ih ih' => exact fun x τ hx => ih' (h.within hΓ) x τ (ih hΓ x τ hx)

theorem store_eq_ok {x : String} {e : Node} :
    store short ρ x e = .ok (ρ', es) ↔ ∃ v xs, eval short ρ e = .ok (v, xs) ∧
      ρ' = (x, v) :: ρ ∧ es = xs.map .read ++ [Event.write x v] := by
  simp only [store, bind_eq_ok, pure, Except.pure]
  constructor
  · rintro ⟨⟨v, xs⟩, hv, h⟩
    cases h
    exact ⟨v, xs, hv, rfl, rfl⟩
  · rintro ⟨v, xs, hv, rfl, rfl⟩
    exact ⟨_, hv, rfl⟩

theorem exec_ifElse_eq_ok {c y n : Node} :
    exec short ρ (.ifElse c y n) = .ok (ρ', es) ↔ ∃ b xs es', eval short ρ c = .ok (.bool b, xs) ∧
      exec short ρ (if b then y else n) = .ok (ρ', es') ∧ es = xs.map .read ++ es' := by
  simp only [exec, bind_eq_ok, pure, Except.pure]
  constructor
  · rintro ⟨⟨_ | _ | _, xs⟩, hc, ⟨ρ₁, es₁⟩, hb, h⟩
    · cases hb
    · cases h
      exact ⟨false, xs, es₁, hc, hb, rfl⟩
    · cases h
      exact ⟨true, xs, es₁, hc, hb, rfl⟩
  · rintro ⟨_ | _, xs, es₁, hc, hb, rfl⟩
    · exact ⟨_, hc, _, hb, rfl⟩
    · exact ⟨_, hc, _, hb, rfl⟩

theorem execAll_cons_eq_ok {m : Node} {ms : List Node} :
    execAll short ρ (m :: ms) = .ok (ρ', es) ↔ ∃ ρ₁ es₁ es₂, exec short ρ m = .ok (ρ₁, es₁) ∧
      execAll short ρ₁ ms = .ok (ρ', es₂) ∧ es = es₁ ++ es₂ := by
  simp only [execAll, bind_eq_ok, pure, Except.pure]
  constructor
  · rintro ⟨⟨ρ₁, es₁⟩, hm, ⟨ρ₂, es₂⟩, hms, h⟩
    cases h
    exact ⟨ρ₁, es₁, es₂, hm, hms, rfl⟩
  · rintro ⟨ρ₁, es₁, es₂, hm, hms, rfl⟩
    exact ⟨_, hm, _, hms, rfl⟩

theorem store_sound {x : String} {e : Node} {τ : Ty} (he : HasType Γ e τ) (hρ : Fits Γ ρ) :
    (∃ v es, store false ρ x e = .ok ((x, v) :: ρ, es) ∧ v.ty = τ) ∨
      store false ρ x e = .error .zeroDivide := by
  rcases he.sound hρ with ⟨v, xs, hv, ht⟩ | hv
  · exact .inl ⟨v, _, store_eq_ok.2 ⟨v, xs, hv, rfl, rfl⟩, ht⟩
  · exact .inr (by simp [store, hv, bind, Except.bind])

/-- Checked statements have a result, unless something is divided by zero. -/
theorem Checked.sound (h : Checked tops Γ used stage Γ' used') (hΓ : Within Γ used)
    (hρ : Fits Γ ρ) :
    (∃ ρ' es, stage.exec false ρ = .ok (ρ', es) ∧ Fits Γ' ρ') ∨
      stage.exec false ρ = .error .zeroDivide := by
  induction h generalizing ρ with
  | var _ he | introduce _ _ he =>
    rcases store_sound he hρ with ⟨v, es, hv, rfl⟩ | hv
    · exact .inl ⟨_, es, hv, hρ.set⟩
    · exact .inr hv
  | assign hx he =>
    rcases store_sound he hρ with ⟨v, es, hv, rfl⟩ | hv
    · exact .inl ⟨_, es, hv, hρ.set.mono (Extends.assign hx).1⟩
    · exact .inr hv
  | block h ih =>
    rcases ih hΓ hρ with ⟨ρ', es, hms, hfits⟩ | hms
    · exact .inl ⟨ρ', es, hms, hfits.mono (h.extends hΓ)⟩
    · exact .inr hms
  | @ifElse Γ used c y n _ _ hc hy hn ihy ihn =>
    rcases hc.sound hρ with ⟨v, xs, hv, ht⟩ | hv
    · obtain ⟨b, rfl⟩ := Value.ty_eq_bool ht
      have hb : (∃ ρ' es, exec false ρ (if b then y else n) = .ok (ρ', es) ∧ Fits Γ ρ') ∨
          exec false ρ (if b then y else n) = .error .zeroDivide := by
        cases b with
        | true => exact ihy hΓ hρ
        | false => exact ihn (hy.within hΓ) hρ
      rcases hb with ⟨ρ', es, hb, hfits⟩ | hb
      · exact .inl ⟨ρ', _, exec_ifElse_eq_ok.2 ⟨b, xs, es, hv, hb, rfl⟩, hfits⟩
      · refine .inr ?_
        cases b <;> simp_all [Stage.exec, bind, Except.bind]
    · exact .inr (by simp [Stage.exec, hv, bind, Except.bind])
  | none | noMembers => exact .inl ⟨ρ, [], rfl, hρ⟩
  | member hm _ ih ih' =>
    rcases ih hΓ hρ with ⟨ρ₁, es₁, h₁, hfits⟩ | h₁
    · rcases ih' (hm.within hΓ) hfits with ⟨ρ₂, es₂, h₂, hfits'⟩ | h₂
      · exact .inl ⟨ρ₂, _, execAll_cons_eq_ok.2 ⟨ρ₁, es₁, es₂, h₁, h₂, rfl⟩, hfits'⟩
      · simp only [Stage.exec] at h₁ h₂
        exact .inr (by simp [Stage.exec, h₁, h₂, bind, Except.bind])
    · simp only [Stage.exec] at h₁
      exact .inr (by simp [Stage.exec, h₁, bind, Except.bind])

theorem store_shortened {x : String} {e : Node} {τ : Ty} (he : HasType Γ e τ)
    (hes : store false ρ x e = .ok (ρ', es)) :
    ∃ es', store true ρ x e = .ok (ρ', es') ∧ Event.writes es' = Event.writes es := by
  obtain ⟨v, xs, hv, rfl, rfl⟩ := store_eq_ok.1 hes
  obtain ⟨ys, hv⟩ := he.shortened hv
  exact ⟨_, store_eq_ok.2 ⟨v, ys, hv, rfl, rfl⟩, by simp⟩

/-- Leaving operands out does not change what is written. -/
theorem Checked.shortened (h : Checked tops Γ used stage Γ' used')
    (hes : stage.exec false ρ = .ok (ρ', es)) :
    ∃ es', stage.exec true ρ = .ok (ρ', es') ∧ Event.writes es' = Event.writes es := by
  induction h generalizing ρ ρ' es with
  | var _ he | introduce _ _ he | assign _ he => exact store_shortened he hes
  | block _ ih => exact ih hes
  | ifElse hc _ _ ihy ihn =>
    obtain ⟨b, xs, es', hv, hb, rfl⟩ := exec_ifElse_eq_ok.1 hes
    obtain ⟨ys, hv⟩ := hc.shortened hv
    cases b with
    | true =>
      obtain ⟨fs, hfs, hwrites⟩ := ihy hb
      exact ⟨_, exec_ifElse_eq_ok.2 ⟨true, ys, fs, hv, hfs, rfl⟩, by simp [hwrites]⟩
    | false =>
      obtain ⟨fs, hfs, hwrites⟩ := ihn hb
      exact ⟨_, exec_ifElse_eq_ok.2 ⟨false, ys, fs, hv, hfs, rfl⟩, by simp [hwrites]⟩
  | none | noMembers =>
    cases hes
    exact ⟨_, rfl, rfl⟩
  | member _ _ ih ih' =>
    obtain ⟨ρ₁, es₁, es₂, h₁, h₂, rfl⟩ := execAll_cons_eq_ok.1 hes
    obtain ⟨fs₁, h₁, hw₁⟩ := ih h₁
    obtain ⟨fs₂, h₂, hw₂⟩ := ih' h₂
    exact ⟨_, execAll_cons_eq_ok.2 ⟨ρ₁, fs₁, fs₂, h₁, h₂, rfl⟩, by simp [hw₁, hw₂]⟩

end Statements

end MiniGoc
