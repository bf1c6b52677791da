import MiniGoc.Proofs.Printing
import MiniGoc.Typing

/-!
# The verdict of the checker

What the checker accepts is said here by the positions of the declarations, without an
environment.  `Typing.HasType` is the type of an initialiser at a position, `Typing.Fine` says that
a declaration has no error, and `Typing.Violates` gives the error that it has.

The checker goes through the declarations with a list of bindings.  The invariant
(`Typing.Sees`) is that the bindings give each name the type it has at the position.
`Typing.Sees.check_of_fine` is the step over a declaration without an error, and
`Typing.checkAll_of_fine` the run over all declarations before a position.  At the first
declaration with an error (`Typing.fine_or_first`) the checker stops with it.

The checker also fills in types.  `Typing.Filled` says what it leaves of a declaration without an
error.
-/

namespace MiniGoc

namespace Typing

/-! ## The rules by position -/

/-- The names that every program starts with, and their types. -/
def base : List (String × Node) :=
  [("getInt", .checkedFuncType [] .intType), ("putIntLn", .checkedFuncType [.intType] .voidType)]

/-- The name that a declaration declares.  Constants, methods and types declare none. -/
def declared? : Node → Option String
  | .var x _ _ => some x
  | .func x _ _ _ => some x
  | _ => none

/-- Whether the checker has a rule for an initialiser. -/
def isHandled : Node → Bool
  | .intLit _ | .floatLit _ | .id _ => true
  | _ => false

variable (ds : List Node)

/-- The name is declared before the position. -/
def Declared (k : Nat) (x : String) : Prop :=
  (∃ t, (x, t) ∈ base) ∨ ∃ j < k, ∃ d, ds[j]? = some d ∧ declared? d = some x

/-- The type of an expression at a position.  A name that is declared without a type has the type
of its initialiser. -/
inductive HasType : Nat → Node → Node → Prop where
  | int {k : Nat} {v : Node} : HasType k (.intLit v) .intType
  | float {k : Nat} {v : Node} : HasType k (.floatLit v) .floatType
  | base {k : Nat} {x : String} {t : Node} : (x, t) ∈ base → HasType k (.id x) t
  | func {j k : Nat} {x : String} {ps : List Node} {r b : Node} : j < k →
      ds[j]? = some (.func x ps r b) → HasType k (.id x) (.checkedFuncType [] r)
  | typed {j k : Nat} {x : String} {t i : Node} : j < k → ds[j]? = some (.var x t i) →
      t.isNone = false → HasType k (.id x) t
  | inferred {j k : Nat} {x : String} {i t : Node} : j < k → ds[j]? = some (.var x .none i) →
      HasType j i t → HasType k (.id x) t

/-- The declaration at the position has no error: it is a variable or a function with a new name,
and the initialiser of a variable has a type that is of the kind of the declared type. -/
def Fine (k : Nat) : Prop :=
  match ds[k]? with
  | some (.var x t i) => ¬ Declared ds k x ∧
      (i.isNone = true ∨ ∃ u, HasType ds k i u ∧ (t.isNone = true ∨ t.sameKind u = true))
  | some (.func x _ _ _) => ¬ Declared ds k x
  | _ => False

/-- The error of the declaration at the position. -/
inductive Violates (k : Nat) : TypingError → Prop where
  | redeclaredVar {x : String} {t i : Node} : ds[k]? = some (.var x t i) → Declared ds k x →
      Violates k (.redeclared .var x)
  | redeclaredFunc {x : String} {ps : List Node} {r b : Node} :
      ds[k]? = some (.func x ps r b) → Declared ds k x → Violates k (.redeclared .func x)
  | undeclared {x y : String} {t : Node} : ds[k]? = some (.var x t (.id y)) →
      ¬ Declared ds k x → ¬ Declared ds k y → Violates k (.undeclared .ident y)
  | mismatch {x : String} {t i u : Node} : ds[k]? = some (.var x t i) → ¬ Declared ds k x →
      HasType ds k i u → t.isNone = false → t.sameKind u = false →
      Violates k (.mismatch (.var x t i))
  | unhandledInit {x : String} {t i : Node} : ds[k]? = some (.var x t i) → ¬ Declared ds k x →
      i.isNone = false → isHandled i = false → Violates k (.fault .wrongCount)
  | unhandled {d : Node} : ds[k]? = some d → declared? d = none → Violates k (.fault .wrongCount)

/-- A declaration and what the check leaves of it.  A variable that has an initialiser and no type
gets the type of its initialiser, and all else stays as it is. -/
inductive Filled (k : Nat) : Node → Node → Prop where
  | inferred {x : String} {i u : Node} : i.isNone = false → HasType ds k i u →
      Filled k (.var x .none i) (.var x u i)
  | kept {d : Node} : (∀ x i, d = .var x .none i → i.isNone = true) → Filled k d d

/-! ## Bindings -/

/-- The environment with the bindings. -/
def symbols (bs : List (String × Node)) : List Node := bs.map fun b => .symbol b.1 b.2

theorem builtins_eq : builtins = symbols base := rfl

theorem lookup_cons_eq (b : String × Node) (bs : List (String × Node)) (x : String) :
    (b :: bs).lookup x = if x = b.1 then some b.2 else bs.lookup x := by
  obtain ⟨y, t⟩ := b
  by_cases h : x = y
  · simp [h]
  · simp [List.lookup_cons, h, beq_false_of_ne h]

theorem find?_symbols (bs : List (String × Node)) (x : String) :
    find? (symbols bs) x = .ok ((bs.lookup x).map (.symbol x)) := by
  induction bs with
  | nil => rfl
  | cons b bs ih =>
    have hcons : find? (symbols (b :: bs)) x =
        if b.1 == x then .ok (some (.symbol b.1 b.2)) else find? (symbols bs) x := rfl
    rw [hcons, ih, lookup_cons_eq]
    by_cases h : x = b.1
    · simp [h]
    · simp [h, Ne.symm h]

/-- The bindings give each name the type it has at the position. -/
structure Sees (k : Nat) (bs : List (String × Node)) : Prop where
  typed : ∀ x t, bs.lookup x = some t ↔ HasType ds k (.id x) t
  declared : ∀ x, (∃ t, bs.lookup x = some t) ↔ Declared ds k x

variable {ds} {k : Nat} {bs : List (String × Node)} {d e i t u : Node} {x : String}
  {decimals : Bool} {err : TypingError}

theorem lookup_base : base.lookup x = some t ↔ (x, t) ∈ base := by
  by_cases h : x = "getInt"
  · simp [base, h, eq_comm]
  · by_cases h' : x = "putIntLn" <;> simp [base, lookup_cons_eq, h, h', eq_comm]

theorem sees_zero : Sees ds 0 base where
  typed x t := by
    rw [lookup_base]
    refine ⟨.base, fun h => ?_⟩
    cases h with
    | base h => exact h
    | func h | typed h | inferred h => exact absurd h (Nat.not_lt_zero _)
  declared x := by simp [lookup_base, Declared]

theorem Sees.lookup_eq_none (h : Sees ds k bs) (hx : ¬ Declared ds k x) : bs.lookup x = none := by
  cases hl : bs.lookup x with
  | none => rfl
  | some t => exact absurd ((h.declared x).1 ⟨t, hl⟩) hx

theorem Sees.unique (h : Sees ds k bs) (ht : HasType ds k e t) (hu : HasType ds k e u) : t = u := by
  have hname {x : String} (ht : HasType ds k (.id x) t) (hu : HasType ds k (.id x) u) : t = u :=
    Option.some.inj (((h.typed x t).2 ht).symm.trans ((h.typed x u).2 hu))
  cases ht with
  | int | float => cases hu; rfl
  | base h' => exact hname (.base h') hu
  | func hj hd => exact hname (.func hj hd) hu
  | typed hj hd hn => exact hname (.typed hj hd hn) hu
  | inferred hj hd hi => exact hname (.inferred hj hd hi) hu

theorem declared_succ (hd : ds[k]? = some d) {y : String} :
    Declared ds (k + 1) y ↔ Declared ds k y ∨ declared? d = some y := by
  constructor
  · rintro (h | ⟨j, hj, d', hd', hy⟩)
    · exact .inl (.inl h)
    · obtain hj | rfl := Nat.lt_succ_iff_lt_or_eq.1 hj
      · exact .inl (.inr ⟨j, hj, d', hd', hy⟩)
      · exact .inr (Option.some.inj (hd.symm.trans hd') ▸ hy)
  · rintro ((h | ⟨j, hj, d', hd', hy⟩) | hy)
    · exact .inl h
    · exact .inr ⟨j, by omega, d', hd', hy⟩
    · exact .inr ⟨k, by omega, d, hd, hy⟩

theorem HasType.mono (h : HasType ds k e t) : HasType ds (k + 1) e t := by
  cases h with
  | int => exact .int
  | float => exact .float
  | base h => exact .base h
  | func hj hd => exact .func (by omega) hd
  | typed hj hd hn => exact .typed (by omega) hd hn
  | inferred hj hd hi => exact .inferred (by omega) hd hi

theorem HasType.of_succ (h : HasType ds (k + 1) (.id x) t) (hd : ds[k]? = some d) :
    HasType ds k (.id x) t ∨ declared? d = some x := by
  have hlast {j : Nat} {d' : Node} (hj : j < k + 1) (hd' : ds[j]? = some d')
      (hx : declared? d' = some x) : j < k ∨ declared? d = some x := by
    obtain hj | rfl := Nat.lt_succ_iff_lt_or_eq.1 hj
    · exact .inl hj
    · exact .inr (Option.some.inj (hd.symm.trans hd') ▸ hx)
  cases h with
  | base h => exact .inl (.base h)
  | func hj hd' => exact (hlast hj hd' rfl).imp_left fun hj => .func hj hd'
  | typed hj hd' hn => exact (hlast hj hd' rfl).imp_left fun hj => .typed hj hd' hn
  | inferred hj hd' hi => exact (hlast hj hd' rfl).imp_left fun hj => .inferred hj hd' hi

/-- The type that a declaration gives to a new name. -/
theorem HasType.of_new (h : HasType ds (k + 1) (.id x) t) (hx : ¬ Declared ds k x) :
    (∃ ps r b, ds[k]? = some (.func x ps r b) ∧ t = .checkedFuncType [] r) ∨
    (∃ i, ds[k]? = some (.var x t i) ∧ t.isNone = false) ∨
    ∃ i, ds[k]? = some (.var x .none i) ∧ HasType ds k i t := by
  have hlast {j : Nat} {d : Node} (hj : j < k + 1) (hd : ds[j]? = some d)
      (hd' : declared? d = some x) : j = k := by
    by_contra hne
    exact hx (.inr ⟨j, by omega, d, hd, hd'⟩)
  cases h with
  | base h => exact absurd (.inl ⟨t, h⟩) hx
  | func hj hd =>
    obtain rfl := hlast hj hd rfl
    exact .inl ⟨_, _, _, hd, rfl⟩
  | typed hj hd hn =>
    obtain rfl := hlast hj hd rfl
    exact .inr (.inl ⟨_, hd, hn⟩)
  | inferred hj hd hi =>
    obtain rfl := hlast hj hd rfl
    exact .inr (.inr ⟨_, hd, hi⟩)

theorem Sees.unique_new (h : Sees ds k bs) (hnew : ¬ Declared ds k x)
    (ht : HasType ds (k + 1) (.id x) t) (hu : HasType ds (k + 1) (.id x) u) : t = u := by
  obtain ⟨ps, r, b, hd₁, rfl⟩ | ⟨i, hd₁, hn₁⟩ | ⟨i, hd₁, hi₁⟩ := ht.of_new hnew <;>
    obtain ⟨ps', r', b', hd₂, rfl⟩ | ⟨i', hd₂, hn₂⟩ | ⟨i', hd₂, hi₂⟩ := hu.of_new hnew <;>
    cases Option.some.inj (hd₁.symm.trans hd₂)
  · rfl
  · rfl
  -- A variable has no type and a type.
  · cases hn₁
  · cases hn₂
  · exact h.unique hi₁ hi₂

/-- A declaration adds one binding. -/
theorem Sees.cons (h : Sees ds k bs) (hd : ds[k]? = some d) (hx : declared? d = some x)
    (hnew : ¬ Declared ds k x) (ht : HasType ds (k + 1) (.id x) t) :
    Sees ds (k + 1) ((x, t) :: bs) where
  typed y u := by
    rw [lookup_cons_eq]
    split
    next hy =>
      obtain rfl : y = x := hy
      exact ⟨fun hu => Option.some.inj hu ▸ ht, fun hu => congrArg some (h.unique_new hnew ht hu)⟩
    next hy =>
      rw [h.typed]
      refine ⟨.mono, fun hu => (hu.of_succ hd).resolve_right fun hy' => ?_⟩
      exact hy (Option.some.inj (hy'.symm.trans hx))
  declared y := by
    rw [declared_succ hd, ← h.declared, hx, lookup_cons_eq]
    split
    next hy => simp [hy]
    next hy => simp [Ne.symm hy]

/-! ## Checking a declaration -/

theorem Sees.check_eq (h : Sees ds k bs) (ht : HasType ds k e t) :
    (check (symbols bs) e).node = e ∧ (check (symbols bs) e).result = .ok t := by
  have hname {x : String} (ht : HasType ds k (.id x) t) :
      (check (symbols bs) (.id x)).node = .id x ∧ (check (symbols bs) (.id x)).result = .ok t := by
    simp [check, find?_symbols, (h.typed x t).2 ht, entryType]
  cases ht with
  | int => simp [check]
  | float => simp [check]
  | base h' => exact hname (.base h')
  | func hj hd => exact hname (.func hj hd)
  | typed hj hd hn => exact hname (.typed hj hd hn)
  | inferred hj hd hi => exact hname (.inferred hj hd hi)

theorem Sees.declare_new (h : Sees ds k bs) (hx : ¬ Declared ds k x) (kind : DeclKind) (t : Node) :
    declare (symbols bs) kind x t = .ok (.symbol x t) := by
  simp [declare, find?_symbols, h.lookup_eq_none hx]

theorem Sees.declare_old (h : Sees ds k bs) (hx : Declared ds k x) (kind : DeclKind) (t : Node) :
    declare (symbols bs) kind x t = .error (.redeclared kind x) := by
  obtain ⟨u, hu⟩ := (h.declared x).2 hx
  simp [declare, find?_symbols, hu]

theorem check_unhandled (env : List Node) (hi : i.Fits decimals .expr) (h : isHandled i = false) :
    (check env i).result = .error (.fault .wrongCount) := by
  cases hi with
  | id | int | float | intText => cases h
  | varType hr | varInit hr | varBoth hr | func hr => simp at hr
  | _ => rfl

theorem Sees.init_cases (h : Sees ds k bs) (i : Node) :
    (∃ u, HasType ds k i u) ∨ (∃ y, i = .id y ∧ ¬ Declared ds k y) ∨ isHandled i = false := by
  cases i with
  | intLit => exact .inl ⟨_, .int⟩
  | floatLit => exact .inl ⟨_, .float⟩
  | id y =>
    by_cases hy : Declared ds k y
    · obtain ⟨u, hu⟩ := (h.declared y).2 hy
      exact .inl ⟨u, (h.typed y u).1 hu⟩
    · exact .inr (.inl ⟨y, rfl, hy⟩)
  | _ => exact .inr (.inr rfl)

theorem isNone_iff : t.isNone = true ↔ t = .none := by
  cases t <;> simp [Node.isNone]

/-- A declaration is a variable, with a type or an initialiser, or a function, or has no rule. -/
theorem decl_cases (hf : d.Fits decimals .decl) :
    (∃ x t i, d = .var x t i ∧ (i = .none ∧ t.isNone = false ∨ i.Fits decimals .expr)) ∨
    (∃ x ps r b, d = .func x ps r b) ∨
    (declared? d = none ∧ ∀ env, (check env d).result = .error (.fault .wrongCount)) := by
  cases hf with
  | varType _ _ ht => exact .inl ⟨_, _, _, rfl, .inl ⟨rfl, ht.isNone (by simp)⟩⟩
  | varInit _ _ hi => exact .inl ⟨_, _, _, rfl, .inr hi⟩
  | varBoth _ _ _ hi => exact .inl ⟨_, _, _, rfl, .inr hi⟩
  | func => exact .inr (.inl ⟨_, _, _, _, rfl⟩)
  | id hr | intText hr => simp at hr
  | _ => exact .inr (.inr ⟨rfl, fun _ => rfl⟩)

theorem init_fits (hf : (Node.var x t i).Fits decimals .decl) (hi : i.isNone = false) :
    i.Fits decimals .expr := by
  cases hf with
  | varType => cases hi
  | varInit _ _ hi | varBoth _ _ _ hi => exact hi

theorem Sees.check_var (h : Sees ds k bs) (hx : ¬ Declared ds k x) (hu : HasType ds k i u) :
    (check (symbols bs) (.var x t i)).result =
      if t.isNone then .ok (.symbol x u)
      else if t.sameKind u then .ok (.symbol x t) else .error (.mismatch (.var x t i)) := by
  have hi : i.truthy = true := by cases hu <;> rfl
  obtain ⟨hnode, hresult⟩ := h.check_eq hu
  cases ht : t.isNone <;>
    simp [check, h.declare_new hx, hi, hnode, hresult, ht, Node.sameKind, apply_ite]

/-- A declaration without an error adds its name with its type to the bindings. -/
theorem Sees.check_of_fine (h : Sees ds k bs) (hd : ds[k]? = some d) (hf : d.Fits decimals .decl)
    (hk : Fine ds k) : ∃ x t, (check (symbols bs) d).result = .ok (.symbol x t) ∧
      Sees ds (k + 1) ((x, t) :: bs) := by
  have hlast : k < k + 1 := Nat.lt_succ_self k
  obtain ⟨x, t, i, rfl, ⟨rfl, ht⟩ | hi⟩ | ⟨x, ps, r, b, rfl⟩ | ⟨hnone, -⟩ := decl_cases hf
  · simp only [Fine, hd] at hk
    exact ⟨x, t, by simp [check, h.declare_new hk.1, Node.truthy],
      h.cons hd rfl hk.1 (.typed hlast hd ht)⟩
  · simp only [Fine, hd] at hk
    obtain ⟨hnew, hno | ⟨u, hu, hkind⟩⟩ := hk
    · exact absurd (hi.isNone (by simp)) (by simp [hno])
    rw [h.check_var hnew hu]
    cases ht : t.isNone with
    | true =>
      obtain rfl := isNone_iff.1 ht
      exact ⟨x, u, rfl, h.cons hd rfl hnew (.inferred hlast hd hu)⟩
    | false =>
      rw [ht] at hkind
      exact ⟨x, t, by simp [hkind.resolve_left], h.cons hd rfl hnew (.typed hlast hd ht)⟩
  · simp only [Fine, hd] at hk
    exact ⟨x, _, by simp [check, h.declare_new hk], h.cons hd rfl hk (.func hlast hd)⟩
  · simp only [Fine, hd] at hk
    split at hk
    next hd' => exact absurd (Option.some.inj hd' ▸ hnone) (by simp [declared?])
    next hd' => exact absurd (Option.some.inj hd' ▸ hnone) (by simp [declared?])
    next => exact hk.elim

theorem node_check_of_not_var (env : List Node) (hvar : ∀ x t i, d ≠ .var x t i)
    (hprogram : ∀ ds, d ≠ .program ds) : (check env d).node = d := by
  cases d with
  | var x t i => exact absurd rfl (hvar x t i)
  | program ds => exact absurd rfl (hprogram ds)
  | id x =>
    rw [check]
    split <;> rfl
  | _ => rfl

theorem node_check_of_expr (env : List Node) (hi : i.Fits decimals .expr) :
    (check env i).node = i := by
  refine node_check_of_not_var env ?_ ?_
  · rintro x t j rfl
    cases hi with
    | varType hr | varInit hr | varBoth hr => simp at hr
  · rintro ds rfl
    cases hi

theorem node_check_of_other (env : List Node) (hf : d.Fits decimals .decl)
    (hvar : ∀ x t i, d ≠ .var x t i) : (check env d).node = d :=
  node_check_of_not_var env hvar (by rintro ds rfl; cases hf)

/-- A declaration without an error is filled in. -/
theorem Sees.filled (h : Sees ds k bs) (hd : ds[k]? = some d) (hf : d.Fits decimals .decl)
    (hk : Fine ds k) : Filled ds k d (check (symbols bs) d).node := by
  by_cases hvar : ∃ x t i, d = .var x t i
  case neg =>
    have hvar : ∀ x t i, d ≠ .var x t i := fun x t i hd => hvar ⟨x, t, i, hd⟩
    rw [node_check_of_other _ hf hvar]
    exact .kept fun x i hd => absurd hd (hvar x .none i)
  obtain ⟨x, t, i, rfl⟩ := hvar
  simp only [Fine, hd] at hk
  obtain ⟨hnew, hno | ⟨u, hu, hkind⟩⟩ := hk
  · obtain rfl := isNone_iff.1 hno
    have hnode : (check (symbols bs) (.var x t .none)).node = .var x t .none := by
      simp [check, h.declare_new hnew, Node.truthy]
    rw [hnode]
    refine .kept fun y j hy => ?_
    obtain ⟨-, -, rfl⟩ := Node.var.inj hy
    rfl
  · have hi : i.truthy = true := by cases hu <;> rfl
    obtain ⟨hnode, hresult⟩ := h.check_eq hu
    cases ht : t.isNone with
    | true =>
      obtain rfl := isNone_iff.1 ht
      have hfilled : (check (symbols bs) (.var x .none i)).node = .var x u i := by
        simp [check, h.declare_new hnew, hi, hnode, hresult, ht, Node.sameKind]
      rw [hfilled]
      exact .inferred (by cases hu <;> rfl) hu
    | false =>
      rw [ht] at hkind
      have hkept : (check (symbols bs) (.var x t i)).node = .var x t i := by
        simp [check, h.declare_new hnew, hi, hnode, hresult, ht, hkind.resolve_left]
      rw [hkept]
      refine .kept fun y j hy => ?_
      obtain ⟨-, rfl, -⟩ := Node.var.inj hy
      cases ht

/-- The checker reports the error that a declaration has. -/
theorem Sees.check_of_violates (h : Sees ds k bs) (hd : ds[k]? = some d)
    (hf : d.Fits decimals .decl) (he : Violates ds k err) :
    (check (symbols bs) d).result = .error err := by
  cases he with
  | redeclaredVar hd' hx =>
    obtain rfl := Option.some.inj (hd.symm.trans hd')
    simp [check, h.declare_old hx]
  | redeclaredFunc hd' hx =>
    obtain rfl := Option.some.inj (hd.symm.trans hd')
    simp [check, h.declare_old hx]
  | undeclared hd' hx hy =>
    obtain rfl := Option.some.inj (hd.symm.trans hd')
    simp [check, h.declare_new hx, Node.truthy, find?_symbols, h.lookup_eq_none hy]
  | mismatch hd' hx hu ht hkind =>
    obtain rfl := Option.some.inj (hd.symm.trans hd')
    simp [h.check_var hx hu, ht, hkind]
  | unhandledInit hd' hx hi hh =>
    obtain rfl := Option.some.inj (hd.symm.trans hd')
    have hi : _ := init_fits hf hi
    simp [check, h.declare_new hx, hi.truthy, check_unhandled _ hi hh]
  | unhandled hd' hn =>
    obtain rfl := Option.some.inj (hd.symm.trans hd')
    obtain ⟨x, t, i, rfl, -⟩ | ⟨x, ps, r, b, rfl⟩ | ⟨-, hcheck⟩ := decl_cases hf
    · cases hn
    · cases hn
    · exact hcheck _

/-- A declaration after declarations without errors has no error or one of the errors. -/
theorem Sees.fine_or_violates (h : Sees ds k bs) (hd : ds[k]? = some d)
    (hf : d.Fits decimals .decl) : Fine ds k ∨ ∃ err, Violates ds k err := by
  simp only [Fine, hd]
  obtain ⟨x, t, i, rfl, hi⟩ | ⟨x, ps, r, b, rfl⟩ | ⟨hnone, -⟩ := decl_cases hf
  · by_cases hx : Declared ds k x
    · exact .inr ⟨_, .redeclaredVar hd hx⟩
    obtain ⟨rfl, -⟩ | hi := hi
    · exact .inl ⟨hx, .inl rfl⟩
    have hi : i.isNone = false := hi.isNone (by simp)
    obtain ⟨u, hu⟩ | ⟨y, rfl, hy⟩ | hh := h.init_cases i
    · cases ht : t.isNone with
      | true => exact .inl ⟨hx, .inr ⟨u, hu, .inl ht⟩⟩
      | false =>
        cases hkind : t.sameKind u with
        | true => exact .inl ⟨hx, .inr ⟨u, hu, .inr hkind⟩⟩
        | false => exact .inr ⟨_, .mismatch hd hx hu ht hkind⟩
    · exact .inr ⟨_, .undeclared hd hx hy⟩
    · exact .inr ⟨_, .unhandledInit hd hx hi hh⟩
  · by_cases hx : Declared ds k x
    · exact .inr ⟨_, .redeclaredFunc hd hx⟩
    · exact .inl hx
  · exact .inr ⟨_, .unhandled hd hnone⟩

/-! ## Checking a program -/

theorem checkAll_cons_ok (env : List Node) {s : Node} (h : (check env d).result = .ok s) :
    checkAll env (d :: ds) =
      ((check env d).node :: (checkAll (s :: env) ds).1, (checkAll (s :: env) ds).2) := by
  simp [checkAll, h]

theorem checkAll_cons_error (env : List Node) (h : (check env d).result = .error err) :
    checkAll env (d :: ds) = ((check env d).node :: ds, .error err) := by
  simp [checkAll, h]

/-- The declarations before the position are filled in. -/
def FilledTo (ds : List Node) (k : Nat) (fs : List Node) : Prop :=
  fs.length = k ∧ ∀ j < k, ∃ d f, ds[j]? = some d ∧ fs[j]? = some f ∧ Filled ds j d f

theorem FilledTo.concat {fs : List Node} {f : Node} (h : FilledTo ds k fs) (hd : ds[k]? = some d)
    (hf : Filled ds k d f) : FilledTo ds (k + 1) (fs ++ [f]) := by
  obtain ⟨rfl, hfs⟩ := h
  refine ⟨by simp, fun j hj => ?_⟩
  obtain hj | rfl := Nat.lt_succ_iff_lt_or_eq.1 hj
  · obtain ⟨d', f', hd', hf', hfilled⟩ := hfs j hj
    exact ⟨d', f', hd', by rw [List.getElem?_append_left hj, hf'], hfilled⟩
  · exact ⟨d, f, hd, by simp, hf⟩

/-- After declarations without errors, which it fills in, the checker goes on at their end, with
bindings that give each name its type there. -/
theorem checkAll_of_fine (hf : ∀ d ∈ ds, d.Fits decimals .decl) (hk : k ≤ ds.length)
    (hfine : ∀ j < k, Fine ds j) :
    ∃ bs fs, Sees ds k bs ∧ FilledTo ds k fs ∧
      checkAll builtins ds = (fs ++ (checkAll (symbols bs) (ds.drop k)).1,
        (checkAll (symbols bs) (ds.drop k)).2) := by
  induction k with
  | zero => exact ⟨base, [], sees_zero, ⟨rfl, by simp⟩, by simp [builtins_eq]⟩
  | succ k ih =>
    obtain ⟨bs, fs, hsees, hfs, hrun⟩ := ih (by omega) fun j hj => hfine j (by omega)
    have hd : ds[k]? = some ds[k] := List.getElem?_eq_getElem hk
    have hfit := hf _ (List.getElem_mem hk)
    have hgood := hfine k (by omega)
    obtain ⟨x, t, hcheck, hsees'⟩ := hsees.check_of_fine hd hfit hgood
    refine ⟨(x, t) :: bs, _, hsees', hfs.concat hd (hsees.filled hd hfit hgood), ?_⟩
    rw [hrun, List.drop_eq_getElem_cons hk, checkAll_cons_ok _ hcheck]
    simp [symbols]

/-- The result at the first declaration that has an error. -/
theorem checkAll_of_violates (hf : ∀ d ∈ ds, d.Fits decimals .decl) (hk : k < ds.length)
    (hfine : ∀ j < k, Fine ds j) (he : Violates ds k err) :
    (checkAll builtins ds).2 = .error err := by
  obtain ⟨bs, fs, hsees, -, hrun⟩ := checkAll_of_fine hf (Nat.le_of_lt hk) hfine
  have hcheck := hsees.check_of_violates (List.getElem?_eq_getElem hk)
    (hf _ (List.getElem_mem hk)) he
  rw [hrun, List.drop_eq_getElem_cons hk, checkAll_cons_error _ hcheck]

/-- Either no declaration before the position has an error, or there is a first one that has. -/
theorem fine_or_first (hf : ∀ d ∈ ds, d.Fits decimals .decl) (hk : k ≤ ds.length) :
    (∀ j < k, Fine ds j) ∨
    ∃ j < k, (∀ j' < j, Fine ds j') ∧ ¬ Fine ds j ∧ ∃ err, Violates ds j err := by
  induction k with
  | zero => exact .inl fun j hj => absurd hj (Nat.not_lt_zero j)
  | succ k ih =>
    obtain hfine | ⟨j, hj, hfirst⟩ := ih (by omega)
    · obtain ⟨bs, fs, hsees, -⟩ := checkAll_of_fine hf (Nat.le_of_lt hk) hfine
      have hlast := hsees.fine_or_violates (List.getElem?_eq_getElem hk)
        (hf _ (List.getElem_mem hk))
      by_cases hgood : Fine ds k
      · refine .inl fun j hj => ?_
        obtain hj | rfl := Nat.lt_succ_iff_lt_or_eq.1 hj
        · exact hfine j hj
        · exact hgood
      · exact .inr ⟨k, by omega, hfine, hgood, hlast.resolve_left hgood⟩
    · exact .inr ⟨j, by omega, hfirst⟩

theorem checkAll_cases (hf : ∀ d ∈ ds, d.Fits decimals .decl) :
    ((checkAll builtins ds).2 = .ok () ∧ ∀ k < ds.length, Fine ds k) ∨
    ∃ err, (checkAll builtins ds).2 = .error err ∧
      ∃ k < ds.length, (∀ j < k, Fine ds j) ∧ ¬ Fine ds k ∧ Violates ds k err := by
  obtain hfine | ⟨k, hk, hfirst, hbad, err, he⟩ := fine_or_first hf (Nat.le_refl _)
  · obtain ⟨bs, fs, -, -, hrun⟩ := checkAll_of_fine hf (Nat.le_refl _) hfine
    rw [List.drop_length, checkAll] at hrun
    exact .inl ⟨by rw [hrun], hfine⟩
  · exact .inr ⟨err, checkAll_of_violates hf hk hfirst he, k, hk, hfirst, hbad, he⟩

theorem run_eq (ds : List Node) : run (.program ds) =
    ⟨.program (checkAll builtins ds).1, (checkAll builtins ds).2.map fun _ => .list builtins⟩ := by
  simp [run, check]

theorem run_program (ds : List Node) :
    (run (.program ds)).result = (checkAll builtins ds).2.map fun _ => .list builtins := by
  rw [run_eq]

end Typing

namespace SyntaxTree

open Typing

/-- The verdict of the checker on the program of a source.  It passes exactly when no declaration
has an error.  Otherwise its error is the one of the first declaration that has one. -/
theorem run_of_source {source : String} {t : SyntaxTree} {n : Node} (ht : parse source = .ok t)
    (hn : t.toNode = .ok n) : ∃ ds, n = .program ds ∧
      ((∃ s, (Typing.run n).result = .ok s) ↔ ∀ k < ds.length, Fine ds k) ∧
      ∀ err, (Typing.run n).result = .error err ↔
        ∃ k < ds.length, (∀ j < k, Fine ds j) ∧ ¬ Fine ds k ∧ Violates ds k err := by
  obtain ⟨ds, rfl, hf⟩ := (fits_of_source ht hn).exists_program
  refine ⟨ds, rfl, ?_⟩
  rw [run_program]
  obtain ⟨hrun, hfine⟩ | ⟨err, hrun, k, hk, hfirst, hbad, he⟩ := checkAll_cases hf
  · rw [hrun]
    refine ⟨⟨fun _ => hfine, fun _ => ⟨_, rfl⟩⟩, fun err => ⟨nofun, ?_⟩⟩
    rintro ⟨k, hk, -, hbad, -⟩
    exact absurd (hfine k hk) hbad
  · rw [hrun]
    refine ⟨⟨nofun, fun hfine => absurd (hfine k hk) hbad⟩, fun err' => ⟨?_, ?_⟩⟩
    · rintro ⟨⟩
      exact ⟨k, hk, hfirst, hbad, he⟩
    · rintro ⟨k', hk', hfirst', -, he'⟩
      rw [← hrun, checkAll_of_violates hf hk' hfirst' he']
      rfl

/-- The type of an initialiser is found through a variable without a declared type. -/
theorem run_of_source_mismatch : ∃ t n ds, parse "var a=1;var b int=a;var c float=b;" = .ok t ∧
    t.toNode = .ok n ∧ n = .program ds ∧ ∃ err k, k < ds.length ∧ (∀ j < k, Fine ds j) ∧
      ¬ Fine ds k ∧ Violates ds k err ∧
      err.message?.toOption = some (some "Type Mismatch: VarDecl(c,FloatType,Id(b))") := by
  have h : ((parse "var a=1;var b int=a;var c float=b;").toOption.bind fun t =>
      t.toNode.toOption.map fun n => match (Typing.run n).result with
        | .ok _ => none
        | .error err => err.message?.toOption) =
      some (some (some "Type Mismatch: VarDecl(c,FloatType,Id(b))")) := by
    decide +kernel
  obtain ⟨t, n, ht, hn, h⟩ := exists_built h
  obtain ⟨ds, hds, -, herr⟩ := run_of_source ht hn
  cases hrun : (Typing.run n).result with
  | ok s => simp [hrun] at h
  | error err =>
    obtain ⟨k, hk, hfirst, hbad, he⟩ := (herr err).1 hrun
    exact ⟨t, n, ds, ht, hn, hds, err, k, hk, hfirst, hbad, he, by simpa [hrun] using h⟩

end SyntaxTree

end MiniGoc
