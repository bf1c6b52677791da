import MiniGoc.Proofs.Verdict

/-!
# Types that the check fills in and compares

The checker changes the program that it judges: a variable without a type gets the type of its
initialiser.  It does so up to the first declaration with an error and leaves the rest alone
(`Typing.nodes_checkAll`).  A second check of what is left gives the same result and changes
nothing more.  `Typing.check_check` is the step, one declaration in any environment, and
`Typing.checkAll_checkAll` the run.

A declared type is compared with the type of the initialiser by its kind.  So the two types are the
same, or they are two array types or two names (`Typing.Compared`).  Sizes, elements and names
of types have no part in the verdict, and neither have the bodies of functions: programs that
differ in nothing else (`Typing.Alike`) pass alike.
-/

namespace MiniGoc

namespace Typing

variable {ds ds' env : List Node} {k : Nat} {bs bs' : List (String × Node)}
  {d d' e i s t u : Node} {x : String} {decimals : Bool} {err : TypingError}

/-! ## The check of a variable -/

/-- How the check of a variable ends.  The initialiser is an expression, so it stays as it is. -/
inductive VarCheck (env : List Node) (x : String) (t i : Node) : Outcome → Prop where
  | taken {err : TypingError} : declare env .var x t = .error err →
      VarCheck env x t i ⟨.var x t i, .error err⟩
  | plain : find? env x = .ok none → i.truthy = false →
      VarCheck env x t i ⟨.var x t i, .ok (.symbol x t)⟩
  | failed {err : TypingError} : find? env x = .ok none → i.truthy = true →
      check env i = ⟨i, .error err⟩ → VarCheck env x t i ⟨.var x t i, .error err⟩
  | filled {u : Node} : find? env x = .ok none → i.truthy = true → check env i = ⟨i, .ok u⟩ →
      t.isNone = true → VarCheck env x t i ⟨.var x u i, .ok (.symbol x u)⟩
  | same {u : Node} : find? env x = .ok none → i.truthy = true → check env i = ⟨i, .ok u⟩ →
      t.isNone = false → t.sameKind u = true →
      VarCheck env x t i ⟨.var x t i, .ok (.symbol x t)⟩
  | other {u : Node} : find? env x = .ok none → i.truthy = true → check env i = ⟨i, .ok u⟩ →
      t.isNone = false → t.sameKind u = false →
      VarCheck env x t i ⟨.var x t i, .error (.mismatch (.var x t i))⟩

theorem sameKind_refl (t : Node) : t.sameKind t = true := by
  simp [Node.sameKind]

theorem VarCheck.check_eq {o : Outcome} (h : VarCheck env x t i o) :
    check env (.var x t i) = o := by
  cases h with
  | taken hd => simp [check, hd]
  | plain hx hi | failed hx hi he => simp [check, declare, *]
  | filled hx hi hu ht => simp [check, declare, sameKind_refl, *]
  | same hx hi hu ht hk | other hx hi hu ht hk => simp [check, declare, *]

theorem declare_eq_ok {kind : DeclKind} :
    declare env kind x t = .ok s ↔ find? env x = .ok none ∧ s = .symbol x t := by
  cases hfind : find? env x with
  | error f => simp [declare, hfind]
  | ok o => cases o <;> simp [declare, hfind, eq_comm]

theorem isNone_of_truthy (h : i.truthy = true) : i.isNone = false := by
  cases i <;> first | rfl | cases h

theorem varCheck_check (env : List Node) (hf : (Node.var x t i).Fits decimals .decl) :
    VarCheck env x t i (check env (.var x t i)) := by
  suffices ∃ o, VarCheck env x t i o by
    obtain ⟨o, ho⟩ := this
    rwa [ho.check_eq]
  cases hd : declare env .var x t with
  | error err => exact ⟨_, .taken hd⟩
  | ok s =>
    obtain ⟨hx, -⟩ := declare_eq_ok.1 hd
    cases hi : i.truthy with
    | false => exact ⟨_, .plain hx hi⟩
    | true =>
      have hnode := node_check_of_expr env (init_fits hf (isNone_of_truthy hi))
      rcases hcheck : check env i with ⟨j, result⟩
      obtain rfl : j = i := by simpa [hcheck] using hnode
      cases result with
      | error err => exact ⟨_, .failed hx hi hcheck⟩
      | ok u =>
        cases ht : t.isNone with
        | true => exact ⟨_, .filled hx hi hcheck ht⟩
        | false =>
          cases hk : t.sameKind u with
          | true => exact ⟨_, .same hx hi hcheck ht hk⟩
          | false => exact ⟨_, .other hx hi hcheck ht hk⟩

/-! ## A second check -/

/-- A declaration that is checked again gives the same. -/
theorem check_check (env : List Node) (hf : d.Fits decimals .decl) :
    check env (check env d).node = check env d := by
  by_cases hvar : ∃ x t i, d = .var x t i
  · obtain ⟨x, t, i, rfl⟩ := hvar
    have h := varCheck_check env hf
    generalize check env (.var x t i) = o at h ⊢
    have hcheck := h.check_eq
    cases h with
    | @filled u hx hi hu ht =>
      -- Now the type is there, and it is that of the initialiser.
      cases hu' : u.isNone with
      | true => exact VarCheck.check_eq (.filled hx hi hu hu')
      | false => exact VarCheck.check_eq (.same hx hi hu hu' (sameKind_refl u))
    | _ => exact hcheck
  · rw [node_check_of_other env hf fun x t i hd => hvar ⟨x, t, i, hd⟩]

/-- Declarations that are checked again give the same. -/
theorem checkAll_checkAll (env : List Node) (hf : ∀ d ∈ ds, d.Fits decimals .decl) :
    checkAll env (checkAll env ds).1 = checkAll env ds := by
  induction ds generalizing env with
  | nil => simp [checkAll]
  | cons d ds ih =>
    obtain ⟨hd, hds⟩ := List.forall_mem_cons.1 hf
    have hagain := check_check env hd
    cases hresult : (check env d).result with
    | error err =>
      rw [checkAll_cons_error env hresult, checkAll_cons_error env (by rw [hagain, hresult]),
        hagain]
    | ok s =>
      rw [checkAll_cons_ok env hresult, checkAll_cons_ok env (by rw [hagain, hresult]), hagain,
        ih _ hds]

/-! ## The first error -/

theorem node_check_of_error (hf : d.Fits decimals .decl) (h : (check env d).result = .error err) :
    (check env d).node = d := by
  by_cases hvar : ∃ x t i, d = .var x t i
  · obtain ⟨x, t, i, rfl⟩ := hvar
    have hcheck := varCheck_check env hf
    generalize check env (.var x t i) = o at h hcheck ⊢
    cases hcheck with
    | filled => cases h
    | _ => rfl
  · exact node_check_of_other env hf fun x t i hd => hvar ⟨x, t, i, hd⟩

/-- The declarations before the first error are filled in, and the others stay. -/
theorem nodes_checkAll (hf : ∀ d ∈ ds, d.Fits decimals .decl) :
    ∃ k ≤ ds.length, ∃ fs, (∀ j < k, Fine ds j) ∧ (k < ds.length → ¬ Fine ds k) ∧
      ((checkAll builtins ds).2 = .ok () ↔ k = ds.length) ∧
      FilledTo ds k fs ∧ (checkAll builtins ds).1 = fs ++ ds.drop k := by
  obtain hfine | ⟨k, hk, hfirst, hbad, err, he⟩ := fine_or_first hf (Nat.le_refl _)
  · obtain ⟨bs, fs, -, hfs, hrun⟩ := checkAll_of_fine hf (Nat.le_refl _) hfine
    exact ⟨_, Nat.le_refl _, fs, hfine, fun h => absurd h (Nat.lt_irrefl _),
      by simp [hrun, checkAll], hfs, by simp [hrun, checkAll]⟩
  · obtain ⟨bs, fs, hsees, hfs, hrun⟩ := checkAll_of_fine hf (Nat.le_of_lt hk) hfirst
    have hfit := hf _ (List.getElem_mem hk)
    have hcheck := hsees.check_of_violates (List.getElem?_eq_getElem hk) hfit he
    refine ⟨k, Nat.le_of_lt hk, fs, hfirst, fun _ => hbad, ?_, hfs, ?_⟩
    · simp [checkAll_of_violates hf hk hfirst he, Nat.ne_of_lt hk]
    · rw [hrun, List.drop_eq_getElem_cons hk, checkAll_cons_error _ hcheck,
        node_check_of_error hfit hcheck]

/-! ## Declared types and types of initialisers -/

/-- What the check knows of a declared type and the type of the initialiser. -/
inductive Compared : Node → Node → Prop where
  | same {t : Node} : Compared t t
  | arrays {ns ms : List Node} {t u : Node} : Compared (.arrayType ns t) (.arrayType ms u)
  | names {x y : String} : Compared (.id x) (.id y)

theorem compared_of_sameKind (ht : t.Fits decimals .type) (h : t.sameKind u = true) :
    Compared t u := by
  cases ht with
  | id =>
    cases u with
    | id => exact .names
    | _ => simp [Node.sameKind, Node.ctorIdx] at h
  | arrayType =>
    cases u with
    | arrayType => exact .arrays
    | _ => simp [Node.sameKind, Node.ctorIdx] at h
  | intType | floatType | stringType | boolType =>
    cases u <;> first | exact .same | simp [Node.sameKind, Node.ctorIdx] at h
  | _ => simp_all

/-- The type of an expression is that of a number or of a function, or a variable is declared
with it. -/
theorem HasType.exists_declared (h : HasType ds k e u) :
    u = .intType ∨ u = .floatType ∨ (∃ ps r, u = .checkedFuncType ps r) ∨
    ∃ j < k, ∃ y i, ds[j]? = some (.var y u i) := by
  induction h with
  | int => exact .inl rfl
  | float => exact .inr (.inl rfl)
  | base h =>
    obtain ⟨-, rfl⟩ | ⟨-, rfl⟩ : _ ∨ _ := by simpa [Typing.base] using h
    · exact .inr (.inr (.inl ⟨_, _, rfl⟩))
    · exact .inr (.inr (.inl ⟨_, _, rfl⟩))
  | func => exact .inr (.inr (.inl ⟨_, _, rfl⟩))
  | typed hj hd => exact .inr (.inr (.inr ⟨_, hj, _, _, hd⟩))
  | inferred hj _ _ ih =>
    obtain h | h | h | ⟨j', hj', hd⟩ := ih
    · exact .inl h
    · exact .inr (.inl h)
    · exact .inr (.inr (.inl h))
    · exact .inr (.inr (.inr ⟨j', Nat.lt_trans hj' hj, hd⟩))

/-- Where the two types differ, a variable before is declared with the second. -/
theorem Compared.exists_declared (h : Compared t u) (hne : t ≠ u) (hu : HasType ds k e u) :
    ∃ j < k, ∃ y i, ds[j]? = some (.var y u i) := by
  obtain rfl | rfl | ⟨ps, r, rfl⟩ | hdeclared := hu.exists_declared
  · cases h with | same => exact absurd rfl hne
  · cases h with | same => exact absurd rfl hne
  · cases h with | same => exact absurd rfl hne
  · exact hdeclared

theorem type_fits (hf : (Node.var x t i).Fits decimals .decl) (ht : t.isNone = false) :
    t.Fits decimals .type := by
  cases hf with
  | varType _ _ ht | varBoth _ _ ht => exact ht
  | varInit => cases ht

/-! ## What the verdict depends on -/

/-- Two declarations with the same name, of which variables have the same initialiser and types of
one kind. -/
inductive Alike : Node → Node → Prop where
  | var {x : String} {t u i : Node} : t.sameKind u = true → Alike (.var x t i) (.var x u i)
  | func {x : String} {ps qs : List Node} {r s b c : Node} :
      Alike (.func x ps r b) (.func x qs s c)

/-- Two bindings of one name to types of one kind. -/
def SameBinding (b c : String × Node) : Prop := b.1 = c.1 ∧ b.2.sameKind c.2 = true

theorem isNone_eq_sameKind (t : Node) : t.isNone = t.sameKind .none := by
  cases t <;> rfl

theorem lookup_alike (h : List.Forall₂ SameBinding bs bs') (x : String) :
    Option.Rel (fun t u => t.sameKind u = true) (bs.lookup x) (bs'.lookup x) := by
  induction h with
  | nil => exact .none
  | @cons b c bs bs' hb _ ih =>
    rw [lookup_cons_eq, lookup_cons_eq, ← hb.1]
    split
    · exact .some hb.2
    · exact ih

theorem check_alike_init (hi : i.Fits decimals .expr) (h : List.Forall₂ SameBinding bs bs')
    (hu : check (symbols bs) i = ⟨i, .ok u⟩) :
    ∃ v, check (symbols bs') i = ⟨i, .ok v⟩ ∧ u.sameKind v = true := by
  cases hh : isHandled i with
  | false =>
    have := check_unhandled (symbols bs) hi hh
    simp [hu] at this
  | true =>
    cases i with
    | intLit | floatLit => exact ⟨u, by simpa [check] using hu, sameKind_refl u⟩
    | id y =>
      have hlookup := lookup_alike h y
      cases hl : bs.lookup y with
      | none => simp [check, find?_symbols, hl] at hu
      | some t =>
        rw [hl] at hlookup
        cases hl' : bs'.lookup y with
        | none => rw [hl'] at hlookup; cases hlookup
        | some t' =>
          rw [hl'] at hlookup
          cases hlookup with
          | some hkind =>
            obtain rfl : t = u := by simpa [check, find?_symbols, hl, entryType] using hu
            exact ⟨t', by simp [check, find?_symbols, hl', entryType], hkind⟩
    | _ => cases hh

theorem new_alike (h : List.Forall₂ SameBinding bs bs') (hx : find? (symbols bs) x = .ok none) :
    find? (symbols bs') x = .ok none := by
  have hlookup := lookup_alike h x
  cases hl : bs.lookup x with
  | some t => simp [find?_symbols, hl] at hx
  | none =>
    rw [hl] at hlookup
    cases hl' : bs'.lookup x with
    | none => simp [find?_symbols, hl']
    | some t => rw [hl'] at hlookup; cases hlookup

theorem check_alike (hd : Alike d d') (hf : d.Fits decimals .decl)
    (h : List.Forall₂ SameBinding bs bs') (hs : (check (symbols bs) d).result = .ok s) :
    ∃ x t u, s = .symbol x t ∧ (check (symbols bs') d').result = .ok (.symbol x u) ∧
      t.sameKind u = true := by
  cases hd with
  | @func x ps qs r r' b c =>
    rw [check] at hs ⊢
    obtain ⟨hx, rfl⟩ := declare_eq_ok.1 hs
    exact ⟨x, _, _, rfl, declare_eq_ok.2 ⟨new_alike h hx, rfl⟩, rfl⟩
  | @var x t u i htu =>
    have hnone : t.isNone = u.isNone := by
      have hidx : t.ctorIdx = u.ctorIdx := by simpa [Node.sameKind] using htu
      rw [isNone_eq_sameKind, isNone_eq_sameKind, Node.sameKind, Node.sameKind, hidx]
    have hcheck := varCheck_check (symbols bs) hf
    generalize check (symbols bs) (.var x t i) = o at hcheck hs
    cases hcheck with
    | taken | failed | other => cases hs
    | plain hx hi =>
      cases hs
      exact ⟨x, t, u, rfl, by rw [VarCheck.check_eq (.plain (new_alike h hx) hi)], htu⟩
    | @filled v hx hi hv ht =>
      cases hs
      obtain ⟨v', hv', hkind⟩ := check_alike_init (init_fits hf (isNone_of_truthy hi)) h hv
      exact ⟨x, v, v', rfl,
        by rw [VarCheck.check_eq (.filled (new_alike h hx) hi hv' (hnone ▸ ht))], hkind⟩
    | @same v hx hi hv ht hk =>
      cases hs
      obtain ⟨v', hv', hkind⟩ := check_alike_init (init_fits hf (isNone_of_truthy hi)) h hv
      have hk' : u.sameKind v' = true := by simp_all [Node.sameKind]
      exact ⟨x, t, u, rfl,
        by rw [VarCheck.check_eq (.same (new_alike h hx) hi hv' (hnone ▸ ht) hk')], htu⟩

/-- Declarations that are alike pass alike. -/
theorem checkAll_alike (hd : List.Forall₂ Alike ds ds') (hf : ∀ d ∈ ds, d.Fits decimals .decl)
    (h : List.Forall₂ SameBinding bs bs') (hok : (checkAll (symbols bs) ds).2 = .ok ()) :
    (checkAll (symbols bs') ds').2 = .ok () := by
  induction hd generalizing bs bs' with
  | nil => simp [checkAll]
  | @cons d d' ds ds' hd _ ih =>
    obtain ⟨hfd, hfds⟩ := List.forall_mem_cons.1 hf
    cases hresult : (check (symbols bs) d).result with
    | error err => simp [checkAll_cons_error _ hresult] at hok
    | ok s =>
      obtain ⟨x, t, u, rfl, hresult', hkind⟩ := check_alike hd hfd h hresult
      rw [checkAll_cons_ok _ hresult] at hok
      rw [checkAll_cons_ok _ hresult']
      exact @ih ((x, t) :: bs) ((x, u) :: bs') hfds (.cons ⟨rfl, hkind⟩ h) hok

theorem run_alike (hd : List.Forall₂ Alike ds ds') (hf : ∀ d ∈ ds, d.Fits decimals .decl)
    (hok : (run (.program ds)).result = .ok s) : (run (.program ds')).result = .ok s := by
  have hbase : List.Forall₂ SameBinding base base := .cons ⟨rfl, rfl⟩ (.cons ⟨rfl, rfl⟩ .nil)
  rw [run_program] at hok ⊢
  cases hresult : (checkAll builtins ds).2 with
  | error err => rw [hresult] at hok; cases hok
  | ok u =>
    rw [hresult] at hok
    rw [builtins_eq, checkAll_alike hd hf hbase hresult]
    exact hok

/-- The type of the initialiser of a variable with a type, in a program that passes. -/
theorem compared_of_run (hf : ∀ d ∈ ds, d.Fits decimals .decl)
    (hok : (run (.program ds)).result = .ok s) (hd : ds[k]? = some (.var x t i))
    (ht : t.isNone = false) (hi : i.isNone = false) :
    ∃ u, HasType ds k i u ∧ (∀ v, HasType ds k i v → v = u) ∧ Compared t u := by
  obtain ⟨hk, hget⟩ := List.getElem?_eq_some_iff.1 hd
  have hfit : (Node.var x t i).Fits decimals .decl := hget ▸ hf _ (List.getElem_mem hk)
  rw [run_program] at hok
  obtain ⟨-, hfine⟩ | ⟨err, hrun, -⟩ := checkAll_cases hf
  · obtain ⟨bs, fs, hsees, -⟩ :=
      checkAll_of_fine hf (Nat.le_of_lt hk) fun j hj => hfine j (Nat.lt_trans hj hk)
    have hgood := hfine k hk
    simp only [Fine, hd, hi, ht, Bool.false_eq_true, false_or] at hgood
    obtain ⟨-, u, hu, hkind⟩ := hgood
    exact ⟨u, hu, fun v hv => hsees.unique hv hu, compared_of_sameKind (type_fits hfit ht) hkind⟩
  · rw [hrun] at hok; cases hok

end Typing

namespace SyntaxTree

open Typing

variable {source : String} {t : SyntaxTree} {n s : Node}

/-- Up to the first declaration with an error the check gives every variable without a type
the type of its initialiser.  It changes nothing else.  A second check gives the same result and
the same program. -/
theorem run_fills_types (ht : parse source = .ok t) (hn : t.toNode = .ok n) :
    ∃ ds fs k, n = .program ds ∧ k ≤ ds.length ∧ (∀ j < k, Fine ds j) ∧
      (k < ds.length → ¬ Fine ds k) ∧ ((∃ s, (Typing.run n).result = .ok s) ↔ k = ds.length) ∧
      FilledTo ds k fs ∧ (Typing.run n).node = .program (fs ++ ds.drop k) ∧
      Typing.run (Typing.run n).node = Typing.run n := by
  obtain ⟨ds, rfl, hf⟩ := (fits_of_source ht hn).exists_program
  obtain ⟨k, hk, fs, hfine, hbad, hpasses, hfs, hnodes⟩ := nodes_checkAll hf
  refine ⟨ds, fs, k, rfl, hk, hfine, hbad, ?_, hfs, ?_, ?_⟩
  · rw [run_program, ← hpasses]
    cases (checkAll builtins ds).2 <;> simp [Except.map]
  · rw [run_eq, hnodes]
  · rw [run_eq, run_eq, checkAll_checkAll _ hf]

/-- Two types are filled in, one through the other, and the declaration after the error keeps
none. -/
theorem run_fills_types_to_error : ∃ t n ds fs k,
    parse "var a=1;var b=a;var c float=b;var d=c;" = .ok t ∧ t.toNode = .ok n ∧
      n = .program ds ∧ (∀ j < k, Fine ds j) ∧ (k < ds.length → ¬ Fine ds k) ∧ FilledTo ds k fs ∧
      (Typing.run n).node = .program (fs ++ ds.drop k) ∧
      Typing.run (Typing.run n).node = Typing.run n ∧
      (Typing.run n).node.render.toOption = some ("Program([VarDecl(a,IntType,IntLiteral(1))," ++
        "VarDecl(b,IntType,Id(a)),VarDecl(c,FloatType,Id(b)),VarDecl(d,Id(c))])") := by
  have h : ((parse "var a=1;var b=a;var c float=b;var d=c;").toOption.bind fun t =>
      t.toNode.toOption.map fun n => (Typing.run n).node.render.toOption) =
      some (some ("Program([VarDecl(a,IntType,IntLiteral(1))," ++
        "VarDecl(b,IntType,Id(a)),VarDecl(c,FloatType,Id(b)),VarDecl(d,Id(c))])")) := by
    decide +kernel
  obtain ⟨t, n, ht, hn, htext⟩ := exists_built h
  obtain ⟨ds, fs, k, hds, -, hfine, hbad, -, hfs, hnode, hagain⟩ := run_fills_types ht hn
  exact ⟨t, n, ds, fs, k, ht, hn, hds, hfine, hbad, hfs, hnode, hagain, htext⟩

/-- In a program that passes, a variable with a type and an initialiser has a type that
compares with the one type of the initialiser.  Where they are not the same, a variable before
is declared with the second.  Nothing more is compared: a program that is alike passes too. -/
theorem initialisers_compared (ht : parse source = .ok t) (hn : t.toNode = .ok n)
    (hs : (Typing.run n).result = .ok s) : ∃ ds, n = .program ds ∧
      (∀ k x T i, ds[k]? = some (.var x T i) → T.isNone = false → i.isNone = false →
        ∃ u, Typing.HasType ds k i u ∧ (∀ v, Typing.HasType ds k i v → v = u) ∧ Compared T u ∧
          (T ≠ u → ∃ j < k, ∃ y e, ds[j]? = some (.var y u e))) ∧
      ∀ ds', List.Forall₂ Typing.Alike ds ds' → (Typing.run (.program ds')).result = .ok s := by
  obtain ⟨ds, rfl, hf⟩ := (fits_of_source ht hn).exists_program
  refine ⟨ds, rfl, fun k x T i hd hT hi => ?_, fun ds' halike => run_alike halike hf hs⟩
  obtain ⟨u, hu, hunique, hcompared⟩ := compared_of_run hf hs hd hT hi
  exact ⟨u, hu, hunique, hcompared, fun hne => hcompared.exists_declared hne hu⟩

/-- The names and the lengths in a declaration of an array and one that takes its value. -/
def Sample.arrays : Node → List String
  | .program [.var x (.arrayType [.intLit (.text i)] .intType) .none,
      .var y (.arrayType [.intLit (.text j)] .intType) (.id z)] => [x, i, y, j, z]
  | _ => []

/-- An array of two is taken for an array of three. -/
theorem initialisers_compared_arrays : ∃ t n s ds, parse "var a [2]int;var b [3]int=a;" = .ok t ∧
    t.toNode = .ok n ∧ (Typing.run n).result = .ok s ∧ n = .program ds ∧
      ∃ T u, ds[1]? = some (.var "b" T (.id "a")) ∧ Typing.HasType ds 1 (.id "a") u ∧ Compared T u ∧
        T ≠ u ∧ ∃ j < 1, ∃ y e, ds[j]? = some (.var y u e) := by
  have h : ((parse "var a [2]int;var b [3]int=a;").toOption.bind fun t =>
      t.toNode.toOption.map Sample.arrays) = some ["a", "2", "b", "3", "a"] := by
    decide +kernel
  obtain ⟨t, n, ht, hn, h⟩ := exists_built h
  rw [Sample.arrays.eq_def] at h
  split at h
  · obtain ⟨rfl, rfl, rfl, rfl, rfl⟩ := by simpa using h
    obtain ⟨ds, hds, hcompared, -⟩ := initialisers_compared ht hn rfl
    obtain rfl := Node.program.inj hds
    obtain ⟨u, hu, hunique, hkind, hdeclared⟩ := hcompared 1 _ _ _ rfl rfl rfl
    obtain rfl := hunique _ (.typed Nat.zero_lt_one rfl rfl)
    have hne : Node.arrayType [.intLit (.text "3")] .intType ≠
        .arrayType [.intLit (.text "2")] .intType := by simp
    exact ⟨t, _, _, _, ht, hn, rfl, rfl, _, _, rfl, hu, hkind, hne, hdeclared hne⟩
  · cases h

end SyntaxTree

end MiniGoc
