import MiniGoc.Proofs.Progress
import MiniGoc.Proofs.Returns

/-!
# The programs that are generated

A typed program on integers and truth values is generated if and only if its blocks are in order
and all names in its functions can be used (`core_generated_iff`).  The names can always be used,
except where the main function has parameters of its own.

One half reads the code that is there.  The other half follows the generator through the program:
it goes on at every declaration, since the types of such a program have descriptors
(`globalSymbols_sober`), its initial values have code, and so have the bodies of its functions.
-/

namespace MiniGoc

open Act (Yields yields_bind yields_pure)
open Emit

/-- An action for each item has a result, if it has one for every item in the states with a
property that it keeps up. -/
theorem Act.forM_progress {σ α : Type} {k : α → Act σ PUnit} {P : σ → Prop} :
    ∀ (as : List α) {s : σ}, (∀ a ∈ as, ∀ s, P s → ∃ t, Yields (k a) s ⟨⟩ t ∧ P t) → P s →
      ∃ t, Yields (as.forM k) s ⟨⟩ t ∧ P t
  | [], s, _, hs => ⟨s, Act.yields_forM_nil.2 rfl, hs⟩
  | a :: as, s, h, hs => by
    obtain ⟨r, ha, hr⟩ := h a (List.mem_cons_self ..) s hs
    obtain ⟨t, has, ht⟩ := Act.forM_progress as (fun b hb => h b (List.mem_cons_of_mem _ hb)) hr
    exact ⟨t, Act.yields_forM_cons.2 ⟨r, ha, has⟩, ht⟩

/-! ## Declarations -/

section Declarations

variable {Γ : Vars} {d : Node}

theorem isCoreDecl.var {x : String} {t e : Node} (h : isCoreDecl Γ (.var x t e)) :
    ∃ τ : Ty, t = τ.node ∧ (e = .none ∨ exprTy? Γ e = some τ) := by
  simp only [isCoreDecl] at h
  split at h
  · next τ hτ =>
    simp only [Bool.or_eq_true, Node.isNone_iff, beq_iff_eq] at h
    exact ⟨τ, Ty.eq_node_of_ofNode? hτ, h⟩
  · cases h

theorem isCoreDecl.func {n : String} {ps : List Node} {r b : Node}
    (h : isCoreDecl Γ (.func n ps r b)) :
    (∀ p ∈ ps, ∃ x, ∃ τ : Ty, p = .param x τ.node) ∧ r = .voidType ∧ b.isBlock ∧ b.isCoreStmt := by
  simp only [isCoreDecl, Bool.and_eq_true, List.all_eq_true] at h
  obtain ⟨⟨⟨hps, hr⟩, hblock⟩, hb⟩ := h
  refine ⟨fun p hp => ?_, ?_, hblock, Node.isCoreStmt_of_stmtTyped hb⟩
  · obtain ⟨⟨x, τ⟩, hτ⟩ := Option.isSome_iff_exists.1 (hps p hp)
    exact ⟨x, τ, Node.eq_param_of_paramVar? hτ⟩
  · cases r with
    | voidType => rfl
    | _ => cases hr

theorem isCoreDecl.initOf (h : isCoreDecl Γ d) (htruthy : (Gen.initOf d).truthy) :
    ∃ τ, exprTy? Γ (Gen.initOf d) = some τ := by
  cases d with
  | var x t e =>
    obtain ⟨τ, -, rfl | he⟩ := isCoreDecl.var h
    · cases htruthy
    · exact ⟨τ, he⟩
  | func => cases htruthy
  | _ => cases h

theorem isCoreDecl.isDeclTree (h : isCoreDecl Γ d) : d.isDeclTree := by
  have htype (τ : Ty) : τ.node.isTypeTree := by cases τ <;> rfl
  cases d with
  | var x t e =>
    obtain ⟨τ, rfl, rfl | he⟩ := isCoreDecl.var h
    · simp [Node.isDeclTree, htype, Node.isNone]
    · simp [Node.isDeclTree, htype,
        Node.isExprTree_of_isCoreExpr (Node.isCoreExpr_of_exprTy? he)]
  | func n ps r b =>
    obtain ⟨hps, rfl, hblock, hb⟩ := isCoreDecl.func h
    have hparams : ps.all Node.isParamTree := by
      refine List.all_eq_true.2 fun p hp => ?_
      obtain ⟨x, τ, rfl⟩ := hps p hp
      exact htype τ
    simp [Node.isDeclTree, hparams, hblock, Node.isStmtTree_of_isCoreStmt hb, Node.isTypeTree]
  | _ => cases h

theorem Node.exists_descriptors :
    ∀ {ts : List Node}, (∀ t ∈ ts, ∃ d, t.descriptor = .ok d) → ∃ d, Node.descriptors ts = .ok d
  | [], _ => ⟨_, rfl⟩
  | t :: ts, h => by
    obtain ⟨d, hd⟩ := h t (List.mem_cons_self ..)
    obtain ⟨e, he⟩ := Node.exists_descriptors fun u hu => h u (List.mem_cons_of_mem _ hu)
    exact ⟨d ++ e, by simp only [Node.descriptors, hd, he]; rfl⟩

theorem Node.IsSober.funcType {ps : List Node} {r : Node}
    (hps : ∀ t ∈ ps, ∃ d, t.descriptor = .ok d) (hr : ∃ d, r.descriptor = .ok d) :
    (Node.funcType ps r).IsSober := by
  obtain ⟨d, hd⟩ := Node.exists_descriptors hps
  obtain ⟨e, he⟩ := hr
  exact ⟨⟨"(" ++ d ++ ")" ++ e, by simp only [Node.descriptor, hd, he]; rfl⟩, nofun, nofun⟩

theorem Node.IsSober.procedure {ps : List Node}
    (hps : ∀ p ∈ ps, ∃ x, ∃ τ : Ty, p = .param x τ.node) :
    (Node.funcType (ps.map fun p => p.paramParts.2) .voidType).IsSober := by
  refine .funcType (fun t ht => ?_) ⟨_, rfl⟩
  obtain ⟨p, hp, rfl⟩ := List.mem_map.1 ht
  obtain ⟨x, τ, rfl⟩ := hps p hp
  exact τ.isSober.descriptor

theorem isCoreDecl.sober (h : isCoreDecl Γ d) : Sober (declSymbols d) := by
  intro s hs
  cases d with
  | var x t e =>
    obtain ⟨τ, rfl, -⟩ := isCoreDecl.var h
    obtain rfl := List.mem_singleton.1 hs
    exact τ.isSober
  | func n ps r b =>
    obtain ⟨hps, rfl, -, -⟩ := isCoreDecl.func h
    obtain rfl := List.mem_singleton.1 hs
    exact .procedure hps
  | _ => cases h

end Declarations

section Programs

variable {ds : List Node} (hcore : isCoreProgram ds)

include hcore

theorem isCoreProgram.decl {d : Node} (hd : d ∈ ds) : isCoreDecl (globalVars ds) d :=
  List.all_eq_true.1 hcore d hd

theorem isCoreProgram.trees : ds.all Node.isDeclTree :=
  List.all_eq_true.2 fun _ hd => isCoreDecl.isDeclTree (isCoreProgram.decl hcore hd)

theorem globalSymbols_sober : Sober (globalSymbols ds) := by
  have builtins : ∀ s ∈ Symbol.builtins, s.type.descriptor.isOk ∧ s.type.funcParts?.isSome := by
    decide
  intro s hs
  rcases List.mem_append.1 hs with hs | hs
  · obtain ⟨hdescriptor, hfunc⟩ := builtins s hs
    refine ⟨?_, fun ht => by simp [ht, Node.funcParts?] at hfunc,
      fun ht => by simp [ht, Node.funcParts?] at hfunc⟩
    cases hd : s.type.descriptor with
    | error => simp [hd, Except.isOk, Except.toBool] at hdescriptor
    | ok d => exact ⟨d, rfl⟩
  · obtain ⟨d, hd, hs⟩ := List.mem_flatMap.1 hs
    exact isCoreDecl.sober (isCoreProgram.decl hcore hd) s hs

end Programs

/-! ## Methods -/

section Methods

variable {other : Visitor}

variable {w : Workspace} {ps : List Node}

theorem Gen.withFrame_progress {α : Type} {m : Gen α} {u : Workspace} {a : α}
    (h : Yields m (w.extend {} []) a u) :
    Yields (Gen.withFrame m) w a { u with frame := w.frame } := by
  simp only [Gen.withFrame, yields_bind, Act.yields_get, Act.yields_andFinally,
    Act.yields_modify]
  exact ⟨w, w, ⟨rfl, rfl⟩, u, ⟨(), _, rfl, by simpa [Workspace.extend] using h⟩, rfl⟩

theorem Gen.startMethod_progress (name : String) {type : Node} {d : String}
    (hd : type.descriptor = .ok d) (w : Workspace) :
    Yields (Gen.startMethod name type true) (w.extend {} []) ()
      (w.extend .ofMethod [some [.method true name d], some (label (.ofNat 0))]) := by
  simp only [Gen.startMethod, Gen.printLabel, yields_bind, Gen.yields_emit, yields_method,
    Gen.yields_onFrame, Frame.yields_enterScope, Frame.yields_startLabel, yields_pure]
  exact ⟨(), _, ⟨_, _, ⟨d, hd, rfl, rfl⟩, rfl⟩, (), _, ⟨_, rfl, rfl⟩, _, _,
    ⟨_, _, ⟨_, rfl, rfl, rfl⟩, rfl, rfl⟩, by simp [Frame.ofMethod, Frame.entered]⟩

theorem Gen.finishMethod_progress {s : Frame.Scope} {ss : List Frame.Scope}
    (hs : w.frame.scopes = s :: ss) : ∃ v, Yields (Gen.finishMethod .voidType) w () v := by
  simp only [Gen.finishMethod, Gen.printLabel, yields_bind, Gen.yields_emit,
    Frame.yields_endLabel, yields_pure, Gen.yields_onFrame, yields_ret, Gen.yields_printPiece,
    yields_endMethod, Frame.yields_exitScope]
  exact ⟨_, (), _, ⟨_, _, ⟨_, _, ⟨s, by rw [hs]; rfl, rfl, rfl⟩, rfl, rfl⟩, rfl⟩, _, _,
    ⟨_, ⟨rfl, Frame.drops_zero.2 rfl⟩, rfl⟩, (), _, rfl, (), _, ⟨_, _, ⟨rfl, rfl⟩, rfl⟩, _,
    ⟨s, ss, hs, rfl⟩, rfl⟩

theorem Gen.declareParam_progress (n : String) {t : Node} {d : String} (hd : t.descriptor = .ok d)
    {sc : Frame.Scope} (hsc : w.frame.scopes.head? = some sc) :
    Yields (Gen.declareParam n t) w (.localVar n t w.frame.index)
      (w.extend w.frame.indexed [some [slotLine sc w.frame.index n d]]) := by
  simp only [Gen.declareParam, yields_bind, Gen.yields_onFrame, Frame.yields_newIndex,
    Gen.yields_printVar, yields_pure]
  exact ⟨_, _, ⟨_, ⟨rfl, rfl⟩, rfl⟩, (), _, ⟨sc, d, hsc, hd, rfl⟩, rfl, by simp⟩

theorem Gen.declareParams_progress : ∀ {ps : List Node} {w : Workspace} {sc : Frame.Scope},
    (∀ p ∈ ps, ∃ x, ∃ τ : Ty, p = .param x τ.node) → w.frame.scopes.head? = some sc →
    ∃ ss v, Yields (Gen.declareParams ps) w ss v
  | [], w, sc, _, _ => ⟨[], w, yields_pure.2 ⟨rfl, rfl⟩⟩
  | p :: ps, w, sc, hps, hsc => by
    obtain ⟨x, τ, rfl⟩ := hps p (List.mem_cons_self ..)
    obtain ⟨d, hd⟩ := τ.isSober.descriptor
    obtain ⟨ss, v, hv⟩ := Gen.declareParams_progress
      (w := w.extend w.frame.indexed [some [slotLine sc w.frame.index x d]])
      (fun q hq => hps q (List.mem_cons_of_mem _ hq)) hsc
    refine ⟨.localVar x τ.node w.frame.index :: ss, v, ?_⟩
    simp only [Gen.declareParams, Gen.param, yields_bind, yields_pure]
    exact ⟨_, _, ⟨rfl, rfl⟩, _, _, Gen.declareParam_progress x hd hsc, ss, v, hv, rfl, rfl⟩

theorem Gen.mapM_param : ∀ {ps : List Node}, (∀ p ∈ ps, ∃ x, ∃ τ : Ty, p = .param x τ.node) →
    (ps.mapM fun p => do return (← Gen.param p).2 : Gen (List Node)) =
      pure (ps.map fun p => p.paramParts.2)
  | [], _ => rfl
  | p :: ps, hps => by
    obtain ⟨x, τ, rfl⟩ := hps p (List.mem_cons_self ..)
    rw [List.mapM_cons, Gen.mapM_param fun q hq => hps q (List.mem_cons_of_mem _ hq)]
    rfl

theorem Gen.openFunc_progress (n : String) (hps : ∀ p ∈ ps, ∃ x, ∃ τ : Ty, p = .param x τ.node)
    (w : Workspace) : ∃ ss v, Yields (Gen.openFunc n ps .voidType) (w.extend {} []) ss v := by
  by_cases hn : n = "main"
  · simp only [Gen.openFunc, hn, if_true, yields_bind, yields_pure]
    exact ⟨_, _, (), _, Gen.startMethod_progress _ rfl w, _, _,
      Gen.declareParam_progress "args" rfl rfl, rfl, rfl⟩
  · obtain ⟨d, hd⟩ := (Node.IsSober.procedure hps).descriptor
    obtain ⟨ss, v, hv⟩ := Gen.declareParams_progress (w := w.extend .ofMethod
      [some [.method true n d], some (label (.ofNat 0))]) hps rfl
    simp only [Gen.openFunc, hn, if_false, Gen.mapM_param hps, pure_bind, yields_bind]
    exact ⟨ss, v, (), _, Gen.startMethod_progress n hd w, hv⟩

theorem Params.depth_eq {ps : List (String × Node)} {f g : Frame} {c : Code} {ss : List Symbol}
    (h : Params ps f c ss g) : g.depth = f.depth := by
  induction h with
  | nil => rfl
  | cons _ _ _ ih => exact ih

theorem map_name_paramSymbols : ∀ (i : Int) (ps : List (String × Node)),
    (paramSymbols i ps).map Symbol.name = ps.map Prod.fst
  | _, [] => rfl
  | i, (n, t) :: ps => by simp [paramSymbols, Symbol.localVar, map_name_paramSymbols (i + 1) ps]

theorem knows_method (n : String) (ps ds : List Node) :
    Knows ((methodParams n ps).map Prod.fst ++ topNames ds)
      (paramSymbols 0 (methodParams n ps) ++ globalSymbols ds) := by
  intro x
  rw [List.map_append, map_name_paramSymbols, topNames]

theorem methodParams_sober (n : String) (i : Int)
    (hps : ∀ p ∈ ps, ∃ x, ∃ τ : Ty, p = .param x τ.node) :
    Sober (paramSymbols i (methodParams n ps)) := by
  have each : ∀ (params : List (String × Node)) (i : Int), (∀ p ∈ params, p.2.IsSober) →
      Sober (paramSymbols i params) := by
    intro params
    induction params with
    | nil => simp [Sober, paramSymbols]
    | cons p params ih =>
      intro i hparams
      exact Sober.append (.singleton (hparams p (List.mem_cons_self ..)))
        (ih (i + 1) fun q hq => hparams q (List.mem_cons_of_mem _ hq))
  refine each _ i fun p hp => ?_
  simp only [methodParams] at hp
  split at hp
  · obtain rfl := List.mem_singleton.1 hp
    exact ⟨⟨_, rfl⟩, by simp [Gen.commandLine], by simp [Gen.commandLine]⟩
  · obtain ⟨q, hq, rfl⟩ := List.mem_map.1 hp
    obtain ⟨x, τ, rfl⟩ := hps q hq
    exact τ.isSober

/-- A function in order whose names can be used has a method. -/
theorem Gen.func_progress {ds : List Node} (hcore : isCoreProgram ds) {n : String} {r b : Node}
    (hd : .func n ps r b ∈ ds) (hordered : funcOrdered ds (.func n ps r b))
    (husable : funcUsable ds (.func n ps r b)) (hw : w.globals = globalSymbols ds) :
    ∃ v, Yields (Gen.topLevel other (.func n ps r b)) w () v := by
  have htrees := isCoreProgram.trees hcore
  have hdecl := List.all_eq_true.1 htrees _ hd
  simp only [Node.isDeclTree, Bool.and_eq_true] at hdecl
  obtain ⟨hps, rfl, hblock, hb⟩ := isCoreDecl.func (isCoreProgram.decl hcore hd)
  obtain ⟨ss, w₁, h₁⟩ := Gen.openFunc_progress n hps w
  obtain ⟨c, type, -, hparams, hregular, -⟩ := Gen.openFunc_yields hdecl.1.1.1 h₁
  obtain ⟨rfl, hindex⟩ := hparams.body_index
  have inside : Surrounds (paramSymbols 0 (methodParams n ps) ++ globalSymbols ds)
      ((methodParams n ps).map Prod.fst ++ topNames ds)
      (Context.enter ⟨[globalSymbols ds], [.frame]⟩ (paramSymbols 0 (methodParams n ps))) :=
    { missing := rfl
      regular := by simpa using hregular.append (globalSymbols_regular htrees)
      sober := by simpa using (methodParams_sober n 0 hps).append (globalSymbols_sober hcore)
      alike := by simpa using Alike.refl _
      knows := by simpa using knows_method n ps ds }
  have hnone : b.isNone = false := by
    cases b with
    | block => rfl
    | _ => cases hblock
  obtain ⟨cs, f, h₂, hprinted, -⟩ := Gen.stmt_progress other (w := w₁) inside hb hnone
    (by simp [Node.declared?_of_isBlock hblock]) hordered (hindex ▸ husable)
    (Int.le_of_eq hparams.depth_eq.symm)
  have hscopes : f.scopes = Frame.ofMethod.scopes :=
    hprinted.advances.scopes.trans hparams.advances.scopes
  obtain ⟨v, h₃⟩ := Gen.finishMethod_progress (w := w₁.extend f (cs.map some)) hscopes
  refine ⟨{ v with frame := w.frame }, ?_⟩
  rw [Yields, Gen.start_topLevel_func, hw, Gen.func_eq]
  exact Gen.withFrame_progress (yields_bind.2 ⟨_, _, h₁, yields_bind.2 ⟨_, _, h₂, h₃⟩⟩)

end Methods

/-! ## The whole program -/

section Program

variable {other : Visitor} {ds : List Node}

theorem Gen.paramTypes_eq (ctx : Context) : ∀ {ps : List Node},
    (∀ p ∈ ps, ∃ x, ∃ τ : Ty, p = .param x τ.node) →
    Gen.paramTypes other ctx ps = pure (ps.map fun p => p.paramParts.2)
  | [], _ => rfl
  | p :: ps, hps => by
    obtain ⟨x, τ, rfl⟩ := hps p (List.mem_cons_self ..)
    have hrest := Gen.paramTypes_eq ctx fun q hq => hps q (List.mem_cons_of_mem _ hq)
    cases τ <;> simp only [Gen.paramTypes, Gen.param, Gen.typeOf, Ty.node, hrest] <;> rfl

variable {d : Node} {w : Workspace}

/-- The names of a typed program are declared. -/
theorem Gen.declareGlobal_progress (other : Visitor) (ctx : Context)
    {Γ : Vars} (hd : isCoreDecl Γ d) (w : Workspace) :
    Yields (Gen.declareGlobal other ctx d) w ()
      { w with globals := w.globals ++ declSymbols d } := by
  simp only [Gen.declareGlobal, Gen.globalContext, yields_bind, Act.yields_get,
    yields_pure]
  refine ⟨_, w, ⟨w, w, ⟨rfl, rfl⟩, rfl, rfl⟩, ?_⟩
  cases d with
  | var x t e =>
    obtain ⟨τ, rfl, -⟩ := isCoreDecl.var hd
    cases τ <;> exact Act.yields_modify.2 rfl
  | func n ps r b =>
    obtain ⟨hps, rfl, -, -⟩ := isCoreDecl.func hd
    simp only [Gen.paramTypes_eq _ hps, pure_bind]
    exact Act.yields_modify.2 rfl
  | _ => cases hd

/-- A field has a line, if all types have descriptors. -/
theorem Gen.globalField_progress (n : String) (isFinal : Bool) (d : Node) (hw : Sober w.globals) :
    ∃ items v, Yields (Gen.globalField .outermost n isFinal d) w items v ∧
      v.globals = w.globals := by
  have hfind : Yields (Context.find?
      ⟨w.globals :: Context.outermost.scopes.tail, Context.outermost.missing⟩ n) w
      (Symbol.find? n w.globals) w := by
    simp [Context.find?, Context.need, Context.outermost]
  simp only [Gen.globalField, yields_bind, Act.yields_get]
  rcases hs : Symbol.find? n w.globals with _ | s
  · rw [hs] at hfind
    exact ⟨[], w, ⟨w, w, ⟨rfl, rfl⟩, none, w, hfind, yields_pure.2 ⟨rfl, rfl⟩⟩, rfl⟩
  · rw [hs] at hfind
    by_cases howner : ∃ x, s.home = .member mainClass x
    · obtain ⟨x, hhome⟩ := howner
      obtain ⟨t, ht⟩ := (hw s (Symbol.mem_of_find? hs)).descriptor
      refine ⟨if (Gen.initOf d).truthy then [(s, d)] else [],
        w.extend w.frame [some [.field true isFinal n t none]],
        ⟨w, w, ⟨rfl, rfl⟩, some s, w, hfind, ?_⟩, rfl⟩
      simp only [hhome, if_true, yields_bind, Gen.yields_emit, yields_fieldLine,
        yields_pure]
      exact ⟨(), _, ⟨_, _, ⟨t, ht, rfl, rfl⟩, rfl⟩, trivial, rfl⟩
    · refine ⟨[], w, ⟨w, w, ⟨rfl, rfl⟩, some s, w, hfind, ?_⟩, rfl⟩
      cases hhome : s.home with
      | member owner x =>
        have hne : owner ≠ mainClass := by
          rintro rfl
          exact howner ⟨x, hhome⟩
        simp only [hhome, hne, if_false]
        exact yields_pure.2 ⟨rfl, rfl⟩
      | _ =>
        simp only [hhome]
        exact yields_pure.2 ⟨rfl, rfl⟩

theorem Gen.globalFields_progress {Γ : Vars} : ∀ {ds : List Node} {w : Workspace},
    (∀ d ∈ ds, isCoreDecl Γ d) → Sober w.globals →
    ∃ items v, Yields (Gen.globalFields .outermost ds) w items v
  | [], w, _, _ => ⟨[], w, yields_pure.2 ⟨rfl, rfl⟩⟩
  | d :: ds, w, hds, hw => by
    have hd := hds d (List.mem_cons_self ..)
    have hrest := fun d hd => hds d (List.mem_cons_of_mem _ hd)
    cases d with
    | var n t i =>
      obtain ⟨first, v, h₁, hv⟩ := Gen.globalField_progress n false (.var n t i) hw
      obtain ⟨rest, u, h₂⟩ := Gen.globalFields_progress (w := v) hrest (hv ▸ hw)
      refine ⟨first ++ rest, u, ?_⟩
      simp only [Gen.globalFields, yields_bind, yields_pure]
      exact ⟨first, v, h₁, rest, u, h₂, rfl, rfl⟩
    | func n ps r b =>
      obtain ⟨rest, u, h₂⟩ := Gen.globalFields_progress hrest hw
      refine ⟨rest, u, ?_⟩
      simp only [Gen.globalFields, pure_bind, List.nil_append, yields_bind, yields_pure]
      exact ⟨rest, u, h₂, rfl, rfl⟩
    | _ => cases hd

/-- An initial value is given to a variable that is an integer or a truth value. -/
theorem Gen.initialise_progress (other : Visitor) {globals : List Symbol}
    (hregular : Regular globals) (hsober : Sober globals) {s : Symbol} (hs : s ∈ globals)
    (hd : (Gen.initOf d).isCoreExpr) (husable : exprUsable globals (Gen.initOf d))
    (hdepth : 0 ≤ w.frame.depth) :
    ∃ v, Yields (Gen.initialise other ⟨[globals], []⟩ (s, d)) w () v ∧ 0 ≤ v.frame.depth ∧
      v.frame.scopes = w.frame.scopes := by
  have hscopes : (Context.mk [globals] []).scopes.flatten = globals := by simp
  rw [← hscopes] at hregular hsober husable hs
  obtain ⟨c, t, f, hc, hcoded, -, -, hf⟩ :=
    Gen.expr_generated other rfl hregular hsober hd husable hdepth
  obtain ⟨u, hu⟩ := (hsober s hs).descriptor
  have hdrops : f.Drops 1 (f.dropped 1) := Frame.drops_dropped (by omega)
  refine ⟨w.extend (f.dropped 1) [some c, some (one (.putStatic (mainClass ++ "/" ++ s.name) u))],
    ?_, ?_, hcoded.advances.scopes⟩
  · simp only [Gen.initialise, yields_bind, Gen.yields_printPiece, Gen.yields_emit,
      yields_putStatic]
    exact ⟨_, _, hc, (), _, rfl, _, _, ⟨u, hu, rfl, hdrops⟩, by simp⟩
  · simp only [Workspace.extend_frame, Frame.dropped]
    omega

/-- The generator is in the scope of a method, and the operand stack has what it counts. -/
def Workspace.InMethod (w : Workspace) : Prop :=
  0 ≤ w.frame.depth ∧ w.frame.scopes = Frame.ofMethod.scopes

/-- The variables of a typed program are initialised. -/
theorem Gen.staticInit_progress (other : Visitor)
    (hcore : isCoreProgram ds) (hnames : (topNames ds).Nodup) {fs : Code}
    {items : List (Symbol × Node)} (hfs : Fields (globalSymbols ds) ds fs items) (w : Workspace) :
    ∃ v, Yields (Gen.staticInit other items (globalSymbols ds)) w () v := by
  have htrees := isCoreProgram.trees hcore
  have step : ∀ item ∈ items, ∀ v : Workspace, v.InMethod →
      ∃ u, Yields (Gen.initialise other ⟨[globalSymbols ds], []⟩ item) v () u ∧ u.InMethod := by
    rintro ⟨s, d⟩ hitem v ⟨hdepth, hscopes⟩
    obtain ⟨hd, n, x, -, hs, -⟩ := hfs.mem_items hitem
    have htruthy := Node.truthy_of_isExprTree (hfs.initOf_isExprTree htrees _ hitem)
    obtain ⟨τ, hτ⟩ := isCoreDecl.initOf (isCoreProgram.decl hcore hd) htruthy
    obtain ⟨u, hu, hdepth', hscopes'⟩ := Gen.initialise_progress other
      (globalSymbols_regular htrees) (globalSymbols_sober hcore) (Symbol.mem_of_find? hs)
      (Node.isCoreExpr_of_exprTy? hτ) (exprTy?.usable (globalVars_served hnames) hτ) hdepth
    exact ⟨u, hu, hdepth', hscopes'.trans hscopes⟩
  obtain ⟨w₁, h₁, -, hscopes⟩ := Act.forM_progress items step (s := w.extend .ofMethod
    [some [.method true "<clinit>" "()V"], some (label (.ofNat 0))]) ⟨Int.le_refl _, rfl⟩
  obtain ⟨v, h₂⟩ := Gen.finishMethod_progress hscopes
  exact ⟨_, Gen.withFrame_progress (yields_bind.2
    ⟨_, _, Gen.startMethod_progress "<clinit>" rfl w, yields_bind.2 ⟨_, _, h₁, h₂⟩⟩)⟩

theorem Gen.topLevel_progress (hcore : isCoreProgram ds)
    (hfuncs : ∀ d ∈ ds, funcOrdered ds d ∧ funcUsable ds d) (hd : d ∈ ds)
    (hw : w.globals = globalSymbols ds) :
    ∃ v, Yields (Gen.topLevel other d) w () v ∧ v.globals = globalSymbols ds := by
  have htrees := isCoreProgram.trees hcore
  obtain ⟨v, hv⟩ : ∃ v, Yields (Gen.topLevel other d) w () v := by
    cases d with
    | var => exact ⟨w, yields_pure.2 ⟨rfl, rfl⟩⟩
    | func => exact Gen.func_progress hcore hd (hfuncs _ hd).1 (hfuncs _ hd).2 hw
    | _ => cases isCoreProgram.decl hcore hd
  refine ⟨v, hv, ?_⟩
  rcases Gen.topLevel_yields (globalSymbols_regular htrees) (List.all_eq_true.1 htrees d hd) hw hv
    with ⟨-, qs, rfl, -⟩ | ⟨-, l, rfl, -⟩ | ⟨-, -, rfl⟩
  · exact hw
  · exact hw
  · exact hw

/-- What comes before the methods of a typed program. -/
theorem Gen.prologue_progress (other : Visitor) (hcore : isCoreProgram ds) :
    ∃ items w, Yields (Gen.prologue other .outermost ds) .initial items w := by
  have hcores : ∀ d ∈ ds, isCoreDecl (globalVars ds) d := fun d hd => isCoreProgram.decl hcore hd
  have bare : Context.outermost.Bare := rfl
  obtain ⟨w₁, h₁, -⟩ := Act.forM_progress (P := fun _ => True) ds (s := .initial)
    (fun d hd w _ => ⟨_, Gen.declareGlobal_progress other .outermost (hcores d hd) w, trivial⟩)
    trivial
  obtain ⟨hw₁, -⟩ := Gen.declareGlobals_yields bare (isCoreProgram.trees hcore) h₁
  have hglobals : w₁.globals = globalSymbols ds := by rw [hw₁]; rfl
  have noReceiver : ∀ d ∈ ds, ∀ w : Workspace, True →
      ∃ v, Yields (Gen.checkReceiver d) w ⟨⟩ v ∧ True := by
    intro d hd w _
    cases d with
    | var | func => exact ⟨w, yields_pure.2 ⟨rfl, rfl⟩, trivial⟩
    | _ => cases hcores _ hd
  obtain ⟨w₂, h₂, -⟩ := Act.forM_progress ds noReceiver (s := w₁) trivial
  obtain rfl := Gen.checkReceivers_yields h₂
  obtain ⟨items, w, h₃⟩ := Gen.globalFields_progress
    (w := w₂.extend w₂.frame [some (prolog mainClass "java.lang.Object" false)]) hcores
    (hglobals ▸ globalSymbols_sober hcore)
  refine ⟨items, w, ?_⟩
  simp only [Gen.prologue, yields_bind, Gen.yields_print]
  exact ⟨(), _, h₁, (), _, h₂, (), _, rfl, h₃⟩

/-- The generator comes to the end of the declarations of a typed program that is in order and
whose names can be used. -/
theorem Gen.declarations_progress (other : Visitor)
    (hcore : isCoreProgram ds) (hnames : (topNames ds).Nodup)
    (hfuncs : ∀ d ∈ ds, funcOrdered ds d ∧ funcUsable ds d) :
    ∃ w, Yields (Gen.declarations other ds) .initial () w := by
  have htrees := isCoreProgram.trees hcore
  obtain ⟨items, w₁, h₁⟩ := Gen.prologue_progress other hcore
  obtain ⟨hglobals, fs, hfs, -⟩ := Gen.prologue_yields htrees h₁
  obtain ⟨w₂, h₂⟩ := Gen.staticInit_progress other hcore hnames hfs w₁
  obtain ⟨ps, -, hw₂, -⟩ := Gen.staticInit_yields (globalSymbols_regular htrees)
    (hfs.initOf_isExprTree htrees) h₂
  obtain ⟨w₃, h₃, -⟩ := Act.forM_progress (k := Gen.topLevel other)
    (P := fun w => w.globals = globalSymbols ds) ds
    (fun d hd w hw => Gen.topLevel_progress hcore hfuncs hd hw) (s := w₂) (hw₂ ▸ hglobals)
  refine ⟨w₃, ?_⟩
  simp only [Gen.declarations, yields_bind, Act.yields_get]
  exact ⟨items, w₁, h₁, w₁, w₁, ⟨rfl, rfl⟩, (), w₂, hglobals ▸ h₂, h₃⟩

end Program

/-! ## Which programs are generated -/

mutual

theorem stmtReturns_eq_nil : ∀ {m : Node} {env : List Symbol} {i : Int}, m.isCoreStmt →
    stmtReturns env i m = [] := by
  intro m env i h
  cases m with
  | block ms => exact membersReturns_eq_nil h
  | ifElse c y n =>
    simp only [Node.isCoreStmt, Bool.and_eq_true] at h
    simp only [stmtReturns, stmtReturns_eq_nil h.1.1.2, stmtReturns_eq_nil h.2, List.append_nil]
  | none | var | assign => rfl
  | _ => cases h

theorem membersReturns_eq_nil : ∀ {ms : List Node} {env : List Symbol} {i : Int},
    Node.areCoreStmts ms → membersReturns env i ms = []
  | [], _, _, _ => rfl
  | m :: ms, _, _, h => by
    simp only [Node.areCoreStmts, Bool.and_eq_true] at h
    simp only [membersReturns, stmtReturns_eq_nil h.1.2, membersReturns_eq_nil h.2,
      List.append_nil]

end

section Acceptance

variable {ds : List Node}

theorem returnedTypes_returnable (hcore : isCoreProgram ds) :
    ∀ t ∈ returnedTypes ds, t.isReturnable := by
  intro t ht
  obtain ⟨d, hd, ht⟩ := List.mem_flatMap.1 ht
  cases d with
  | func n ps r b =>
    obtain ⟨-, rfl, -, hb⟩ := isCoreDecl.func (isCoreProgram.decl hcore hd)
    simp only [funcReturns, stmtReturns_eq_nil hb, List.nil_append, List.mem_singleton] at ht
    rw [ht]
    rfl
  | _ => cases ht

/-- A function that has a method is in order, and its names can be used. -/
theorem MethodOf.ordered_usable {Γ : Vars} {d : Node} {m : Code}
    (h : MethodOf (globalSymbols ds) d m) (hd : isCoreDecl Γ d) :
    funcOrdered ds d ∧ funcUsable ds d := by
  cases h with
  | @intro n ps r b _ _ _ hbody =>
    obtain ⟨-, -, -, hb⟩ := isCoreDecl.func hd
    cases hbody with
    | intro hparams hprinted _ _ =>
      obtain ⟨rfl, hindex⟩ := hparams.body_index
      have husable := hprinted.usable hb (Alike.refl _)
      rw [hindex] at husable
      exact ⟨hprinted.ordered (knows_method n ps ds), husable⟩

theorem Gen.isOk_of_declarations {w : Workspace} {c : Code}
    (h : Yields (Gen.declarations (Gen.visit 63) ds) .initial () w)
    (hc : Emit.join w.current.pieces = .ok c) : (Gen.run (.program ds)).1.isOk := by
  rw [Gen.run_eq, h]
  simp only [Workspace.write, hc]
  rfl

/-- A typed program on integers and truth values is generated if and only if no block of it
assigns first to a name that is known outside, and all names in its functions can be used.  They
can be used in every function but a main function that has parameters. -/
theorem core_generated_iff (hcore : isCoreProgram ds) (hnames : (topNames ds).Nodup) :
    ((Gen.run (.program ds)).1.isOk ↔ ∀ d ∈ ds, funcOrdered ds d ∧ funcUsable ds d) ∧
      ∀ n ps r b, .func n ps r b ∈ ds → (n = "main" → ps = []) →
        funcUsable ds (.func n ps r b) := by
  have htrees := isCoreProgram.trees hcore
  refine ⟨⟨fun hok d hd => ?_, fun hfuncs => ?_⟩, fun n ps r b hd hmain =>
    funcUsable_of_isCoreDecl hnames (isCoreProgram.decl hcore hd) hmain⟩
  · obtain ⟨c, hcode, -⟩ := Gen.run_compiled htrees (Gen.run_eq_of_isOk hok)
    cases hcode with
    | intro _ _ _ hms =>
        cases hfunc : d.isFunc with
        | true =>
            obtain ⟨m, -, hm⟩ : ∃ m ∈ _, MethodOf (globalSymbols ds) d m :=
              exists_of_mem_right hms.flip (List.mem_filter.2 ⟨hd, hfunc⟩)
            exact hm.ordered_usable (isCoreProgram.decl hcore hd)
        | false =>
            cases d with
            | func => cases hfunc
            | _ => exact ⟨rfl, rfl⟩
  · obtain ⟨w, hw⟩ := Gen.declarations_progress (Gen.visit 63) hcore hnames hfuncs
    obtain ⟨c, hc⟩ := (Gen.declarations_join htrees hw).2 (returnedTypes_returnable hcore)
    exact Gen.isOk_of_declarations hw hc

end Acceptance

/-- Each block assigns to a variable of its own before it assigns to one from outside. -/
def ownFirst : List Node :=
  [.var "g" .intType (.intLit (.int 1)),
   .func "f" [.param "a" .intType, .param "b" .boolType] .voidType (.block
     [.var "x" .intType (.binary "+" (.id "a") (.id "g")),
      .assign (.id "x") (.binary "*" (.id "x") (.intLit (.int 2))),
      .assign (.id "g") (.id "x"),
      .ifElse (.binary "||" (.id "b") (.binary "<" (.id "x") (.id "g")))
        (.block
          [.var "y" .intType (.id "x"), .assign (.id "y") (.binary "%" (.id "y") (.id "a")),
           .assign (.id "a") (.id "y")])
        (.block [])])]

/-- The block assigns to a variable of the program first. -/
def outerFirst : List Node :=
  [.var "g" .intType (.intLit (.int 1)),
   .func "main" [] .voidType (.block [.assign (.id "g") (.intLit (.int 2))])]

/-- The main function reads a parameter of its own. -/
def mainWithParam : List Node :=
  [.func "main" [.param "a" .intType] .voidType (.block [.var "b" .intType (.id "a")])]

theorem core_generated_samples :
    (isCoreProgram ownFirst ∧ (topNames ownFirst).Nodup ∧
      (Gen.run (.program ownFirst)).1.isOk) ∧
    (isCoreProgram outerFirst ∧ (topNames outerFirst).Nodup ∧
      (∀ d ∈ outerFirst, funcUsable outerFirst d) ∧ ¬ (Gen.run (.program outerFirst)).1.isOk) ∧
    (isCoreProgram mainWithParam ∧ (topNames mainWithParam).Nodup ∧
      (∀ d ∈ mainWithParam, funcOrdered mainWithParam d) ∧
      ¬ (Gen.run (.program mainWithParam)).1.isOk) := by
  refine ⟨⟨by decide, by decide, ?_⟩, ⟨by decide, by decide, by decide, ?_⟩,
    by decide, by decide, by decide, ?_⟩
  · exact (core_generated_iff (by decide) (by decide)).1.2 (by decide)
  · rw [(core_generated_iff (by decide) (by decide)).1]
    decide
  · rw [(core_generated_iff (by decide) (by decide)).1]
    decide

end MiniGoc
