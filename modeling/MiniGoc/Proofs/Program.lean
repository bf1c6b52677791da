import MiniGoc.Proofs.Printed
import MiniGoc.Listing.Decl
import Mathlib.Data.List.Forall2

/-!
# The class of a program

When a program has been generated, its class is the heading, one field for each variable,
the method that initialises them, and one method for each function, in this order.  The
last of the files written is the text of that class (`Gen.run_compiled`).

The names at the top level are known before any method is printed (`declSymbols`).  No
code is looked at then, so a constant, or a variable without a type, has no symbol and the
program is not generated.
-/

namespace MiniGoc

open Act (Yields yields_bind yields_pure)
open Emit

/-! ## The names at the top level -/

/-- The name and the type of a parameter. -/
def Node.paramParts : Node → String × Node
  | param n t => (n, t)
  | _ => ("", none)

/-- The names that a declaration adds to those at the top level. -/
def declSymbols (d : Node) : List Symbol :=
  match d with
  | .func n ps r _ => [.global n (.funcType (ps.map fun p => p.paramParts.2) r)]
  | .structType n _ _ _ => [⟨n, d, .member n true⟩]
  | .interfaceType n _ => [⟨n, d, .member n true⟩]
  | .var n t _ => [.global n t]
  | _ => []

/-- The names at the top level of a program. -/
def globalSymbols (ds : List Node) : List Symbol := Symbol.builtins ++ ds.flatMap declSymbols

/-- Whether a declaration can be generated at the top level: constants cannot. -/
def Node.isConst : Node → Bool
  | const .. => true
  | _ => false

theorem Symbol.builtins_regular : Regular Symbol.builtins where
  placed := by decide
  noMethod := by simp [Symbol.builtins, Symbol.inputOutput]
  known := by decide

theorem declSymbols_regular {d : Node} (hd : d.isDeclTree) : Regular (declSymbols d) := by
  have one {s : Symbol} {owner : String} (hhome : s.home = .member owner true)
      (ht : s.type.isKnownType) : Regular [s] :=
    { placed := by simp [hhome]
      noMethod := by simp [hhome]
      known := by simpa using ht }
  have none : Regular [] := { placed := by simp, noMethod := by simp, known := by simp }
  cases d with
  | func n ps r b =>
    simp only [Node.isDeclTree, Bool.and_eq_true] at hd
    exact one rfl hd.1.1.2
  | structType n es ms is =>
    simp only [Node.isDeclTree, Bool.and_eq_true] at hd
    exact one rfl hd.1
  | interfaceType n ms => exact one rfl rfl
  | var n t i =>
    simp only [Node.isDeclTree, Bool.and_eq_true, Bool.or_eq_true, Node.isNone_iff] at hd
    refine one rfl ?_
    rcases hd.1 with rfl | ht
    · rfl
    · exact Node.isTypeTree.isKnownType ht
  | _ => exact none

variable {ds : List Node}

theorem globalSymbols_regular (hds : ds.all Node.isDeclTree) : Regular (globalSymbols ds) := by
  refine Symbol.builtins_regular.append ?_
  induction ds with
  | nil => exact { placed := by simp, noMethod := by simp, known := by simp }
  | cons d ds ih =>
    simp only [List.all_cons, Bool.and_eq_true] at hds
    exact (declSymbols_regular hds.1).append (ih hds.2)

/-- The names at the top level of a program. -/
def topNames (ds : List Node) : List String := (globalSymbols ds).map Symbol.name

theorem globalSymbols_home {s : Symbol} (hs : s ∈ globalSymbols ds) (i : Int) :
    s.home ≠ .slot i := by
  simp only [globalSymbols, List.mem_append, List.mem_flatMap] at hs
  rcases hs with hs | ⟨d, -, hs⟩
  · have placed : ∀ s ∈ Symbol.builtins, s.home = .member "io" true := by decide
    rw [placed s hs]
    nofun
  · intro hhome
    cases d <;> simp_all [declSymbols, Symbol.global]

section Generator

variable {other : Visitor}

/-- The surroundings of a program: there are neither a frame nor a listing. -/
def Context.Bare (ctx : Context) : Prop := ctx.missing = [.frame, .listing]

theorem Context.bare (scopes : List (List Symbol)) :
    Context.Bare ⟨scopes, [.frame, .listing]⟩ := rfl

variable {ctx : Context} {w v : Workspace} {u : Unit} {ds ms : List Node} {r : Node} {f g : Frame}
  {c : Code} {ss globals : List Symbol} {n file : String} {items : List (Symbol × Node)}
  {ps : List Piece}

theorem Context.Bare.not_yields_frame (h : ctx.Bare) : ¬ Yields (ctx.need .frame) w u v :=
  Context.not_yields_need (by rw [h]; decide)

theorem Context.Bare.not_yields_needMethod (h : ctx.Bare) : ¬ Yields ctx.needMethod w u v := by
  have : ¬ ∃ t v, Yields (ctx.need .listing) w t v := by
    rintro ⟨t, v, hv⟩
    exact Context.not_yields_need (by rw [h]; decide) hv
  simp only [Context.needMethod, yields_bind]
  rintro ⟨t, v', hv, -⟩
  exact this ⟨t, v', hv⟩

/-- Outside of all methods no expression has code. -/
theorem Gen.not_yields_expr_bare (hctx : ctx.Bare) {e : Node} (he : e.isExprTree)
    {r : Piece × Node} : ¬ Yields (Gen.expr other ctx e) w r v := by
  intro h
  cases e with
  | id n =>
    simp only [Gen.expr, Gen.readId, yields_bind] at h
    obtain ⟨_, _, ⟨_, _, h, _⟩, _⟩ := h
    exact hctx.not_yields_needMethod h
  | cell | field | binary | unary | call | methodCall | arrayLit | structLit =>
    simp only [Gen.expr, yields_bind] at h
    obtain ⟨_, _, h, _⟩ := h
    exact hctx.not_yields_needMethod h
  | intLit | stringLit | nilLit =>
    simp only [Gen.expr, yields_bind] at h
    obtain ⟨_, _, h, _⟩ := h
    exact hctx.not_yields_frame h
  | floatLit | boolLit =>
    simp only [Gen.expr, yields_bind] at h
    obtain ⟨_, _, _, _, _, h, _⟩ := h
    exact hctx.not_yields_frame h
  | _ => cases he

theorem Gen.typeOf_bare (hctx : ctx.Bare) {t u : Node} (ht : t.isTypeTree)
    (h : Yields (Gen.typeOf other ctx t) w u v) : u = t ∧ v = w := by
  cases t with
  | id n =>
    simp only [Gen.typeOf, Gen.readId, yields_bind] at h
    obtain ⟨_, _, ⟨_, _, h, _⟩, _⟩ := h
    exact absurd h hctx.not_yields_needMethod
  | intType | floatType | boolType | stringType | voidType | arrayType =>
    exact yields_pure.1 h
  | _ => cases ht

theorem Gen.paramTypes_bare (hctx : ctx.Bare) :
    ∀ {ps : List Node} {ts : List Node} {w v : Workspace}, ps.all Node.isParamTree →
      Yields (Gen.paramTypes other ctx ps) w ts v →
      ts = ps.map (fun p => p.paramParts.2) ∧ v = w
  | [], ts, w, v, _, h => yields_pure.1 h
  | p :: ps, ts, w, v, hps, h => by
    simp only [List.all_cons, Bool.and_eq_true] at hps
    cases p with
    | param n t =>
      simp only [Gen.paramTypes, Gen.param, yields_bind, yields_pure] at h
      obtain ⟨_, _, ⟨rfl, rfl⟩, u, v₁, h₁, us, v₂, h₂, rfl, rfl⟩ := h
      obtain ⟨rfl, rfl⟩ := Gen.typeOf_bare hctx hps.1 h₁
      obtain ⟨rfl, rfl⟩ := Gen.paramTypes_bare hctx hps.2 h₂
      exact ⟨rfl, rfl⟩
    | _ => cases hps.1

/-- A declaration of the program adds its names, and is no constant. -/
theorem Gen.declareGlobal_yields (hctx : ctx.Bare) {d : Node} (hd : d.isDeclTree)
    (h : Yields (Gen.declareGlobal other ctx d) w u v) :
    v = { w with globals := w.globals ++ declSymbols d } ∧ d.isConst = false := by
  simp only [Gen.declareGlobal, Gen.globalContext, yields_bind, Act.yields_get,
    yields_pure] at h
  obtain ⟨here, w₀, ⟨_, _, ⟨rfl, rfl⟩, rfl, rfl⟩, h⟩ := h
  have bare := Context.bare [w₀.globals]
  cases d with
  | func n ps r b =>
    simp only [Node.isDeclTree, Bool.and_eq_true] at hd
    simp only [yields_bind, Gen.addGlobal, Act.yields_modify] at h
    obtain ⟨ts, _, h₁, r', _, h₂, rfl⟩ := h
    obtain ⟨rfl, rfl⟩ := Gen.paramTypes_bare bare hd.1.1.1 h₁
    obtain ⟨rfl, rfl⟩ := Gen.typeOf_bare bare hd.1.1.2 h₂
    exact ⟨rfl, rfl⟩
  | structType | interfaceType => exact ⟨Act.yields_modify.1 h, rfl⟩
  | var n t i =>
    simp only [Node.isDeclTree, Bool.and_eq_true, Bool.or_eq_true, Node.isNone_iff] at hd
    rcases hd with ⟨rfl | ht, hi⟩
    · simp only [show Node.none.truthy = false from rfl, Bool.false_eq_true, if_false, pure_bind,
        Node.isNone, Bool.true_and] at h
      rcases hi with rfl | hi
      · simp only [Node.truthy, Bool.false_eq_true, if_false, Gen.addGlobal,
          Act.yields_modify] at h
        exact ⟨h, rfl⟩
      · rw [if_pos (Node.truthy_of_isExprTree hi)] at h
        simp only [Gen.exprType, yields_bind, Act.yields_get, yields_pure] at h
        obtain ⟨_, w₁, ⟨rfl, rfl⟩, _, _, ⟨r, _, h, _⟩, _⟩ := h
        have bare' : Context.Bare ⟨w₁.globals :: ctx.scopes.tail, ctx.missing⟩ := hctx
        exact absurd h (Gen.not_yields_expr_bare bare' hi)
    · simp only [Node.truthy_of_isTypeTree ht, if_true, yields_bind] at h
      obtain ⟨u, _, h₁, h⟩ := h
      obtain ⟨rfl, rfl⟩ := Gen.typeOf_bare bare ht h₁
      have hu : u.isNone = false := by
        cases u <;> simp_all [Node.isTypeTree, Node.isNone]
      simp only [hu, Bool.false_and, Bool.false_eq_true, if_false, pure_bind, Gen.addGlobal,
        Act.yields_modify] at h
      exact ⟨h, rfl⟩
  | const n t i =>
    simp only [Node.isDeclTree] at hd
    simp only [Gen.exprType, yields_bind] at h
    obtain ⟨_, _, _, _, _, ⟨r, _, h, _⟩, _⟩ := h
    exact absurd h (Gen.not_yields_expr_bare bare hd)
  | method r t f =>
    obtain ⟨-, rfl⟩ := yields_pure.1 h
    exact ⟨by simp [declSymbols], rfl⟩
  | _ => cases hd

/-- The first pass over a program adds the names of all declarations. -/
theorem Gen.declareGlobals_yields (hctx : ctx.Bare) :
    ∀ {ds : List Node} {w v : Workspace} {u : Unit}, ds.all Node.isDeclTree →
      Yields (ds.forM (Gen.declareGlobal other ctx)) w u v →
      v = { w with globals := w.globals ++ ds.flatMap declSymbols } ∧
        ∀ d ∈ ds, d.isConst = false
  | [], w, v, u, _, h => by
    obtain rfl := Act.yields_forM_nil.1 h
    simp
  | d :: ds, w, v, u, hds, h => by
    simp only [List.all_cons, Bool.and_eq_true] at hds
    obtain ⟨_, h₁, h₂⟩ := Act.yields_forM_cons.1 h
    obtain ⟨rfl, hconst⟩ := Gen.declareGlobal_yields hctx hds.1 h₁
    obtain ⟨rfl, hconsts⟩ := Gen.declareGlobals_yields hctx hds.2 h₂
    refine ⟨by simp, ?_⟩
    simpa using ⟨hconst, hconsts⟩

theorem Gen.checkReceivers_yields (h : Yields (ds.forM Gen.checkReceiver) w u v) : v = w := by
  induction ds generalizing w u with
  | nil => exact Act.yields_forM_nil.1 h
  | cons d ds ih =>
    obtain ⟨v', h₁, h₂⟩ := Act.yields_forM_cons.1 h
    obtain rfl := ih h₂
    cases d with
    | method r t f =>
      simp only [Gen.checkReceiver, yields_bind, Gen.yields_require, Act.yields_get] at h₁
      obtain ⟨_, _, ⟨_, rfl⟩, _, _, ⟨rfl, rfl⟩, s, _, ⟨_, rfl⟩, h₁⟩ := h₁
      split at h₁
      · exact absurd h₁ Act.yields_throw
      · exact absurd h₁ Act.yields_throw
      · exact (yields_pure.1 h₁).2
    | _ => exact (yields_pure.1 h₁).2

/-! ## Methods -/

/-- The frame inside the scope of a method. -/
def Frame.ofMethod : Frame := ({} : Frame).entered true

/-- The lines that close a method, before its last one. -/
def limitLines (f : Frame) : Code :=
  [.limitStack (.number f.maxDepth), .limitLocals (.number f.maxIndex)]

/-- The lines of a method, from its heading to its end. -/
def methodCode (name type : String) (body : Code) : Code :=
  .method true name type :: body ++ [Line.endMethod]

theorem Gen.withFrame_yields {α : Type} {m : Gen α} {a : α} (h : Yields (Gen.withFrame m) w a v) :
    ∃ u, Yields m (w.extend {} []) a u ∧ v = { u with frame := w.frame } := by
  simp only [Gen.withFrame, yields_bind, Act.yields_get, Act.yields_andFinally,
    Act.yields_modify] at h
  obtain ⟨_, _, ⟨rfl, rfl⟩, u, ⟨_, _, rfl, h⟩, rfl⟩ := h
  refine ⟨u, ?_, rfl⟩
  simpa [Workspace.extend] using h

theorem Gen.startMethod_yields {name : String} {type : Node}
    (h : Yields (Gen.startMethod name type true) (w.extend {} []) u v) :
    ∃ d, type.descriptor = .ok d ∧
      v = w.extend .ofMethod [some [.method true name d], some (label (.ofNat 0))] := by
  simp only [Gen.startMethod, Gen.printLabel, yields_bind, Gen.yields_emit, yields_method,
    Gen.yields_onFrame, Frame.yields_enterScope, Frame.yields_startLabel, yields_pure] at h
  obtain ⟨_, _, ⟨_, _, ⟨d, hd, rfl, rfl⟩, rfl⟩, _, _, ⟨_, rfl, rfl⟩, _, _,
    ⟨_, _, ⟨s, hs, rfl, rfl⟩, rfl, rfl⟩, rfl⟩ := h
  simp only [Workspace.extend_frame] at hs
  cases hs
  exact ⟨d, hd, by simp [Frame.ofMethod]⟩

theorem Gen.finishMethod_yields (h : Yields (Gen.finishMethod r) w u v) :
    ∃ s f g, w.frame.scopes.head? = some s ∧ w.frame.Drops (retCount r) f ∧
      v = w.extend g [some (label (.ofNat s.stop)), retPiece r,
        some (limitLines f ++ [Line.endMethod])] := by
  simp only [Gen.finishMethod, Gen.printLabel, yields_bind, Gen.yields_emit,
    Frame.yields_endLabel, yields_pure, Gen.yields_onFrame, yields_ret,
    Gen.yields_printPiece, yields_endMethod] at h
  obtain ⟨_, _, ⟨_, _, ⟨_, _, ⟨s, hs, rfl, rfl⟩, rfl, rfl⟩, rfl⟩, _, _, ⟨_, ⟨rfl, hf⟩, rfl⟩, _, _,
    rfl, _, _, ⟨_, f, ⟨rfl, rfl⟩, rfl⟩, g, -, rfl⟩ := h
  exact ⟨s, f, g, hs, hf, by simp [limitLines]⟩

/-! ### Parameters -/

/-- The slots of parameters, with the lines for them. -/
inductive Params : List (String × Node) → Frame → Code → List Symbol → Frame → Prop where
  | nil {f : Frame} : Params [] f [] [] f
  | cons {n : String} {t : Node} {ps : List (String × Node)} {f : Frame} {s d} {c : Code}
      {ss : List Symbol} {g : Frame} : f.scopes.head? = some s → t.descriptor = .ok d →
      Params ps f.indexed c ss g →
      Params ((n, t) :: ps) f (slotLine s f.index n d :: c) (.localVar n t f.index :: ss) g

theorem Params.advances {ps : List (String × Node)} (h : Params ps f c ss g) : f.Advances g := by
  induction h with
  | nil => exact .refl _
  | cons _ _ _ ih => exact (Frame.advances_indexed _).trans ih

theorem Params.regular {ps : List (String × Node)} (h : Params ps f c ss g)
    (hps : ∀ p ∈ ps, p.2.isKnownType) : Regular ss := by
  induction h with
  | nil => exact { placed := by simp, noMethod := by simp, known := by simp }
  | @cons n t ps f s d c ss g _ _ _ ih =>
    have first : Regular [.localVar n t f.index] :=
      { placed := by simp [Symbol.localVar]
        noMethod := by simp [Symbol.localVar]
        known := by simpa [Symbol.localVar] using hps (n, t) (List.mem_cons_self ..) }
    exact first.append (ih fun p hp => hps p (List.mem_cons_of_mem _ hp))

theorem Node.isKnownType_paramParts {p : Node} (hp : p.isParamTree) :
    p.paramParts.2.isKnownType := by
  cases p with
  | param n t => exact Node.isTypeTree.isKnownType hp
  | _ => cases hp

theorem Gen.declareParam_yields {t : Node} {s : Symbol} (h : Yields (Gen.declareParam n t) w s v) :
    ∃ sc d, w.frame.scopes.head? = some sc ∧ t.descriptor = .ok d ∧
      s = .localVar n t w.frame.index ∧
      v = w.extend w.frame.indexed [some [slotLine sc w.frame.index n d]] := by
  simp only [Gen.declareParam, yields_bind, Gen.yields_onFrame, Frame.yields_newIndex,
    Gen.yields_printVar, yields_pure] at h
  obtain ⟨_, _, ⟨_, ⟨rfl, rfl⟩, rfl⟩, _, _, ⟨sc, d, hsc, hd, rfl⟩, rfl, rfl⟩ := h
  exact ⟨sc, d, hsc, hd, rfl, by simp⟩

theorem Gen.declareParams_yields :
    ∀ {ps : List Node} {w v : Workspace} {ss : List Symbol}, ps.all Node.isParamTree →
      Yields (Gen.declareParams ps) w ss v →
      ∃ c f, v = w.extend f (linePieces c) ∧ Params (ps.map Node.paramParts) w.frame c ss f
  | [], w, v, ss, _, h => by
    obtain ⟨rfl, rfl⟩ := yields_pure.1 h
    exact ⟨[], v.frame, by simp, .nil⟩
  | p :: ps, w, v, ss, hps, h => by
    simp only [List.all_cons, Bool.and_eq_true] at hps
    cases p with
    | param n t =>
      simp only [Gen.declareParams, Gen.param, yields_bind, yields_pure] at h
      obtain ⟨_, _, ⟨rfl, rfl⟩, s, v₁, h₁, ss', v₂, h₂, rfl, rfl⟩ := h
      obtain ⟨sc, d, hsc, hd, rfl, rfl⟩ := Gen.declareParam_yields h₁
      obtain ⟨c, f, rfl, hc⟩ := Gen.declareParams_yields hps.2 h₂
      exact ⟨_, f, by simp, .cons hsc hd hc⟩
    | _ => cases hps.1

theorem Gen.paramTypes_yields :
    ∀ {ps : List Node} {w v : Workspace} {ts : List Node}, ps.all Node.isParamTree →
      Yields (ps.mapM fun p => do return (← Gen.param p).2) w ts v →
      ts = ps.map (fun p => p.paramParts.2) ∧ v = w
  | [], w, v, ts, _, h => yields_pure.1 (by simpa using h)
  | p :: ps, w, v, ts, hps, h => by
    simp only [List.all_cons, Bool.and_eq_true] at hps
    cases p with
    | param n t =>
      simp only [List.mapM_cons, Gen.param, pure_bind, yields_bind, yields_pure] at h
      obtain ⟨us, _, h, rfl, rfl⟩ := h
      obtain ⟨rfl, rfl⟩ := Gen.paramTypes_yields hps.2 h
      exact ⟨rfl, rfl⟩
    | _ => cases hps.1

/-! ### Functions -/

/-- The parameters of a function as its method has them.  The main function is given the
arguments of the command line, whatever its own parameters are. -/
def methodParams (name : String) (ps : List Node) : List (String × Node) :=
  if name = "main" then [("args", Gen.commandLine)] else ps.map Node.paramParts

/-- The type of the method of a function. -/
def methodType (name : String) (ps : List Node) (r : Node) : Node :=
  if name = "main" then .funcType [Gen.commandLine] .voidType
  else .funcType (ps.map fun p => p.paramParts.2) r

/-- The lines of the method of a function between its heading and its end. -/
inductive FuncBody (globals : List Symbol) (params : List (String × Node)) (result body : Node) :
    Code → Prop where
  | intro {c ss f d g rc h} : Params params .ofMethod c ss f →
      Printed (ss ++ globals) (.stmt body) f d g → retPiece result = some rc →
      g.Drops (retCount result) h →
      FuncBody globals params result body
        (label (.ofNat 0) ++ c ++ d ++ label (.ofNat 1) ++ rc ++ limitLines h)

/-- The method of a declaration that is a function. -/
inductive MethodOf (globals : List Symbol) : Node → Code → Prop where
  | intro {n ps r b type body} : (methodType n ps r).descriptor = .ok type →
      FuncBody globals (methodParams n ps) r b body →
      MethodOf globals (.func n ps r b) (methodCode n type body)

/-- The first lines of the method of a function.  They give back its parameters. -/
def Gen.openFunc (n : String) (ps : List Node) (r : Node) : Gen (List Symbol) :=
  if n = "main" then do
    Gen.startMethod n (.funcType [Gen.commandLine] .voidType) true
    return [← Gen.declareParam "args" Gen.commandLine]
  else do
    let types ← ps.mapM fun p => do return (← Gen.param p).2
    Gen.startMethod n (.funcType types r) true
    Gen.declareParams ps

theorem Gen.func_eq (other : Visitor) (globals : List Symbol) (n : String)
    (ps : List Node) (r b : Node) :
    Gen.func other ⟨[globals], [.frame]⟩ n ps r b = Gen.withFrame (do
      let ss ← Gen.openFunc n ps r
      Gen.stmt other (Context.enter ⟨[globals], [.frame]⟩ ss) b
      Gen.finishMethod r) := by
  have hneed : ∀ x ≠ Need.frame, Context.need ⟨[globals], [.frame]⟩ x = pure () := by
    intro x hx
    simp [Context.need, hx]
  simp only [Gen.func, hneed .listing (by decide), hneed .scopes (by decide), pure_bind,
    Gen.openFunc]
  split <;> simp

/-- A function opens its method with its parameters in the first slots. -/
theorem Gen.openFunc_yields {ps : List Node}
    (hps : ps.all Node.isParamTree) (h : Yields (Gen.openFunc n ps r) (w.extend {} []) ss v) :
    ∃ c type, (methodType n ps r).descriptor = .ok type ∧
      Params (methodParams n ps) .ofMethod c ss v.frame ∧ Regular ss ∧ v = w.extend v.frame
        ([some [.method true n type], some (label (.ofNat 0))] ++ linePieces c) := by
  by_cases hmain : n = "main"
  · simp only [Gen.openFunc, hmain, if_true, yields_bind, yields_pure] at h
    obtain ⟨_, _, h₁, s, _, h₂, rfl, rfl⟩ := h
    obtain ⟨d, hd, rfl⟩ := Gen.startMethod_yields h₁
    obtain ⟨sc, d', hsc, hd', rfl, rfl⟩ := Gen.declareParam_yields h₂
    have hparams : Params [("args", Gen.commandLine)] .ofMethod _ _ _ := .cons hsc hd' .nil
    exact ⟨_, d, by simpa [methodType, hmain] using hd,
      by simpa [methodParams, hmain] using hparams,
      hparams.regular (by simp [Gen.commandLine, Node.isKnownType, Node.isElementTree]),
      by simp [hmain, linePieces]⟩
  · simp only [Gen.openFunc, hmain, if_false, yields_bind] at h
    obtain ⟨ts, _, h₀, _, _, h₁, h₂⟩ := h
    obtain ⟨rfl, rfl⟩ := Gen.paramTypes_yields hps h₀
    obtain ⟨d, hd, rfl⟩ := Gen.startMethod_yields h₁
    obtain ⟨c, f, rfl, hparams⟩ := Gen.declareParams_yields hps h₂
    have hknown : ∀ p ∈ ps.map Node.paramParts, p.2.isKnownType := by
      intro p hp
      obtain ⟨q, hq, rfl⟩ := List.mem_map.1 hp
      exact Node.isKnownType_paramParts (List.all_eq_true.1 hps q hq)
    exact ⟨c, d, by simpa [methodType, hmain] using hd,
      by simpa [methodParams, hmain] using hparams,
      hparams.regular hknown, by simp⟩

/-- The body of a function, between the start and the end of its method. -/
theorem Gen.funcBody_yields {params : List (String × Node)} {b : Node} {u : Workspace}
    {x y : Unit} {type : String} (hglobals : Regular globals) (hss : Regular ss)
    (hparams : Params params .ofMethod c ss f) (hb : b.isStmtTree) (hblock : b.isBlock)
    (h : Yields (Gen.stmt other (Context.enter ⟨[globals], [.frame]⟩ ss) b)
      (w.extend f ([some [.method true n type], some (label (.ofNat 0))] ++ linePieces c)) x v)
    (h' : Yields (Gen.finishMethod r) v y u) :
    ∃ ps g, u = w.extend g ps ∧ ∀ code, Emit.join ps = .ok code →
      ∃ body, code = methodCode n type body ∧ FuncBody globals params r b body := by
  have hregular : Regular (Context.enter ⟨[globals], [.frame]⟩ ss).scopes.flatten := by
    simpa using hss.append hglobals
  have noName : ∀ x, b.declared? = some x →
      HasSlot (Context.enter ⟨[globals], [.frame]⟩ ss).scopes.flatten x := by
    simp [Node.declared?_of_isBlock hblock]
  obtain ⟨qs, g, rfl, hadvances, hqs, -⟩ := stmtPrinted rfl hregular hb noName h
  obtain ⟨s, k, k', hs, hk, rfl⟩ := Gen.finishMethod_yields h'
  refine ⟨[[Line.method true n type], label (.ofNat 0)].map some ++ (linePieces c ++ (qs ++
    ([label (.ofNat s.stop)].map some ++ ([retPiece r] ++
    [limitLines k ++ [Line.endMethod]].map some)))), k', by simp, fun code hcode => ?_⟩
  simp only [Emit.join_append, Emit.join_map_some, Emit.join_singleton, join_linePieces,
    Except.ok.injEq] at hcode
  obtain ⟨_, _, rfl, ⟨_, _, rfl, ⟨d, _, hd, ⟨_, _, rfl, ⟨rc, _, hrc, rfl, rfl⟩, rfl⟩, rfl⟩, rfl⟩,
    rfl⟩ := hcode
  have hprinted : Printed (ss ++ globals) (.stmt b) f d g := by simpa using hqs d hd
  have hscopes : g.scopes = Frame.ofMethod.scopes :=
    hadvances.scopes.trans hparams.advances.scopes
  simp only [Workspace.extend_frame, hscopes] at hs
  cases hs
  exact ⟨_, by simp [methodCode], .intro hparams hprinted hrc hk⟩

/-- A function prints its method. -/
theorem Gen.func_yields {ps : List Node} {b : Node} {x : Unit} (hglobals : Regular globals)
    (hd : (Node.func n ps r b).isDeclTree)
    (h : Yields (Gen.func other ⟨[globals], [.frame]⟩ n ps r b) w x v) :
    ∃ qs, v = w.extend w.frame qs ∧ ∀ code, Emit.join qs = .ok code →
      MethodOf globals (.func n ps r b) code := by
  simp only [Node.isDeclTree, Bool.and_eq_true] at hd
  obtain ⟨⟨⟨hps, hr⟩, hblock⟩, hb⟩ := hd
  rw [Gen.func_eq] at h
  obtain ⟨u, hbody, rfl⟩ := Gen.withFrame_yields h
  simp only [yields_bind] at hbody
  obtain ⟨ss, v₁, h₁, _, _, h₂, h₃⟩ := hbody
  obtain ⟨c, type, htype, hparams, hss, hv₁⟩ := Gen.openFunc_yields hps h₁
  rw [hv₁] at h₂
  obtain ⟨qs, g, rfl, hqs⟩ := Gen.funcBody_yields hglobals hss hparams hb hblock h₂ h₃
  refine ⟨qs, rfl, fun code hcode => ?_⟩
  obtain ⟨body, rfl, hbody⟩ := hqs code hcode
  exact .intro htype hbody

/-! ## Fields and their initialisation -/

/-- The fields of a program, and those that have an initialiser. -/
inductive Fields (globals : List Symbol) : List Node → Code → List (Symbol × Node) → Prop where
  | nil : Fields globals [] [] []
  | field {d ds n s x t c items} : d.declared? = some n → Symbol.find? n globals = some s →
      s.home = .member mainClass x → s.type.descriptor = .ok t → Fields globals ds c items →
      Fields globals (d :: ds) (.field true d.isConst n t none :: c)
        ((if (Gen.initOf d).truthy then [(s, d)] else []) ++ items)
  | skip {d ds c items} : (∀ n s x, d.declared? = some n → Symbol.find? n globals = some s →
      s.home ≠ .member mainClass x) → Fields globals ds c items → Fields globals (d :: ds) c items

/-- The code that initialises fields, one after the other. -/
inductive Initialised (globals : List Symbol) : List (Symbol × Node) → Frame → Code → Frame → Prop
    where
  | nil {f : Frame} : Initialised globals [] f [] f
  | cons {s d} {items : List (Symbol × Node)} {f : Frame} {c : Code} {u} {g : Frame} {t h}
      {c' : Code} {k} : Coded globals (.expr (Gen.initOf d)) f c u g →
      s.type.descriptor = .ok t → g.Drops 1 h → Initialised globals items h c' k →
      Initialised globals ((s, d) :: items) f
        (c ++ one (.putStatic (mainClass ++ "/" ++ s.name) t) ++ c') k

theorem Initialised.advances (h : Initialised globals items f c g) : f.Advances g := by
  induction h with
  | nil => exact .refl _
  | cons hc _ hd _ ih => exact (hc.advances.drops hd).trans ih

/-- The lines of the method that initialises fields, between its heading and its end. -/
inductive InitBody (globals : List Symbol) (items : List (Symbol × Node)) : Code → Prop where
  | intro {c : Code} {f : Frame} : Initialised globals items .ofMethod c f →
      InitBody globals items (label (.ofNat 0) ++ c ++ label (.ofNat 1) ++ one .ret ++ limitLines f)

theorem Gen.globalField_yields (hctx : ctx.Bare) (hscopes : ctx.scopes.tail = []) {d : Node}
    {isFinal : Bool} (h : Yields (Gen.globalField ctx n isFinal d) w items v) :
    (∃ s x t, Symbol.find? n w.globals = some s ∧ s.home = .member mainClass x ∧
      s.type.descriptor = .ok t ∧ v = w.extend w.frame [some [.field true isFinal n t none]] ∧
      items = if (Gen.initOf d).truthy then [(s, d)] else []) ∨
    ((∀ s x, Symbol.find? n w.globals = some s → s.home ≠ .member mainClass x) ∧ v = w ∧
      items = []) := by
  have find {w v : Workspace} {o : Option Symbol} (gs : List Symbol) :
      Yields (Context.find? ⟨gs :: ctx.scopes.tail, ctx.missing⟩ n) w o v ↔
        o = Symbol.find? n gs ∧ v = w := by
    have hmissing : ctx.missing = [.frame, .listing] := hctx
    simp [Context.find?, Context.need, hmissing, hscopes, and_comm]
  simp only [Gen.globalField, yields_bind, Act.yields_get, find] at h
  obtain ⟨_, _, ⟨rfl, rfl⟩, o, w₀, ⟨rfl, rfl⟩, h⟩ := h
  cases hs : Symbol.find? n w₀.globals with
  | none =>
    rw [hs] at h
    obtain ⟨rfl, rfl⟩ := yields_pure.1 h
    exact .inr ⟨by simp, rfl, rfl⟩
  | some s =>
    simp only [hs] at h
    cases hhome : s.home with
    | member owner x =>
      simp only [hhome] at h
      split at h
      · next howner =>
        subst howner
        simp only [yields_bind, Gen.yields_emit, yields_fieldLine, yields_pure] at h
        obtain ⟨_, _, ⟨_, _, ⟨t, ht, rfl, rfl⟩, rfl⟩, rfl, rfl⟩ := h
        exact .inl ⟨s, x, t, rfl, hhome, ht, rfl, rfl⟩
      · next howner =>
        obtain ⟨rfl, rfl⟩ := yields_pure.1 h
        refine .inr ⟨?_, rfl, rfl⟩
        intro s' x' hs' hhome'
        cases hs'
        rw [hhome] at hhome'
        cases hhome'
        exact howner rfl
    | _ =>
      simp only [hhome] at h
      obtain ⟨rfl, rfl⟩ := yields_pure.1 h
      refine .inr ⟨?_, rfl, rfl⟩
      intro s' x' hs' hhome'
      cases hs'
      cases hhome.symm.trans hhome'

theorem Gen.globalFields_yields (hctx : ctx.Bare) (hscopes : ctx.scopes.tail = []) :
    ∀ {ds : List Node} {w v : Workspace} {items : List (Symbol × Node)},
      Yields (Gen.globalFields ctx ds) w items v →
      ∃ c, v = w.extend w.frame (linePieces c) ∧ Fields w.globals ds c items
  | [], w, v, items, h => by
    obtain ⟨rfl, rfl⟩ := yields_pure.1 h
    exact ⟨[], by simp, .nil⟩
  | d :: ds, w, v, items, h => by
    have next {v : Workspace} {first rest : List (Symbol × Node)} {n : String}
        (hn : d.declared? = some n)
        (h₁ : Yields (Gen.globalField ctx n d.isConst d) w first v)
        {v' : Workspace} (h₂ : Yields (Gen.globalFields ctx ds) v rest v') :
        ∃ c, v' = w.extend w.frame (linePieces c) ∧
          Fields w.globals (d :: ds) c (first ++ rest) := by
      rcases Gen.globalField_yields hctx hscopes h₁ with
        ⟨s, x, t, hs, hhome, ht, rfl, rfl⟩ | ⟨hnone, rfl, rfl⟩
      · obtain ⟨c, rfl, hc⟩ := Gen.globalFields_yields hctx hscopes h₂
        exact ⟨_, by simp, .field hn hs hhome ht hc⟩
      · obtain ⟨c, rfl, hc⟩ := Gen.globalFields_yields hctx hscopes h₂
        refine ⟨c, rfl, .skip ?_ hc⟩
        intro n' s x hn' hs
        cases hn.symm.trans hn'
        exact hnone s x hs
    have skip {rest : List (Symbol × Node)} {v : Workspace} (hn : d.declared? = none)
        (h₂ : Yields (Gen.globalFields ctx ds) w rest v) :
        ∃ c, v = w.extend w.frame (linePieces c) ∧ Fields w.globals (d :: ds) c rest := by
      obtain ⟨c, rfl, hc⟩ := Gen.globalFields_yields hctx hscopes h₂
      exact ⟨c, rfl, .skip (by simp [hn]) hc⟩
    cases d with
    | var n t i | const n t i =>
      simp only [Gen.globalFields, yields_bind, yields_pure] at h
      obtain ⟨first, v₁, h₁, rest, v₂, h₂, rfl, rfl⟩ := h
      exact next rfl h₁ h₂
    | _ =>
      simp only [Gen.globalFields, pure_bind, List.nil_append, yields_bind,
        yields_pure] at h
      obtain ⟨rest, v₂, h₂, rfl, rfl⟩ := h
      exact skip rfl h₂

theorem Gen.initialise_yields (hglobals : Regular globals) :
    ∀ {items : List (Symbol × Node)} {w v : Workspace} {u : Unit},
      (∀ item ∈ items, (Gen.initOf item.2).isExprTree) →
      Yields (items.forM (Gen.initialise other ⟨[globals], []⟩)) w u v →
      ∃ (cs : List Code) (f : Frame), v = w.extend f (cs.map some) ∧
        Initialised globals items w.frame cs.flatten f
  | [], w, v, u, _, h => by
    obtain rfl := Act.yields_forM_nil.1 h
    exact ⟨[], v.frame, by simp, .nil⟩
  | (s, d) :: items, w, v, u, hitems, h => by
    obtain ⟨v', h₁, h₂⟩ := Act.yields_forM_cons.1 h
    simp only [Gen.initialise, yields_bind, Gen.yields_printPiece, Gen.yields_emit,
      yields_putStatic] at h₁
    obtain ⟨⟨p, t⟩, v₁, h₁, _, _, rfl, _, g, ⟨t', ht', rfl, hg⟩, rfl⟩ := h₁
    have hregular : Regular (Context.mk [globals] []).scopes.flatten := by simpa using hglobals
    obtain ⟨c, f, rfl, rfl, hc, -⟩ :=
      exprCoded rfl hregular (hitems _ (List.mem_cons_self ..)) h₁
    obtain ⟨cs, k, rfl, hcs⟩ := Gen.initialise_yields hglobals
      (fun item hitem => hitems item (List.mem_cons_of_mem _ hitem)) h₂
    refine ⟨c :: one (.putStatic (mainClass ++ "/" ++ s.name) t') :: cs, k, by simp, ?_⟩
    simpa using Initialised.cons (by simpa using hc) ht' hg hcs

/-- The initialisers that are kept are those of declarations. -/
theorem Fields.initOf_isExprTree (h : Fields globals ds c items) (hds : ds.all Node.isDeclTree) :
    ∀ item ∈ items, (Gen.initOf item.2).isExprTree := by
  induction h with
  | nil => simp
  | @field d ds n s x t c items hn _ _ _ _ ih =>
    simp only [List.all_cons, Bool.and_eq_true] at hds
    intro item hitem
    rcases List.mem_append.1 hitem with hitem | hitem
    · split at hitem
      · next htruthy =>
        obtain rfl := List.mem_singleton.1 hitem
        cases d with
        | var m u i =>
          simp only [Node.isDeclTree, Bool.and_eq_true, Bool.or_eq_true, Node.isNone_iff] at hds
          rcases hds.1.2 with rfl | hi
          · cases htruthy
          · exact hi
        | const m u i => exact hds.1
        | _ => cases hn
      · cases hitem
    · exact ih hds.2 item hitem
  | skip _ _ ih =>
    simp only [List.all_cons, Bool.and_eq_true] at hds
    exact ih hds.2

/-- The method that initialises the fields. -/
theorem Gen.staticInit_yields (hglobals : Regular globals)
    (hitems : ∀ item ∈ items, (Gen.initOf item.2).isExprTree)
    (h : Yields (Gen.staticInit other items globals) w u v) :
    ∃ ps body, v = w.extend w.frame ps ∧ Emit.join ps = .ok (methodCode "<clinit>" "()V" body) ∧
      InitBody globals items body := by
  obtain ⟨u', hbody, rfl⟩ := Gen.withFrame_yields h
  simp only [yields_bind] at hbody
  obtain ⟨_, _, h₁, _, _, h₂, h₃⟩ := hbody
  obtain ⟨d, hd, rfl⟩ := Gen.startMethod_yields h₁
  cases hd
  obtain ⟨cs, f, rfl, hcs⟩ := Gen.initialise_yields hglobals hitems h₂
  obtain ⟨s, k, k', hs, hk, rfl⟩ := Gen.finishMethod_yields h₃
  obtain rfl := Frame.drops_zero.1 hk
  have hscopes : k.scopes = Frame.ofMethod.scopes := hcs.advances.scopes
  simp only [Workspace.extend_frame, hscopes] at hs
  cases hs
  refine ⟨([[Line.method true "<clinit>" "()V"], label (.ofNat 0)] ++ cs ++
    [label (.ofNat 1), one .ret, limitLines k ++ [Line.endMethod]]).map some, _, ?_, ?_, .intro hcs⟩
  · simp [Workspace.extend, retPiece]
  · rw [Emit.join_map_some]
    simp [methodCode]

/-! ## Structs and interfaces

Each prints a listing of its own, writes its file, and leaves the class of the program
alone. -/

def Listing.code (l : Listing) : Code := l.pieces.flatMap fun p => p.getD []

theorem Listing.code_of_join (h : Emit.join ps = .ok c) : Listing.code ⟨file, ps⟩ = c := by
  obtain ⟨cs, rfl, rfl⟩ := Emit.join_eq_ok.1 h
  simp [Listing.code, List.flatMap_map]

/-- The workspace in which a listing of its own is printed. -/
def Workspace.opened (w : Workspace) (file : String) : Workspace :=
  { w with current := ⟨file, []⟩, others := w.others ++ [⟨file, []⟩] }

/-- The workspace after another listing has been printed and written to its file. -/
def Workspace.filed (w : Workspace) (l : Listing) : Workspace :=
  { w with others := w.others ++ [l], files := Gen.setFile l.file l.code.render w.files }

theorem Workspace.extend_opened_current (w : Workspace) (file : String) (f : Frame)
    (ps : List Piece) : ((w.opened file).extend f ps).current = ⟨file, ps⟩ := by
  simp [Workspace.opened, Workspace.extend]

theorem Gen.setFile_setFile (name text text' : String) :
    ∀ files, Gen.setFile name text' (Gen.setFile name text files) = Gen.setFile name text' files
  | [] => by simp [Gen.setFile]
  | (n, t) :: files => by
    by_cases h : n = name
    · simp [Gen.setFile, h]
    · simp [Gen.setFile, h, Gen.setFile_setFile name text text' files]

theorem Gen.writeFile_yields (h : Yields Gen.writeFile w u v) :
    ∃ c, Emit.join w.current.pieces = .ok c ∧
      v = { w with files := Gen.setFile w.current.file c.render w.files } := by
  simp only [Gen.writeFile, yields_bind, Act.yields_get, Act.yields_modify,
    Gen.yields_join] at h
  obtain ⟨_, _, ⟨rfl, rfl⟩, _, _, rfl, c, _, ⟨hc, rfl⟩, rfl⟩ := h
  exact ⟨c, hc, by simp [Gen.setFile_setFile]⟩

theorem Gen.withListing_yields {m : Gen Unit} (h : Yields (Gen.withListing file m) w u v) :
    ∃ v', Yields m (w.opened file) u v' ∧
      v = { v' with current := w.current, others := v'.others.set w.others.length v'.current } := by
  simp only [Gen.withListing, yields_bind, Act.yields_get, Act.yields_andFinally,
    Act.yields_modify] at h
  obtain ⟨_, _, ⟨rfl, rfl⟩, _, _, ⟨rfl, rfl⟩, v', ⟨_, _, rfl, h⟩, rfl⟩ := h
  exact ⟨v', h, rfl⟩

theorem Gen.writeFile_filed (h : Yields Gen.writeFile ((w.opened file).extend w.frame ps) u v) :
    ∃ c, Emit.join ps = .ok c ∧
      { v with current := w.current, others := v.others.set w.others.length v.current } =
        w.filed ⟨file, ps⟩ := by
  obtain ⟨c, hc, rfl⟩ := Gen.writeFile_yields h
  rw [Workspace.extend_opened_current] at hc
  refine ⟨c, hc, ?_⟩
  simp [Workspace.filed, Workspace.extend, Workspace.opened, Listing.code_of_join hc]

/-- The lines for the fields of a struct. -/
inductive StructFields : List Node → Code → Prop where
  | nil : StructFields [] []
  | cons {n t d es c} : t.descriptor = .ok d → StructFields es c →
      StructFields (.pair n t :: es) (.field false false n d none :: c)

theorem Gen.fields_yields (hctx : ctx.Bare) :
    ∀ {es : List Node} {w v : Workspace} {u : Unit}, es.all Node.isFieldTypeTree →
      Yields (Gen.fields other ctx es) w u v →
      ∃ c, v = w.extend w.frame (linePieces c) ∧ StructFields es c
  | [], w, v, u, _, h => by
    obtain ⟨-, rfl⟩ := yields_pure.1 h
    exact ⟨[], by simp, .nil⟩
  | e :: es, w, v, u, hes, h => by
    simp only [List.all_cons, Bool.and_eq_true] at hes
    cases e with
    | pair n t =>
      simp only [Gen.fields, yields_bind, Gen.yields_emit, yields_fieldLine] at h
      obtain ⟨t', _, h₁, _, _, ⟨_, _, ⟨d, hd, rfl, rfl⟩, rfl⟩, h₂⟩ := h
      obtain ⟨rfl, rfl⟩ := Gen.typeOf_bare hctx hes.1 h₁
      obtain ⟨c, rfl, hc⟩ := Gen.fields_yields hctx hes.2 h₂
      exact ⟨_, by simp, .cons hd hc⟩
    | _ => cases hes.1

/-- The lines of the constructor of a class, between its heading and its end. -/
def constructorBody (type : String) : Code :=
  [slotLine ⟨0, 1, 0⟩ 0 "this" type] ++ label (.ofNat 0) ++ one (.load .ref 0) ++
    one (.invokeSpecial "java/lang/Object/<init>" "()V") ++ label (.ofNat 1) ++ one .ret ++
    [Line.limitStack (.number 1), Line.limitLocals (.number 1)]

/-- The lines of the constructor of a class. -/
def constructorCode (type : String) : Code :=
  .method false "<init>" "()V" :: constructorBody type ++ [Line.endMethod]

theorem Gen.constructor_yields {es is : List Node}
    (h : Yields (Gen.constructor (.structType n es ms is)) w u v) :
    ∃ ps, v = w.extend w.frame ps ∧
      Emit.join ps = .ok (constructorCode ("L" ++ n ++ ";")) := by
  obtain ⟨u', hbody, rfl⟩ := Gen.withFrame_yields h
  simp only [Gen.printLabel, yields_bind, Gen.yields_emit, Gen.yields_onFrame,
    Gen.yields_printVar, yields_method, Frame.yields_enterScope, Frame.yields_newIndex,
    Frame.yields_startLabel, yields_readVar, yields_invokeSpecial, yields_pure] at hbody
  obtain ⟨_, _, ⟨_, _, ⟨d, hd, rfl, rfl⟩, rfl⟩, _, _, ⟨_, rfl, rfl⟩, _, _, ⟨_, ⟨rfl, rfl⟩, rfl⟩,
    hbody⟩ := hbody
  simp only [Workspace.extend_extend, Workspace.extend_frame] at hbody
  obtain ⟨_, _, ⟨s, d', hs, hd', rfl⟩, _, _, ⟨_, _, ⟨_, _, ⟨s', hs', rfl, rfl⟩, rfl, rfl⟩, rfl⟩,
    hbody⟩ := hbody
  simp only [Workspace.extend_extend, Workspace.extend_frame] at hs' hbody
  obtain ⟨_, _, ⟨_, _, ⟨b, hb, rfl, rfl⟩, rfl⟩, _, _, ⟨_, g, ⟨rfl, hg⟩, rfl⟩, hbody⟩ := hbody
  obtain ⟨s'', k, k', hs'', hk, rfl⟩ := Gen.finishMethod_yields hbody
  obtain rfl := Frame.drops_zero.1 hk
  simp only [Workspace.extend_extend, Workspace.extend_frame] at hg hs''
  obtain ⟨-, rfl⟩ := hg
  cases hd
  cases hd'
  cases hs
  cases hs'
  cases hs''
  cases hb
  refine ⟨[[.method false "<init>" "()V"], [slotLine ⟨0, 1, 0⟩ 0 "this" ("L" ++ n ++ ";")],
    label (.ofNat 0), one (.load .ref 0), one (.invokeSpecial "java/lang/Object/<init>" "()V"),
    label (.ofNat 1), one .ret,
    [.limitStack (.number 1), .limitLocals (.number 1), .endMethod]].map some, ?_, ?_⟩
  · have limits : limitLines ((({} : Frame).entered true).indexed.pushed.dropped 1) =
        [.limitStack (.number 1), .limitLocals (.number 1)] := rfl
    have slot : (({} : Frame).entered true).index = 0 := rfl
    simp [Workspace.extend, retPiece, limits, slot]
  · rw [Emit.join_map_some]
    simp [constructorCode, constructorBody]

/-- The lines for the methods of an interface. -/
inductive Prototypes : List Node → Code → Prop where
  | nil : Prototypes [] []
  | cons {n ps r d ms c} : (Node.funcType ps r).descriptor = .ok d → Prototypes ms c →
      Prototypes (.prototype n ps r :: ms) (.abstractMethod n d :: .endMethod :: c)

theorem Gen.prototypes_yields :
    ∀ {ms : List Node} {w v : Workspace} {u : Unit}, ms.all Node.isPrototype →
      Yields (ms.forM (Gen.member other { ctx with missing := [.frame] })) w u v →
      ∃ (cs : List Code), v = w.extend w.frame (cs.map some) ∧ Prototypes ms cs.flatten
  | [], w, v, u, _, h => by
    obtain rfl := Act.yields_forM_nil.1 h
    exact ⟨[], by simp, .nil⟩
  | m :: ms, w, v, u, hms, h => by
    simp only [List.all_cons, Bool.and_eq_true] at hms
    obtain ⟨w₁, h₁, h₂⟩ := Act.yields_forM_cons.1 h
    cases m with
    | prototype n ps r =>
      simp only [Gen.member, Gen.prototype, Context.need, yields_bind, Gen.yields_emit,
        yields_descriptor, yields_pure] at h₁
      obtain ⟨_, _, h₀, _, _, ⟨d, _, ⟨hd, rfl⟩, rfl, rfl⟩, rfl⟩ := h₁
      obtain ⟨-, rfl⟩ := yields_pure.1 h₀
      obtain ⟨cs, rfl, hcs⟩ := Gen.prototypes_yields hms.2 h₂
      exact ⟨[.abstractMethod n d, .endMethod] :: cs, by simp, .cons hd hcs⟩
    | _ => cases hms.1

/-- The listing of a struct or an interface. -/
inductive ListingOf : Node → Listing → Prop where
  | struct {n es ms is fs l} : StructFields es fs → l.file = Listing.fileName n →
      l.code = prolog n "java.lang.Object" false ++ fs ++ constructorCode ("L" ++ n ++ ";") →
      ListingOf (.structType n es ms is) l
  | interface {n ms c l} : Prototypes ms c → l.file = Listing.fileName n →
      l.code = prolog n "" true ++ c → ListingOf (.interfaceType n ms) l

theorem Gen.structDecl_yields (hctx : ctx.Bare) {es is : List Node}
    (hd : (Node.structType n es ms is).isDeclTree)
    (h : Yields (Gen.structDecl other ctx n es ms (.structType n es ms is)) w u v) :
    ∃ l, v = w.filed l ∧ ListingOf (.structType n es ms is) l := by
  have hmissing : ctx.missing = [.frame, .listing] := hctx
  simp only [Node.isDeclTree, Bool.and_eq_true, List.isEmpty_iff] at hd
  obtain ⟨hes, rfl⟩ := hd
  simp only [Gen.structDecl, Context.need, hmissing, yields_bind] at h
  obtain ⟨_, _, h₀, h⟩ := h
  obtain ⟨-, rfl⟩ := yields_pure.1 h₀
  obtain ⟨v', hbody, rfl⟩ := Gen.withListing_yields h
  simp only [yields_bind, Gen.yields_print] at hbody
  obtain ⟨_, _, rfl, _, _, h₁, _, _, h₂, _, _, h₃, h₄⟩ := hbody
  obtain ⟨fs, rfl, hfs⟩ := Gen.fields_yields hctx hes h₁
  obtain ⟨ps, rfl, hps⟩ := Gen.constructor_yields h₂
  obtain rfl := Act.yields_forM_nil.1 h₃
  simp only [Workspace.extend_extend, Workspace.extend_frame] at h₄
  obtain ⟨c, hc, hfiled⟩ := Gen.writeFile_filed h₄
  refine ⟨_, hfiled, .struct hfs rfl ?_⟩
  rw [Listing.code_of_join hc]
  simp only [Emit.join_append, Emit.join_singleton, join_linePieces, Except.ok.injEq,
    Option.some.injEq, hps] at hc
  obtain ⟨_, _, ⟨_, _, rfl, rfl, rfl⟩, rfl, rfl⟩ := hc
  rfl

theorem Gen.interfaceDecl_yields (hctx : ctx.Bare) (hd : (Node.interfaceType n ms).isDeclTree)
    (h : Yields (Gen.interfaceDecl other ctx n ms) w u v) :
    ∃ l, v = w.filed l ∧ ListingOf (.interfaceType n ms) l := by
  have hmissing : ctx.missing = [.frame, .listing] := hctx
  simp only [Node.isDeclTree] at hd
  simp only [Gen.interfaceDecl, Context.need, hmissing, yields_bind] at h
  obtain ⟨_, _, h₀, h⟩ := h
  obtain ⟨-, rfl⟩ := yields_pure.1 h₀
  obtain ⟨v', hbody, rfl⟩ := Gen.withListing_yields h
  simp only [yields_bind, Gen.yields_print] at hbody
  obtain ⟨_, _, rfl, _, _, h₁, h₂⟩ := hbody
  obtain ⟨cs, rfl, hcs⟩ := Gen.prototypes_yields hd h₁
  simp only [Workspace.extend_extend, Workspace.extend_frame] at h₂
  obtain ⟨c, hc, hfiled⟩ := Gen.writeFile_filed h₂
  refine ⟨_, hfiled, .interface hcs rfl ?_⟩
  rw [Listing.code_of_join hc]
  simp only [Emit.join_append, Emit.join_singleton, Emit.join_map_some, Except.ok.injEq,
    Option.some.injEq] at hc
  obtain ⟨_, _, rfl, rfl, rfl⟩ := hc
  rfl

/-! ## The whole program -/

/-- Whether a declaration is a function. -/
def Node.isFunc : Node → Bool
  | func .. => true
  | _ => false

/-- Whether a declaration is a struct or an interface. -/
def Node.isClass : Node → Bool
  | structType .. | interfaceType .. => true
  | _ => false

theorem Node.isFunc_of_isClass {d : Node} (h : d.isClass) : d.isFunc = false := by
  cases d with
  | func => simp [Node.isClass] at h
  | _ => rfl

/-- The functions of a program know the names that are declared at the top level. -/
theorem Gen.start_topLevel_func (n : String) (ps : List Node) (r b : Node) (w : Workspace) :
    (Gen.topLevel other (.func n ps r b)).start w =
      (Gen.func other ⟨[w.globals], [.frame]⟩ n ps r b).start w := by
  rw [Gen.topLevel, Act.start_bind]
  rfl

/-- A function prints its method, a struct or an interface its own listing, and what else there
is at the top level nothing. -/
theorem Gen.topLevel_yields (hglobals : Regular globals) {d : Node} (hd : d.isDeclTree)
    {w v : Workspace} {u : Unit} (hw : w.globals = globals)
    (h : Yields (Gen.topLevel other d) w u v) :
    (d.isFunc ∧ ∃ qs, v = w.extend w.frame qs ∧
      ∀ c, Emit.join qs = .ok c → MethodOf globals d c) ∨
    (d.isClass ∧ ∃ l, v = w.filed l ∧ ListingOf d l) ∨
    (d.isFunc = false ∧ d.isClass = false ∧ v = w) := by
  cases d with
  | func n ps r b =>
    rw [Yields, Gen.start_topLevel_func, hw] at h
    exact .inl ⟨rfl, Gen.func_yields hglobals hd h⟩
  | structType n es ms is =>
    simp only [Gen.topLevel, Gen.globalContext, yields_bind, Act.yields_get,
      yields_pure] at h
    obtain ⟨_, _, ⟨_, _, ⟨rfl, rfl⟩, rfl, rfl⟩, h⟩ := h
    exact .inr (.inl ⟨rfl, Gen.structDecl_yields (Context.bare _) hd h⟩)
  | interfaceType n ms =>
    simp only [Gen.topLevel, Gen.globalContext, yields_bind, Act.yields_get,
      yields_pure] at h
    obtain ⟨_, _, ⟨_, _, ⟨rfl, rfl⟩, rfl, rfl⟩, h⟩ := h
    exact .inr (.inl ⟨rfl, Gen.interfaceDecl_yields (Context.bare _) hd h⟩)
  | _ => exact .inr (.inr ⟨rfl, rfl, (yields_pure.1 h).2⟩)

/-- The workspace after some other listings have been printed. -/
def Workspace.filedAll (w : Workspace) (ls : List Listing) : Workspace := ls.foldl .filed w

theorem Workspace.filedAll_extend (w : Workspace) (f : Frame) (ps : List Piece) :
    ∀ ls, (w.extend f ps).filedAll ls = (w.filedAll ls).extend f ps
  | [] => rfl
  | l :: ls => Workspace.filedAll_extend (w.filed l) f ps ls

@[simp] theorem Workspace.filedAll_current (w : Workspace) :
    ∀ ls, (w.filedAll ls).current = w.current
  | [] => rfl
  | l :: ls => Workspace.filedAll_current (w.filed l) ls

@[simp] theorem Workspace.filedAll_globals (w : Workspace) :
    ∀ ls, (w.filedAll ls).globals = w.globals
  | [] => rfl
  | l :: ls => Workspace.filedAll_globals (w.filed l) ls

theorem Workspace.filedAll_others (w : Workspace) :
    ∀ ls, (w.filedAll ls).others = w.others ++ ls
  | [] => (List.append_nil _).symm
  | l :: ls => (Workspace.filedAll_others (w.filed l) ls).trans (by simp [Workspace.filed])

/-- The files with the texts of some listings, written one after the other. -/
def Listing.write (files : List (String × String)) (ls : List Listing) : List (String × String) :=
  ls.foldl (fun files l => Gen.setFile l.file l.code.render files) files

theorem Workspace.filedAll_files (w : Workspace) :
    ∀ ls, (w.filedAll ls).files = Listing.write w.files ls
  | [] => rfl
  | l :: ls => Workspace.filedAll_files (w.filed l) ls

/-- The functions of a program print their methods, and the structs and interfaces their
listings, in the order of the source. -/
theorem Gen.topLevels_yields (hglobals : Regular globals) :
    ∀ {ds : List Node} {w v : Workspace} {u : Unit}, w.globals = globals →
      ds.all Node.isDeclTree → Yields (ds.forM (Gen.topLevel other)) w u v →
      ∃ ps ls, v = (w.filedAll ls).extend w.frame ps ∧
        List.Forall₂ ListingOf (ds.filter Node.isClass) ls ∧ ∀ c, Emit.join ps = .ok c →
        ∃ ms, List.Forall₂ (MethodOf globals) (ds.filter Node.isFunc) ms ∧ c = ms.flatten
  | [], w, v, u, _, _, h => by
    obtain rfl := Act.yields_forM_nil.1 h
    exact ⟨[], [], by simp [Workspace.filedAll], .nil, fun c hc => ⟨[], .nil, by cases hc; rfl⟩⟩
  | d :: ds, w, v, u, hw, hds, h => by
    simp only [List.all_cons, Bool.and_eq_true] at hds
    obtain ⟨w₁, h₁, h₂⟩ := Act.yields_forM_cons.1 h
    rcases Gen.topLevel_yields hglobals hds.1 hw h₁ with
      ⟨hfunc, qs, rfl, hqs⟩ | ⟨hclass, l, rfl, hl⟩ | ⟨hfunc, hclass, rfl⟩
    · obtain ⟨ps, ls, rfl, hls, hms⟩ := Gen.topLevels_yields hglobals (by simpa using hw) hds.2 h₂
      have hclass : d.isClass = false := by
        by_contra hclass
        simp [Node.isFunc_of_isClass (by simpa using hclass)] at hfunc
      refine ⟨qs ++ ps, ls, ?_, by simpa [List.filter_cons, hclass] using hls, fun c hc => ?_⟩
      · rw [Workspace.filedAll_extend, Workspace.extend_extend]
        rfl
      · obtain ⟨a, b, ha, hb, rfl⟩ := Emit.join_append.1 hc
        obtain ⟨ms, hms, rfl⟩ := hms b hb
        rw [List.filter_cons, if_pos hfunc]
        exact ⟨a :: ms, .cons (hqs a ha) hms, rfl⟩
    · -- A struct or an interface leaves the class of the program alone.
      obtain ⟨ps, ls, rfl, hls, hms⟩ :=
        Gen.topLevels_yields (w := w.filed l) hglobals hw hds.2 h₂
      refine ⟨ps, l :: ls, rfl, ?_,
        by simpa [List.filter_cons, Node.isFunc_of_isClass hclass] using hms⟩
      rw [List.filter_cons, if_pos hclass]
      exact .cons hl hls
    · obtain ⟨ps, ls, rfl, hls, hms⟩ := Gen.topLevels_yields hglobals hw hds.2 h₂
      exact ⟨ps, ls, rfl, by simpa [List.filter_cons, hclass] using hls,
        by simpa [List.filter_cons, hfunc] using hms⟩

/-- The lines of the class of a program. -/
inductive Compiled (ds : List Node) : Code → Prop where
  | intro {fs items init ms} : (∀ d ∈ ds, d.isConst = false) →
      Fields (globalSymbols ds) ds fs items → InitBody (globalSymbols ds) items init →
      List.Forall₂ (MethodOf (globalSymbols ds)) (ds.filter Node.isFunc) ms →
      Compiled ds (prolog mainClass "java.lang.Object" false ++ fs ++
        methodCode "<clinit>" "()V" init ++ ms.flatten)

theorem Gen.lookup_setFile (name text : String) :
    ∀ files, (Gen.setFile name text files).lookup name = some text
  | [] => by simp [Gen.setFile]
  | (n, t) :: files => by
    simp only [Gen.setFile]
    split
    · next h => simp [h]
    · next h =>
      rw [List.lookup_cons, beq_false_of_ne (Ne.symm h)]
      exact Gen.lookup_setFile name text files

/-- All listings, that of the program last. -/
def Workspace.listings (w : Workspace) : List Listing := w.others ++ [w.current]

/-- What has been printed when a program is generated: the class of the program, the classes
of its structs and interfaces, and the files that were written from them. -/
structure Workspace.Holds (w : Workspace) (ds : List Node) : Prop where
  main : Compiled ds w.current.code
  name : w.current.file = Listing.fileName mainClass
  classes : List.Forall₂ ListingOf (ds.filter Node.isClass) w.others
  files : w.files = Listing.write [] w.listings

/-- The class of the program is written last; what is printed after that is no line. -/
theorem Workspace.holds_written (hcurrent : w.current = ⟨Listing.fileName mainClass, ps⟩)
    (hjoin : Emit.join ps = .ok c) (hc : Compiled ds c)
    (hclasses : List.Forall₂ ListingOf (ds.filter Node.isClass) w.others)
    (hfiles : w.files = Listing.write [] w.others) (f : Frame) :
    Workspace.Holds (Workspace.extend
      { w with files := Gen.setFile w.current.file c.render w.files } f [none]) ds := by
  have hcode : Listing.code ⟨Listing.fileName mainClass, ps ++ [none]⟩ = c := by
    have joined : Listing.code ⟨Listing.fileName mainClass, ps⟩ = c := Listing.code_of_join hjoin
    simpa [Listing.code] using joined
  refine ⟨?_, ?_, hclasses, ?_⟩
  · simp only [Workspace.extend, hcurrent, hcode]
    exact hc
  · simp only [Workspace.extend, hcurrent]
  · simp [Workspace.extend, Workspace.listings, Listing.write, hcurrent, hcode, hfiles]

theorem Gen.program_yields (hctx : ctx = ⟨[Symbol.builtins], [.frame, .listing]⟩)
    (hw : w.current = ⟨Listing.fileName mainClass, []⟩) (hothers : w.others = [])
    (hfiles : w.files = []) (hds : ds.all Node.isDeclTree)
    (h : Yields (Gen.program other ctx ds) w u v) : v.Holds ds := by
  subst hctx
  simp only [Gen.program, Context.need, yields_bind, Act.yields_ofOption, Act.yields_modify,
    Act.yields_get, Gen.yields_print, Gen.yields_printPiece] at h
  obtain ⟨_, _, h₀, gs, _, ⟨hgs, rfl⟩, _, _, rfl, _, _, h₁, _, _, h₂, _, _, rfl, items, _, h₃, _, _,
    ⟨rfl, rfl⟩, _, _, h₄, _, w₅, h₅, _, _, h₆, rfl⟩ := h
  obtain ⟨-, rfl⟩ := yields_pure.1 h₀
  cases hgs
  obtain ⟨rfl, hconst⟩ := Gen.declareGlobals_yields (Context.bare _) hds h₁
  obtain rfl := Gen.checkReceivers_yields h₂
  obtain ⟨fs, rfl, hfs⟩ := Gen.globalFields_yields (Context.bare _) rfl h₃
  have hregular := globalSymbols_regular hds
  obtain ⟨ps, init, rfl, hps, hinit⟩ :=
    Gen.staticInit_yields hregular (hfs.initOf_isExprTree hds) h₄
  obtain ⟨qs, ls, hw₅, hls, hqs⟩ := Gen.topLevels_yields hregular rfl hds h₅
  obtain ⟨c, hjoin, rfl⟩ := Gen.writeFile_yields h₆
  have hcurrent : w₅.current = ⟨Listing.fileName mainClass,
      [some (prolog mainClass "java.lang.Object" false)] ++ linePieces fs ++ ps ++ qs⟩ := by
    rw [hw₅]
    simp [Workspace.extend, hw]
  have hw₅others : w₅.others = ls := by
    rw [hw₅]
    simp [Workspace.extend, Workspace.filedAll_others, hothers]
  have hw₅files : w₅.files = Listing.write [] w₅.others := by
    rw [hw₅others, hw₅]
    simp [Workspace.extend, Workspace.filedAll_files, hfiles]
  rw [hcurrent] at hjoin
  refine Workspace.holds_written hcurrent hjoin ?_ (hw₅others ▸ hls) hw₅files _
  simp only [Emit.join_append, Emit.join_singleton, join_linePieces, Except.ok.injEq,
    Option.some.injEq, hps] at hjoin
  obtain ⟨_, code, ⟨_, _, ⟨_, _, rfl, rfl, rfl⟩, rfl, rfl⟩, hcode, rfl⟩ := hjoin
  obtain ⟨ms, hms, rfl⟩ := hqs code hcode
  exact .intro hconst hfs hinit hms

end Generator

/-- A program that has been generated has left its listings and files. -/
theorem Gen.run_holds {w : Workspace} (hds : (Node.program ds).isProgram)
    (h : Gen.run (.program ds) = (.ok (), w)) : w.Holds ds := by
  let ctx : Context := ⟨[Symbol.builtins], [.frame, .listing]⟩
  have hvisit : Yields (Gen.visit.nothing (Gen.program (Gen.visit 63) ctx ds) >>= fun _ => pure ())
    _ () w := h
  simp only [Gen.visit.nothing, yields_bind, yields_pure] at hvisit
  obtain ⟨_, _, ⟨_, _, hprogram, rfl, rfl⟩, -, rfl⟩ := hvisit
  exact Gen.program_yields rfl rfl rfl rfl hds hprogram

theorem Gen.run_compiled {w : Workspace} (hds : (Node.program ds).isProgram)
    (h : Gen.run (.program ds) = (.ok (), w)) :
    ∃ c, Compiled ds c ∧ w.files.lookup (Listing.fileName mainClass) = some c.render := by
  have holds := Gen.run_holds hds h
  refine ⟨w.current.code, holds.main, ?_⟩
  rw [holds.files, Workspace.listings, Listing.write, List.foldl_append, ← holds.name]
  exact Gen.lookup_setFile _ _ _

theorem Gen.run_eq_of_isOk {n : Node} (h : (Gen.run n).1.isOk) :
    Gen.run n = (.ok (), (Gen.run n).2) := by
  rcases hrun : Gen.run n with ⟨_ | _, w⟩
  · rw [hrun] at h
    cases h
  · rfl

end MiniGoc
