import MiniGoc.Proofs.Demands
import MiniGoc.Proofs.Generated
import MiniGoc.Proofs.Written

/-!
# What functions return

A method can return a number, a truth value, a text or nothing.  For all other types nothing is
printed in the place of the instruction, not even an empty piece of code.

Which types are returned can be computed from the source: those of the values in its return
statements, and the result of the function (`funcReturns`).  The pieces of a function have a gap
if and only if one of these types is none that a method can return (`MethodOf.returns`,
`Generated.returns`).
-/

namespace MiniGoc

open Act (Yields)
open Emit

/-- Whether a method can return a value of a type. -/
def Node.isReturnable : Node → Bool
  | intType | boolType | floatType | stringType | voidType => true
  | _ => false

variable {t : Node} {c : Code} {E env : List Symbol} {f : Frame}

theorem Emit.retPiece_eq_none : retPiece t = none ↔ t.isReturnable = false := by
  cases t <;> simp [retPiece, Node.isReturnable]

theorem Emit.isReturnable_of_retPiece (h : retPiece t = some c) : t.isReturnable := by
  cases t <;> simp_all [retPiece, Node.isReturnable]

theorem Node.isReturnable_congr {u : Node} (h : t.outline = u.outline) :
    t.isReturnable = u.isReturnable := by
  have outline (t : Node) : t.outline.isReturnable = t.isReturnable := by cases t <;> rfl
  rw [← outline t, h, outline]

mutual

/-- The types of the values that a statement returns, where `i` is the first slot that is free. -/
def stmtReturns (env : List Symbol) (i : Int) : Node → List Node
  | .block ms =>
    let first := takes env [] i ms
    membersReturns (first.1.reduceOption ++ env) first.2 ms
  | .ifElse c y n =>
    stmtReturns env (i + temps c) y ++ stmtReturns env (i + temps c + stmtTemps y) n
  | .ret e => [if e.isNone then .voidType else typeIn env e]
  | _ => []

/-- The types of the values that the members of a block return. -/
def membersReturns (env : List Symbol) (i : Int) : List Node → List Node
  | [] => []
  | m :: ms => stmtReturns env i m ++ membersReturns env (i + stmtTemps m) ms

end

def Stage.returns (env : List Symbol) (i : Int) : Stage → List Node
  | stmt m => stmtReturns env i m
  | members ms => membersReturns env i ms

theorem Coded.isReturnable_eq (henv : Alike E env) {e : Node} {g : Frame}
    (h : Coded env (.expr e) f c t g) :
    stmtReturns E f.index (.ret e) = [typeIn E e] ∧ (typeIn E e).isReturnable = t.isReturnable := by
  refine ⟨?_, Node.isReturnable_congr (h.outline_eq henv).symm⟩
  have hne : e.isNone = false := by
    cases e with
    | none => cases h
    | _ => rfl
  simp [stmtReturns, hne]

/-- Code that is there returns what a method can return. -/
theorem Printed.returns {stage : Stage} {g : Frame} (h : Printed env stage f c g)
    (henv : Alike E env) : ∀ t ∈ stage.returns E f.index, t.isReturnable := by
  induction h generalizing E with
  | @block env ms f c ls g d h hls _ ih =>
    obtain ⟨hlocals, hindex⟩ := hls.takes henv (Alike.refl [])
    have inner := ih (hlocals.append henv)
    rw [hindex] at inner
    exact inner
  | @ifOnly env e y f c t g h d k hc hd _ ih =>
    have hindex : h.index = f.index + temps e := hd.sameCounters.index.trans hc.index_eq
    have yes := ih henv
    rw [hindex] at yes
    simpa [Stage.returns, stmtReturns] using yes
  | @ifElse env e y n f c t g h d k d' m hc hd _ hy _ ih ih' =>
    have hindex : h.index = f.index + temps e := hd.sameCounters.index.trans hc.index_eq
    have hindex' : k.index = f.index + temps e + stmtTemps y := by
      rw [hy.index_eq, hindex]
      rfl
    have yes := ih henv
    have no := ih' henv
    rw [hindex] at yes
    rw [hindex'] at no
    exact List.forall_mem_append.2 ⟨yes, no⟩
  | @ret env e f c t g d h hc hd _ =>
    obtain ⟨hret, htype⟩ := hc.isReturnable_eq henv
    simp only [Stage.returns, hret, List.mem_singleton, forall_eq]
    rw [htype]
    exact isReturnable_of_retPiece hd
  | leave => simp [Stage.returns, stmtReturns, Node.isNone, Node.isReturnable]
  | @member env m ms f c g d h hm _ ih ih' =>
    have rest := ih' henv
    rw [hm.index_eq] at rest
    exact List.forall_mem_append.2 ⟨ih henv, rest⟩
  | _ => simp [Stage.returns, stmtReturns, membersReturns]

/-- A gap comes from a type that no method can return. -/
theorem Blank.returns {stage : Stage} (h : Blank env stage f) (henv : Alike E env) :
    ∃ t ∈ stage.returns E f.index, t.isReturnable = false := by
  induction h generalizing E with
  | @ret env e f c t g hc hd =>
    obtain ⟨hret, htype⟩ := hc.isReturnable_eq henv
    refine ⟨typeIn E e, ?_, htype.trans (retPiece_eq_none.1 hd)⟩
    simp [Stage.returns, hret]
  | @block env ms f c ls g hls _ ih =>
    obtain ⟨hlocals, hindex⟩ := hls.takes henv (Alike.refl [])
    have inner := ih (hlocals.append henv)
    rw [hindex] at inner
    exact inner
  | @thenBranch env e y n f c t g h k hc hd _ ih =>
    have hindex : h.index = f.index + temps e := hd.sameCounters.index.trans hc.index_eq
    obtain ⟨t, ht, hreturn⟩ := ih henv
    rw [hindex] at ht
    exact ⟨t, List.mem_append_left _ ht, hreturn⟩
  | @elseBranch env e y n f c t g h d k hc hd hy _ ih =>
    have hindex : k.index = f.index + temps e + stmtTemps y := by
      rw [hy.index_eq, hd.sameCounters.index.trans hc.index_eq]
      rfl
    obtain ⟨t, ht, hreturn⟩ := ih henv
    rw [hindex] at ht
    exact ⟨t, List.mem_append_right _ ht, hreturn⟩
  | member _ ih =>
    obtain ⟨t, ht, hreturn⟩ := ih henv
    exact ⟨t, List.mem_append_left _ ht, hreturn⟩
  | @later env m ms f c g hm _ ih =>
    obtain ⟨t, ht, hreturn⟩ := ih henv
    rw [hm.index_eq] at ht
    exact ⟨t, List.mem_append_right _ ht, hreturn⟩

/-- The types of the values that a function returns, its result at last. -/
def funcReturns (globals : List Symbol) : Node → List Node
  | .func n ps r b =>
    stmtReturns (paramSymbols 0 (methodParams n ps) ++ globals) (methodParams n ps).length b ++
      [r]
  | _ => []

/-- The types of the values that are returned in a program. -/
def returnedTypes (ds : List Node) : List Node := ds.flatMap (funcReturns (globalSymbols ds))

section Functions

variable {globals : List Symbol}

theorem Params.body_index {ps : List (String × Node)} {f : Frame} {c : Code} {ss : List Symbol}
    (h : Params ps .ofMethod c ss f) : ss = paramSymbols 0 ps ∧ f.index = ps.length := by
  obtain ⟨hss, hindex, -⟩ := h.eq_paramSymbols
  exact ⟨hss, hindex.trans (Int.zero_add _)⟩

theorem MethodOf.returns {d : Node} {m : Code} (h : MethodOf globals d m) :
    ∀ t ∈ funcReturns globals d, t.isReturnable := by
  cases h with
  | intro _ hbody =>
    cases hbody with
    | intro hparams hb hr _ =>
      obtain ⟨hss, hindex⟩ := hparams.body_index
      have body := hb.returns (Alike.refl _)
      rw [hss, hindex] at body
      exact List.forall_mem_append.2 ⟨body, by simpa using isReturnable_of_retPiece hr⟩

/-- The pieces of a function have a gap only if it returns what a method cannot. -/
theorem Generated.returns {other : Visitor} {d : Node} {ps : List Piece}
    (hglobals : Regular globals) (hd : d.isDeclTree) (hfunc : d.isFunc)
    (h : Generated other globals d ps) (hnone : none ∈ ps) :
    ∃ t ∈ funcReturns globals d, t.isReturnable = false := by
  cases d with
  | func n params r b =>
    simp only [Node.isDeclTree, Bool.and_eq_true] at hd
    obtain ⟨w, hframe, rfl, h⟩ := h
    rw [Yields, Gen.start_topLevel_func, Gen.func_eq] at h
    obtain ⟨u, hbody, hu⟩ := Gen.withFrame_yields h
    simp only [Act.yields_bind] at hbody
    obtain ⟨ss, w₁, h₁, _, w₂, h₂, h₃⟩ := hbody
    obtain ⟨c, type, -, hparams, hss, hw₁⟩ := Gen.openFunc_yields hd.1.1.1 h₁
    have hregular : Regular (Context.enter ⟨[w.globals], [.frame]⟩ ss).scopes.flatten := by
      simpa using hss.append hglobals
    obtain ⟨qs, g, rfl, -, -, hblank⟩ := stmtPrinted rfl hregular hd.2
      (by simp [Node.declared?_of_isBlock hd.1.2]) h₂
    obtain ⟨s, k, k', -, -, rfl⟩ := Gen.finishMethod_yields h₃
    have hopened := congrArg (fun v => v.current.pieces) hw₁
    have hpieces := congrArg (fun v => v.current.pieces) hu
    simp only [Workspace.extend, hopened, List.append_assoc,
      List.append_cancel_left_eq] at hpieces
    rw [hpieces] at hnone
    have hgap : none ∈ qs ∨ retPiece r = none := by simpa [linePieces, eq_comm] using hnone
    rcases hgap with hgap | hgap
    · obtain ⟨hss', hindex⟩ := hparams.body_index
      obtain ⟨t, ht, hreturn⟩ := (hblank hgap).returns (Alike.refl _)
      simp only [Context.enter, List.flatten_cons, hss', hindex] at ht
      exact ⟨t, List.mem_append_left _ (by simpa [Stage.returns] using ht), hreturn⟩
    · exact ⟨r, by simp [funcReturns], retPiece_eq_none.1 hgap⟩
  | _ => cases hfunc

/-- All that is printed for a program are lines if and only if its functions return what methods
can return. -/
theorem Gen.declarations_join {other : Visitor} {ds : List Node}
    (hds : ds.all Node.isDeclTree) {w : Workspace} {u : Unit}
    (h : Yields (Gen.declarations other ds) .initial u w) :
    (∃ c, Emit.join w.current.pieces = .ok c) ↔ ∀ t ∈ returnedTypes ds, t.isReturnable := by
  obtain ⟨ps, pss, fs, items, init, hcurrent, hps, -, -, hpss⟩ := Gen.declarations_generated hds h
  have hregular := globalSymbols_regular hds
  have tree {d : Node} (hd : d ∈ ds.filter Node.isFunc) : d.isDeclTree :=
    List.all_eq_true.1 hds d (List.mem_filter.1 hd).1
  rw [hcurrent]
  constructor
  · rintro ⟨c, hc⟩ t ht
    obtain ⟨d, hd, ht⟩ := List.mem_flatMap.1 ht
    have hfunc : d ∈ ds.filter Node.isFunc := by
      cases d with
      | func => exact List.mem_filter.2 ⟨hd, rfl⟩
      | _ => cases ht
    obtain ⟨qs, hqs, generated⟩ : ∃ qs ∈ pss, Generated other (globalSymbols ds) d qs :=
      exists_of_mem_right hpss.flip hfunc
    obtain ⟨_, b, -, hb, -⟩ := Emit.join_append.1 hc
    obtain ⟨cs, hcs, -⟩ := Emit.join_eq_ok.1 hb
    have whole : none ∉ qs := by
      intro hnone
      have hflat : none ∈ pss.flatten := List.mem_flatten.2 ⟨qs, hqs, hnone⟩
      simp [hcs] at hflat
    obtain ⟨m, hm⟩ := Emit.exists_join whole
    exact (generated.methodOf hregular (tree hfunc) (List.mem_filter.1 hfunc).2 hm).returns t ht
  · intro hreturns
    refine Emit.exists_join fun hnone => ?_
    rcases List.mem_append.1 hnone with hnone | hnone
    · obtain ⟨cs, rfl, -⟩ := Emit.join_eq_ok.1 hps
      simp at hnone
    · obtain ⟨qs, hqs, hnone⟩ := List.mem_flatten.1 hnone
      obtain ⟨d, hd, generated⟩ := exists_of_mem_right hpss hqs
      obtain ⟨t, ht, hreturn⟩ :=
        generated.returns hregular (tree hd) (List.mem_filter.1 hd).2 hnone
      have := hreturns t (List.mem_flatMap.2 ⟨d, (List.mem_filter.1 hd).1, ht⟩)
      simp [hreturn] at this

end Functions

end MiniGoc
