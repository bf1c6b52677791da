import MiniGoc.Proofs.Demands
import MiniGoc.Proofs.StaticInit

/-!
# Programs on integers and truth values

The programs of this module have variables of two types, and functions without a result.  A
function declares variables, assigns to variables that it can see, and tests conditions
(`isCoreProgram`).

Such a program is well typed by the scopes of blocks, but its code is made with other scopes.
Two things can go wrong then.

* The first assignment of a block is to a name that is known outside of the block
  (`stmtOrdered`).  The first pass over the block has no type for the line that it prints.
* A name is read that has no value where the code looks for it (`stmtUsable`).  The code looks
  among the names of whole blocks, and in the main function not among the parameters.

Code that is there has none of the two (`Printed.ordered`, `Printed.usable`), and the second
does not happen where the code looks among the names that are visible (`stmtTyped.usable`).
-/

namespace MiniGoc

open Emit

/-! ## The programs -/

/-- The type of an expression of numbers, names and operators. -/
def exprTy? (Γ : Vars) : Node → Option Ty
  | .intLit v => if v.numeral?.isSome then some .int else none
  | .id x => Γ.lookup x
  | .binary op l r =>
    match exprTy? Γ l, exprTy? Γ r with
    | some .int, some .int =>
      if op ∈ arithmeticOperators then some .int
      else if op ∈ relationalOperators then some .bool
      else none
    | some .bool, some .bool => if op = "&&" ∨ op = "||" then some .bool else none
    | _, _ => none
  | _ => none

mutual

/-- Whether a statement is typed: an assignment is to a variable that is visible, and a branch
may be left out. -/
def stmtTyped (Γ : Vars) : Node → Bool
  | .none => true
  | .assign (.id x) e => (Γ.lookup x).isSome && exprTy? Γ e == Γ.lookup x
  | .block ms => membersTyped Γ ms
  | .ifElse c y n => exprTy? Γ c == some .bool && y.isBlock && stmtTyped Γ y && n.isElseTree &&
      stmtTyped Γ n
  | _ => false

/-- Whether the members of a block are typed.  A variable is visible after its declaration. -/
def membersTyped (Γ : Vars) : List Node → Bool
  | [] => true
  | .var x t e :: ms =>
    match Ty.ofNode? t with
    | some τ => exprTy? Γ e == some τ && membersTyped ((x, τ) :: Γ) ms
    | none => false
  | m :: ms => !m.isNone && stmtTyped Γ m && membersTyped Γ ms

end

/-- The name and the type of a parameter. -/
def Node.paramVar? : Node → Option (String × Ty)
  | param x t => (Ty.ofNode? t).map fun τ => (x, τ)
  | _ => Option.none

variable {x : String} {τ : Ty} {Γ : Vars} {e t : Node} {ms : List Node} {env E : List Symbol}
  {f g : Frame} {c : Code}

theorem Node.eq_param_of_paramVar? {p : Node} (h : p.paramVar? = some (x, τ)) :
    p = .param x τ.node := by
  cases p with
  | param y t =>
    simp only [Node.paramVar?, Option.map_eq_some_iff, Prod.mk.injEq] at h
    obtain ⟨σ, hσ, rfl, rfl⟩ := h
    rw [Ty.eq_node_of_ofNode? hσ]
  | _ => cases h

/-- Whether a declaration is typed, where `Γ` are the variables of the program. -/
def isCoreDecl (Γ : Vars) : Node → Bool
  | .var _ t e =>
    match Ty.ofNode? t with
    | some τ => e.isNone || exprTy? Γ e == some τ
    | none => false
  | .func _ ps r b => ps.all (fun p => p.paramVar?.isSome) && r.isVoid && b.isBlock &&
      stmtTyped (ps.filterMap Node.paramVar? ++ Γ) b
  | _ => false

/-- Programs with variables and functions on integers and truth values. -/
def isCoreProgram (ds : List Node) : Bool := ds.all (isCoreDecl (globalVars ds))

/-! ### The same without types -/

namespace Node

/-- Expressions of numbers, names and operators. -/
def isCoreExpr : Node → Bool
  | intLit v => v.numeral?.isSome
  | id _ => true
  | binary op l r => binaryOperators.contains op && isCoreExpr l && isCoreExpr r
  | _ => false

mutual

/-- Declarations with a type and a value, assignments to names, and conditions. -/
def isCoreStmt : Node → Bool
  | none => true
  | var _ t e => (Ty.ofNode? t).isSome && isCoreExpr e
  | assign (id _) e => isCoreExpr e
  | block ms => areCoreStmts ms
  | ifElse c y n => isCoreExpr c && isBlock y && isCoreStmt y && isElseTree n && isCoreStmt n
  | _ => false

/-- Such statements in a row. -/
def areCoreStmts : List Node → Bool
  | [] => true
  | m :: ms => !isNone m && isCoreStmt m && areCoreStmts ms

end

end Node

theorem Node.contains_binaryOperators {op : String}
    (h : op ∈ arithmeticOperators ∨ op ∈ relationalOperators ∨ op = "&&" ∨ op = "||") :
    Node.binaryOperators.contains op := by
  have arithmetic : ∀ op ∈ arithmeticOperators, Node.binaryOperators.contains op := by decide
  have relational : ∀ op ∈ relationalOperators, Node.binaryOperators.contains op := by decide
  rcases h with h | h | rfl | rfl
  · exact arithmetic op h
  · exact relational op h
  · rfl
  · rfl

/-- The operator and the operands of a typed expression. -/
theorem exprTy?_binary {op : String} {l r : Node} (h : exprTy? Γ (.binary op l r) = some τ) :
    Node.binaryOperators.contains op ∧ ∃ σ, exprTy? Γ l = some σ ∧ exprTy? Γ r = some σ := by
  simp only [exprTy?] at h
  split at h
  · next hl hr =>
    refine ⟨Node.contains_binaryOperators ?_, .int, hl, hr⟩
    split at h
    · next hop => exact .inl hop
    · split at h
      · next hop => exact .inr (.inl hop)
      · cases h
  · next hl hr =>
    refine ⟨Node.contains_binaryOperators ?_, .bool, hl, hr⟩
    split at h
    · next hop => exact .inr (.inr hop)
    · cases h
  · cases h

theorem Node.isCoreExpr_of_exprTy? (h : exprTy? Γ e = some τ) : e.isCoreExpr := by
  fun_induction Node.isCoreExpr e generalizing τ with
  | case1 v =>
    simp only [exprTy?] at h
    split at h
    · next hv => exact hv
    · cases h
  | case2 => rfl
  | case3 op l r ihl ihr =>
    obtain ⟨hop, σ, hl, hr⟩ := exprTy?_binary h
    rw [hop, ihl hl, ihr hr]
    rfl
  | case4 e =>
    cases e with
    | intLit | id | binary => simp_all
    | _ => cases h

/-- The first member of a typed block is a declaration, or a typed statement. -/
theorem membersTyped_cons {m : Node} (h : membersTyped Γ (m :: ms)) :
    (∃ x e τ, m = .var x (Ty.node τ) e ∧ exprTy? Γ e = some τ ∧ membersTyped ((x, τ) :: Γ) ms) ∨
      (m.declared? = none ∧ m.isNone = false ∧ stmtTyped Γ m ∧ membersTyped Γ ms) := by
  have other (hm : !m.isNone && stmtTyped Γ m && membersTyped Γ ms) :
      m.isNone = false ∧ stmtTyped Γ m ∧ membersTyped Γ ms := by
    simpa only [Bool.and_eq_true, Bool.not_eq_true', and_assoc] using hm
  cases m with
  | var x t e =>
    simp only [membersTyped] at h
    split at h
    · next τ ht =>
      simp only [Bool.and_eq_true, beq_iff_eq] at h
      exact .inl ⟨x, e, τ, by rw [Ty.eq_node_of_ofNode? ht], h⟩
    · cases h
  | const => exact absurd (other h).2.1 (by simp [stmtTyped])
  | _ => exact .inr ⟨rfl, other h⟩

mutual

theorem Node.isCoreStmt_of_stmtTyped {Γ : Vars} :
    ∀ {m : Node}, stmtTyped Γ m → m.isCoreStmt := by
  intro m h
  cases m with
  | none => rfl
  | assign l e =>
    cases l with
    | id x =>
      simp only [stmtTyped, Bool.and_eq_true, beq_iff_eq, Option.isSome_iff_exists] at h
      obtain ⟨⟨τ, hx⟩, he⟩ := h
      exact Node.isCoreExpr_of_exprTy? (he.trans hx)
    | _ => cases h
  | block ms => exact Node.areCoreStmts_of_membersTyped h
  | ifElse c y n =>
    simp only [stmtTyped, Bool.and_eq_true, beq_iff_eq] at h
    obtain ⟨⟨⟨⟨hc, hy⟩, hy'⟩, hn⟩, hn'⟩ := h
    simp only [Node.isCoreStmt, Bool.and_eq_true]
    exact ⟨⟨⟨⟨Node.isCoreExpr_of_exprTy? hc, hy⟩, Node.isCoreStmt_of_stmtTyped hy'⟩, hn⟩,
      Node.isCoreStmt_of_stmtTyped hn'⟩
  | _ => cases h

theorem Node.areCoreStmts_of_membersTyped :
    ∀ {Γ : Vars} {ms : List Node}, membersTyped Γ ms → Node.areCoreStmts ms
  | _, [], _ => rfl
  | Γ, m :: ms, h => by
    simp only [Node.areCoreStmts, Bool.and_eq_true, Bool.not_eq_true']
    rcases membersTyped_cons h with ⟨x, e, τ, rfl, he, hms⟩ | ⟨-, hnone, hm, hms⟩
    · have hvar : (Node.var x τ.node e).isCoreStmt := by
        have hty : (Ty.ofNode? τ.node).isSome := by cases τ <;> rfl
        simp [Node.isCoreStmt, hty, Node.isCoreExpr_of_exprTy? he]
      exact ⟨⟨rfl, hvar⟩, Node.areCoreStmts_of_membersTyped hms⟩
    · exact ⟨⟨hnone, Node.isCoreStmt_of_stmtTyped hm⟩, Node.areCoreStmts_of_membersTyped hms⟩

end

theorem Node.isExprTree_of_isCoreExpr (h : e.isCoreExpr) : e.isExprTree := by
  fun_induction Node.isCoreExpr e with
  | case1 v =>
    cases v with
    | int | text => rfl
    | _ => cases h
  | case2 => rfl
  | case3 op l r ihl ihr =>
    simp only [Bool.and_eq_true] at h
    simp only [Node.isExprTree, h.1.1, ihl h.1.2, ihr h.2, Bool.and_self]
  | case4 => cases h

mutual

theorem Node.isStmtTree_of_isCoreStmt : ∀ {m : Node}, m.isCoreStmt → m.isStmtTree := by
  intro m h
  cases m with
  | none => rfl
  | var x t e =>
    simp only [Node.isCoreStmt, Bool.and_eq_true, Option.isSome_iff_exists] at h
    obtain ⟨⟨τ, hτ⟩, he⟩ := h
    obtain rfl := Ty.eq_node_of_ofNode? hτ
    cases τ <;> simp [Node.isStmtTree, Ty.node, Node.isTypeTree, Node.isExprTree_of_isCoreExpr he]
  | assign l e =>
    cases l with
    | id x =>
      simp only [Node.isStmtTree, Node.isTarget, Node.isExprTree, Bool.true_and]
      exact Node.isExprTree_of_isCoreExpr h
    | _ => cases h
  | block ms => exact Node.areStmtTrees_of_areCoreStmts h
  | ifElse c y n =>
    simp only [Node.isCoreStmt, Bool.and_eq_true] at h
    obtain ⟨⟨⟨⟨hc, hy⟩, hy'⟩, hn⟩, hn'⟩ := h
    simp only [Node.isStmtTree, Bool.and_eq_true]
    exact ⟨⟨⟨⟨Node.isExprTree_of_isCoreExpr hc, hy⟩, Node.isStmtTree_of_isCoreStmt hy'⟩, hn⟩,
      Node.isStmtTree_of_isCoreStmt hn'⟩
  | _ => cases h

theorem Node.areStmtTrees_of_areCoreStmts :
    ∀ {ms : List Node}, Node.areCoreStmts ms → Node.areStmtTrees ms
  | [], _ => rfl
  | m :: ms, h => by
    simp only [Node.areCoreStmts, Bool.and_eq_true] at h
    simp only [Node.areStmtTrees, Bool.and_eq_true]
    exact ⟨⟨h.1.1, Node.isStmtTree_of_isCoreStmt h.1.2⟩, Node.areStmtTrees_of_areCoreStmts h.2⟩

end

/-! ## Blocks in order -/

/-- The first name that a member of a block is an assignment to. -/
def firstAssigned? : List Node → Option String
  | [] => none
  | .assign (.id x) _ :: _ => some x
  | _ :: ms => firstAssigned? ms

mutual

/-- Whether the first assignment of every block is to a name that is not known outside of the
block.  Inside of a block all names are known that its members declare or assign to. -/
def stmtOrdered (known : List String) : Node → Bool
  | .block ms => (firstAssigned? ms).all (fun x => x ∉ known) &&
      membersOrdered (ms.filterMap Node.introduced? ++ known) ms
  | .ifElse _ y n => stmtOrdered known y && stmtOrdered known n
  | _ => true

/-- Whether statements in a row are in order. -/
def membersOrdered (known : List String) : List Node → Bool
  | [] => true
  | m :: ms => stmtOrdered known m && membersOrdered known ms

end

def Stage.ordered (known : List String) : Stage → Bool
  | stmt m => stmtOrdered known m
  | members ms => membersOrdered known ms

/-- Whether a function of a program is in order. -/
def funcOrdered (ds : List Node) : Node → Bool
  | .func n ps _ b => stmtOrdered ((methodParams n ps).map Prod.fst ++ topNames ds) b
  | _ => true

/-- The environment has the names of the list, and no others. -/
def Knows (known : List String) (env : List Symbol) : Prop :=
  ∀ x, x ∈ known ↔ x ∈ env.map Symbol.name

theorem Knows.of_find? {known : List String} (h : Knows known env) :
    x ∈ known ↔ (Symbol.find? x env).isSome := by
  rw [h x, Symbol.find?, List.find?_isSome]
  simp

theorem firstAssigned?_cons {m : Node} (h : firstAssigned? (m :: ms) = some x) :
    (∃ e, m = .assign (.id x) e) ∨ firstAssigned? ms = some x := by
  cases m with
  | assign l e =>
    cases l with
    | id y =>
      cases h
      exact .inl ⟨e, rfl⟩
    | _ => exact .inr h
  | _ => exact .inr h

/-- The names of a block are those of its members. -/
theorem Declared.map_name {outer ls : List Symbol} {p : Gen.Pass}
    (h : Declared outer p ms f c ls g) (x : String) :
    x ∈ (ls ++ outer).map Symbol.name ↔
      x ∈ p.locals.map Symbol.name ∨ x ∈ ms.filterMap Node.introduced? ∨
        x ∈ outer.map Symbol.name := by
  induction h with
  | done => simp
  | @take p m ms f n u g s d c ls h hm _ _ _ ih =>
    rw [ih, List.filterMap_cons_some hm.introduced?]
    simp [Gen.Pass.noting, Symbol.localVar, or_assoc]
  | @known p n e ms f y slot u s d c ls h hy _ _ _ _ _ ih =>
    have hn : n ∈ outer.map Symbol.name :=
      Symbol.name_of_find? hy ▸ List.mem_map_of_mem (Symbol.mem_of_find? hy)
    rw [ih, show (Node.assign (.id n) e :: ms).filterMap Node.introduced? =
      n :: ms.filterMap Node.introduced? from rfl, List.mem_cons]
    constructor
    · rintro (hx | hx | hx)
      · exact .inl hx
      · exact .inr (.inl (.inr hx))
      · exact .inr (.inr hx)
    · rintro (hx | (rfl | hx) | hx)
      · exact .inl hx
      · exact .inr (.inr hn)
      · exact .inr (.inl hx)
      · exact .inr (.inr hx)
  | skip hm _ ih => rw [ih, List.filterMap_cons_none hm]

/-- While no assignment has introduced a name, the next one has to. -/
theorem Declared.firstAssigned {outer ls : List Symbol} {p : Gen.Pass} {ms : List Node}
    {f g : Frame} {c : Code} (h : Declared outer p ms f c ls g) (hp : p.type? = none) {x : String}
    (hx : firstAssigned? ms = some x) : Symbol.find? x outer = none := by
  induction h with
  | done => cases hx
  | @take p m ms f n u g s d c ls h hm _ _ _ ih =>
    rcases firstAssigned?_cons hx with ⟨e, rfl⟩ | hrest
    · cases hm with
      | assigned hn _ => exact hn
    · cases hm with
      | assigned hn _ =>
        cases hx
        exact hn
      | _ => exact ih hp hrest
  | known _ _ htype _ _ _ _ =>
    rw [hp] at htype
    cases htype
  | skip hm _ ih =>
    rcases firstAssigned?_cons hx with ⟨e, rfl⟩ | hrest
    · cases hm
    · exact ih hp hrest

/-- Code that is there is for blocks in order. -/
theorem Printed.ordered {stage : Stage} (h : Printed env stage f c g) {known : List String}
    (hknown : Knows known env) : stage.ordered known := by
  induction h generalizing known with
  | @block env ms f c ls g d h hls _ ih =>
    have hinner : Knows (ms.filterMap Node.introduced? ++ known) (ls ++ env) := by
      intro x
      rw [hls.map_name, List.mem_append, hknown x]
      simp
    simp only [Stage.ordered, stmtOrdered, Bool.and_eq_true, Option.all_eq_true,
      decide_eq_true_eq]
    refine ⟨fun x hx hmem => ?_, ih hinner⟩
    have hnone := hls.firstAssigned rfl hx
    rw [hknown.of_find?, hnone] at hmem
    cases hmem
  | ifOnly _ _ _ ih =>
    simp only [Stage.ordered, stmtOrdered, Bool.and_true]
    exact ih hknown
  | ifElse _ _ _ _ _ ih ih' =>
    simp only [Stage.ordered, stmtOrdered, Bool.and_eq_true]
    exact ⟨ih hknown, ih' hknown⟩
  | member _ _ ih ih' =>
    simp only [Stage.ordered, membersOrdered, Bool.and_eq_true]
    exact ⟨ih hknown, ih' hknown⟩
  | _ => rfl

/-! ## Names that can be used -/

/-- Whether the value of a name can be read: it is in a slot that can be loaded, or in a field of
the program. -/
def Symbol.isReadable (s : Symbol) : Bool :=
  match s.home with
  | .slot _ => (bankFor? s.name s.type).isSome
  | .member owner _ => owner == mainClass
  | .unknown => false

/-- Whether a value can be written to a name. -/
def Symbol.isWritable (s : Symbol) : Bool :=
  match s.home with
  | .slot _ => s.type.bank?.isSome
  | _ => true

/-- Whether all names in an expression can be read. -/
def exprUsable (env : List Symbol) : Node → Bool
  | .id x => (Symbol.find? x env).any Symbol.isReadable
  | .binary _ l r => exprUsable env l && exprUsable env r
  | _ => true

/-- Whether the first pass over a block can type the names that assignments introduce.  It knows
the names of the members before. -/
def passUsable (outer : List Symbol) : List Symbol → Int → List Node → Bool
  | _, _, [] => true
  | locals, i, m :: ms =>
    (match m with
      | .assign (.id x) e => (Symbol.find? x outer).isSome || exprUsable (locals ++ outer) e
      | _ => true) &&
    match taken outer locals i m with
    | some (x, t, j) => passUsable outer (locals ++ [.localVar x t j]) (j + 1) ms
    | none => passUsable outer locals i ms

mutual

/-- Whether all names in a statement can be used in the way they are, where `i` is the first slot
that is free.  In a block, all names of the block are known. -/
def stmtUsable (env : List Symbol) (i : Int) : Node → Bool
  | .var x _ e | .assign (.id x) e =>
    (Symbol.find? x env).any Symbol.isWritable && exprUsable env e
  | .block ms =>
    let first := takes env [] i ms
    passUsable env [] i ms && membersUsable (first.1.reduceOption ++ env) first.2 ms
  | .ifElse c y n => exprUsable env c && stmtUsable env (i + temps c) y &&
      stmtUsable env (i + temps c + stmtTemps y) n
  | _ => true

/-- Whether all names in the members of a block can be used. -/
def membersUsable (env : List Symbol) (i : Int) : List Node → Bool
  | [] => true
  | m :: ms => stmtUsable env i m && membersUsable env (i + stmtTemps m) ms

end

def Stage.usable (env : List Symbol) (i : Int) : Stage → Bool
  | stmt m => stmtUsable env i m
  | members ms => membersUsable env i ms

def Stage.isCore : Stage → Bool
  | stmt m => m.isCoreStmt
  | members ms => Node.areCoreStmts ms

/-- Whether all names in a function of a program can be used. -/
def funcUsable (ds : List Node) : Node → Bool
  | .func n ps _ b => stmtUsable (paramSymbols 0 (methodParams n ps) ++ globalSymbols ds)
      (methodParams n ps).length b
  | _ => true

theorem Node.bank?_congr {u : Node} (h : t.outline = u.outline) : t.bank? = u.bank? := by
  have outline (t : Node) : t.outline.bank? = t.bank? := by cases t <;> rfl
  rw [← outline t, h, outline]

theorem Symbol.Alike.isReadable_eq {s t : Symbol} (h : s.Alike t) :
    s.isReadable = t.isReadable := by
  simp only [isReadable, h.home, h.name, bankFor?, Node.bank?_congr h.type]

theorem Symbol.Alike.isWritable_eq {s t : Symbol} (h : s.Alike t) :
    s.isWritable = t.isWritable := by
  simp only [isWritable, h.home, Node.bank?_congr h.type]

theorem Alike.any_eq (h : Alike E env) {test : Symbol → Bool}
    (htest : ∀ s t, s.Alike t → test s = test t) (x : String) :
    (Symbol.find? x E).any test = (Symbol.find? x env).any test := by
  rcases h.find? x with ⟨hE, henv⟩ | ⟨s, t, hE, henv, hst⟩
  · rw [hE, henv]
  · rw [hE, henv]
    exact htest s t hst

theorem Alike.exprUsable_eq (h : Alike E env) (e : Node) : exprUsable E e = exprUsable env e := by
  fun_induction exprUsable E e with
  | case1 x => exact h.any_eq (fun _ _ hst => hst.isReadable_eq) x
  | case2 op l r ihl ihr => simp only [exprUsable, ihl, ihr]
  | case3 e => cases e <;> simp_all [exprUsable]

theorem Reads.isReadable (h : Reads env x f c t g) :
    (Symbol.find? x env).any Symbol.isReadable := by
  cases h with
  | slot hs hhome hb =>
    rw [hs]
    simp [Symbol.isReadable, hhome, Symbol.name_of_find? hs, hb]
  | static hs hhome _ =>
    rw [hs]
    simp [Symbol.isReadable, hhome]

/-- The names in code that is there can be read. -/
theorem Coded.usable (he : e.isCoreExpr) (h : Coded env (.expr e) f c t g) : exprUsable env e := by
  fun_induction Node.isCoreExpr e generalizing f g c t with
  | case1 v => rfl
  | case2 x =>
    cases h with
    | name h => exact h.isReadable
  | case3 op l r ihl ihr =>
    simp only [Bool.and_eq_true] at he
    simp only [exprUsable, Bool.and_eq_true]
    cases h with
    | arithmetic _ hl hr | comparison _ hl hr | both hl hr | either hl hr =>
      exact ⟨ihl he.1.2 hl, ihr he.2 hr⟩
  | case4 => cases he

theorem Declared.usable {outer ls : List Symbol} (houter : Alike E outer) {p : Gen.Pass}
    (h : Declared outer p ms f c ls g) (hms : Node.areCoreStmts ms) {L : List Symbol}
    (hlocals : Alike L p.locals) : passUsable E L f.index ms := by
  induction h generalizing L with
  | done => rfl
  | @take p m ms f n u g s d c ls h hm _ _ _ ih =>
    simp only [Node.areCoreStmts, Bool.and_eq_true] at hms
    obtain ⟨t, htaken, ht⟩ := hm.taken houter hlocals
    have hnext : Alike (L ++ [Symbol.localVar n t g.index]) (p.noting m n u g.index).locals :=
      hlocals.append (.cons ⟨rfl, rfl, ht⟩ .nil)
    simp only [passUsable, htaken, Bool.and_eq_true]
    refine ⟨?_, ih hms.2 hnext⟩
    cases hm with
    | assigned _ hc =>
      simp only [Bool.or_eq_true]
      exact .inr ((hlocals.append houter).exprUsable_eq _ ▸ hc.usable hms.1.2)
    | _ => rfl
  | @known p n e ms f x slot u s d c ls h hx _ _ _ _ _ ih =>
    simp only [Node.areCoreStmts, Bool.and_eq_true] at hms
    obtain ⟨s, hs, -⟩ := houter.find?_some hx
    have htaken : taken E L f.index (.assign (.id n) e) = none := by simp [taken, hs]
    simp only [passUsable, htaken, hs, Bool.and_eq_true]
    exact ⟨rfl, ih hms.2 hlocals⟩
  | @skip p m ms f c ls h hm _ ih =>
    simp only [Node.areCoreStmts, Bool.and_eq_true] at hms
    simp only [passUsable, taken_eq_none hm, Bool.and_eq_true]
    refine ⟨?_, ih hms.2 hlocals⟩
    split
    · cases hm
    · rfl

/-- The names in code that is there can be used. -/
theorem Printed.usable {stage : Stage} (h : Printed env stage f c g) (hcore : stage.isCore)
    (henv : Alike E env) : stage.usable E f.index := by
  -- A name that is stored to, and the value that is stored.
  have stores {env : List Symbol} {E : List Symbol} (henv : Alike E env) {x : String} {s : Symbol}
      {e : Node} {f g : Frame} {c : Code} {u : Node} (hs : Symbol.find? x env = some s)
      (hwrite : s.isWritable) (he : e.isCoreExpr) (hc : Coded env (.expr e) f c u g) :
      ((Symbol.find? x E).any Symbol.isWritable && exprUsable E e) = true := by
    rw [henv.any_eq (fun _ _ hst => hst.isWritable_eq), henv.exprUsable_eq, hs, hc.usable he]
    simp [hwrite]
  induction h generalizing E with
  | @var env n t i s j f c u g b h hs hhome hc hb _ =>
    simp only [Stage.isCore, Node.isCoreStmt, Bool.and_eq_true] at hcore
    exact stores henv hs (by simp [Symbol.isWritable, hhome, hb]) hcore.2 hc
  | zero => simp [Stage.isCore, Node.isCoreStmt, Node.isCoreExpr] at hcore
  | assignSlot hs hhome hc hb _ =>
    exact stores henv hs (by simp [Symbol.isWritable, hhome, hb]) hcore hc
  | assignStatic hs hhome hc _ _ =>
    exact stores henv hs (by simp [Symbol.isWritable, hhome]) hcore hc
  | @block env ms f c ls g d h hls _ ih =>
    obtain ⟨hlocals, hindex⟩ := hls.takes henv (Alike.refl [])
    have inner := ih hcore (hlocals.append henv)
    rw [hindex] at inner
    simp only [Stage.usable, stmtUsable, Bool.and_eq_true]
    exact ⟨hls.usable henv hcore (Alike.refl []), inner⟩
  | @ifOnly env e y f c t g h d k hc hd _ ih =>
    simp only [Stage.isCore, Node.isCoreStmt, Bool.and_eq_true] at hcore
    have hindex : h.index = f.index + temps e := hd.sameCounters.index.trans hc.index_eq
    have yes := ih hcore.1.1.2 henv
    rw [hindex] at yes
    simp only [Stage.usable, stmtUsable, Bool.and_true, Bool.and_eq_true]
    exact ⟨henv.exprUsable_eq e ▸ hc.usable hcore.1.1.1.1, yes⟩
  | @ifElse env e y n f c t g h d k d' m hc hd _ hy _ ih ih' =>
    simp only [Stage.isCore, Node.isCoreStmt, Bool.and_eq_true] at hcore
    have hindex : h.index = f.index + temps e := hd.sameCounters.index.trans hc.index_eq
    have hindex' : k.index = f.index + temps e + stmtTemps y := by
      rw [hy.index_eq, hindex]
      rfl
    have yes := ih hcore.1.1.2 henv
    have no := ih' hcore.2 henv
    rw [hindex] at yes
    rw [hindex'] at no
    simp only [Stage.usable, stmtUsable, Bool.and_eq_true]
    exact ⟨⟨henv.exprUsable_eq e ▸ hc.usable hcore.1.1.1.1, yes⟩, no⟩
  | @member env m ms f c g d h hm _ ih ih' =>
    simp only [Stage.isCore, Node.areCoreStmts, Bool.and_eq_true] at hcore
    have rest := ih' hcore.2 henv
    rw [hm.index_eq] at rest
    simp only [Stage.usable, membersUsable, Bool.and_eq_true]
    exact ⟨ih hcore.1.2 henv, rest⟩
  | _ => rfl

/-! ## Visible names can be used -/

/-- Whether a name can be read and written. -/
def Symbol.isUsable (s : Symbol) : Bool := s.isReadable && s.isWritable

/-- Every variable is found, and can be used. -/
def Served (Γ : Vars) (env : List Symbol) : Prop :=
  ∀ x τ, Γ.lookup x = some τ → ∃ s, Symbol.find? x env = some s ∧ s.isUsable

/-- Every name that is found can be used. -/
def AllUsable (ls : List Symbol) : Prop := ∀ x s, Symbol.find? x ls = some s → s.isUsable

theorem Symbol.isUsable_localVar (x : String) (τ : Ty) (i : Int) :
    (Symbol.localVar x τ.node i).isUsable := by
  have hbank : τ.node.bank? = some .int := by cases τ <;> rfl
  by_cases hx : x = "this" <;>
    simp [isUsable, isReadable, isWritable, Symbol.localVar, bankFor?, hbank, hx]

theorem exprTy?.usable (henv : Served Γ env) (h : exprTy? Γ e = some τ) : exprUsable env e := by
  fun_induction exprUsable env e generalizing τ with
  | case1 x =>
    obtain ⟨s, hs, husable⟩ := henv x τ h
    simp only [Symbol.isUsable, Bool.and_eq_true] at husable
    rw [hs]
    exact husable.1
  | case2 op l r ihl ihr =>
    obtain ⟨-, σ, hl, hr⟩ := exprTy?_binary h
    rw [ihl hl, ihr hr]
    rfl
  | case3 => rfl

section Hoisting

variable {Γ : Vars} {ls env : List Symbol}

/-- The names of a block may be known before they are visible. -/
theorem Served.enter (h : Served Γ env) (hls : AllUsable ls) : Served Γ (ls ++ env) := by
  intro x τ hx
  rw [Symbol.find?_append]
  rcases hfind : Symbol.find? x ls with _ | s
  · exact h x τ hx
  · exact ⟨s, rfl, hls x s hfind⟩

variable {x : String} {s : Symbol}

/-- A variable becomes visible that is known already. -/
theorem Served.see (h : Served Γ (ls ++ env)) (hls : AllUsable ls) {τ : Ty}
    (hx : (Symbol.find? x ls).isSome) : Served ((x, τ) :: Γ) (ls ++ env) := by
  intro y σ hy
  by_cases hxy : y = x
  · subst hxy
    obtain ⟨s, hs⟩ := Option.isSome_iff_exists.1 hx
    exact ⟨s, by rw [Symbol.find?_append, hs]; rfl, hls y s hs⟩
  · have hne : (y == x) = false := by simpa using hxy
    simp only [List.lookup_cons, hne] at hy
    exact h y σ hy

/-- A symbol after another of the same name is not found. -/
theorem Symbol.find?_snoc (hs : (Symbol.find? s.name ls).isSome) (x : String) :
    Symbol.find? x (ls ++ [s]) = Symbol.find? x ls := by
  rw [Symbol.find?_append]
  rcases hfind : Symbol.find? x ls with _ | t
  · have hne : s.name ≠ x := by
      rintro rfl
      simp [hfind] at hs
    simp [Symbol.find?, hne]
  · rfl

theorem AllUsable.singleton (hs : s.isUsable) : AllUsable [s] := by
  intro x t ht
  rwa [List.mem_singleton.1 (Symbol.mem_of_find? ht)]

theorem AllUsable.append {ls' : List Symbol} (h : AllUsable ls) (h' : AllUsable ls') :
    AllUsable (ls ++ ls') := by
  intro x s hs
  rw [Symbol.find?_append] at hs
  rcases hfind : Symbol.find? x ls with _ | t
  · rw [hfind] at hs
    exact h' x s hs
  · rw [hfind] at hs
    cases hs
    exact h x s hfind

theorem Served.grow {ls' : List Symbol} (h : Served Γ (ls ++ env)) (hls' : AllUsable ls')
    (hmore : ∀ x, Symbol.find? x ls' = none → Symbol.find? x ls = none) :
    Served Γ (ls' ++ env) := by
  intro x τ hx
  obtain ⟨s, hs, husable⟩ := h x τ hx
  rcases hfind : Symbol.find? x ls' with _ | s'
  · rw [Symbol.find?_append, hmore x hfind] at hs
    exact ⟨s, by rw [Symbol.find?_append, hfind]; exact hs, husable⟩
  · exact ⟨s', by rw [Symbol.find?_append, hfind]; rfl, hls' x s' hfind⟩

theorem Symbol.find?_of_snoc (h : Symbol.find? x (ls ++ [s]) = none) :
    Symbol.find? x ls = none := by
  rw [Symbol.find?_append] at h
  exact (Option.or_eq_none_iff.1 h).1

/-- The first pass over a typed block can type all names that it finds, and they can be used.  An
assignment introduces a name a second time then, and the first symbol is the one that counts. -/
theorem membersTyped.pass : ∀ {ms : List Node} {Γ : Vars} {L : List Symbol} {i : Int},
    membersTyped Γ ms → Served Γ (L ++ env) → AllUsable L →
    passUsable env L i ms ∧ AllUsable (L ++ (takes env L i ms).1.reduceOption)
  | [], Γ, L, i, _, _, hL => ⟨rfl, by simpa [takes, List.reduceOption] using hL⟩
  | m :: ms, Γ, L, i, h, hserved, hL => by
    have take {n : String} {t : Node} {j : Int} {Γ' : Vars}
        (htaken : taken env L i m = some (n, t, j)) (hms : membersTyped Γ' ms)
        (hserved : Served Γ' (L ++ [Symbol.localVar n t j] ++ env))
        (hL' : AllUsable (L ++ [Symbol.localVar n t j])) :
        passUsable env (L ++ [Symbol.localVar n t j]) (j + 1) ms ∧
          AllUsable (L ++ (takes env L i (m :: ms)).1.reduceOption) := by
      rw [takes_cons_some htaken]
      simpa using membersTyped.pass hms hserved hL'
    have skip (htaken : taken env L i m = none) (hms : membersTyped Γ ms) :
        passUsable env L i ms ∧ AllUsable (L ++ (takes env L i (m :: ms)).1.reduceOption) := by
      rw [takes_cons_none htaken]
      simpa using membersTyped.pass hms hserved hL
    rcases membersTyped_cons h with ⟨x, e, τ, rfl, he, hms⟩ | ⟨hdeclared, -, hm, hms⟩
    · have htaken : taken env L i (.var x τ.node e) = some (x, τ.node, i) := by cases τ <;> rfl
      have hL' := hL.append (.singleton (Symbol.isUsable_localVar x τ i))
      have hx : (Symbol.find? x (L ++ [Symbol.localVar x τ.node i])).isSome := by
        simp [Symbol.find?, Symbol.localVar]
      have hserved' : Served ((x, τ) :: Γ) (L ++ [Symbol.localVar x τ.node i] ++ env) :=
        (hserved.grow hL' fun _ => Symbol.find?_of_snoc).see hL' hx
      simp only [passUsable, htaken, Bool.true_and]
      exact take htaken hms hserved' hL'
    · rcases hintroduced : m.introduced? with _ | x
      · have htaken := @taken_eq_none env L i m hintroduced
        have hpass := skip htaken hms
        simp only [passUsable, htaken, Bool.and_eq_true]
        refine ⟨⟨?_, hpass.1⟩, hpass.2⟩
        split
        · cases hintroduced
        · rfl
      · obtain ⟨e, rfl⟩ : ∃ e, m = .assign (.id x) e := by
          cases m with
          | var | const => cases hdeclared
          | assign l e =>
            cases l with
            | id y =>
              cases hintroduced
              exact ⟨e, rfl⟩
            | _ => cases hintroduced
          | _ => cases hintroduced
        simp only [stmtTyped, Bool.and_eq_true, beq_iff_eq, Option.isSome_iff_exists] at hm
        obtain ⟨⟨τ, hx⟩, he⟩ := hm
        rcases houter : Symbol.find? x env with _ | s
        · obtain ⟨s, hs, -⟩ := hserved x τ hx
          rw [Symbol.find?_append, houter, Option.or_none] at hs
          have htaken : taken env L i (.assign (.id x) e) =
              some (x, typeIn (L ++ env) e, i + temps e) := by simp [taken, houter]
          have hL' : AllUsable (L ++ [Symbol.localVar x (typeIn (L ++ env) e) (i + temps e)]) := by
            intro y t ht
            rw [Symbol.find?_snoc (Option.isSome_iff_exists.2 ⟨s, hs⟩)] at ht
            exact hL y t ht
          have hpass := take htaken hms (hserved.grow hL' fun _ => Symbol.find?_of_snoc) hL'
          simp only [passUsable, htaken, houter, exprTy?.usable hserved (he.trans hx)]
          exact ⟨hpass.1, hpass.2⟩
        · have htaken : taken env L i (.assign (.id x) e) = none := by simp [taken, houter]
          have hpass := skip htaken hms
          simp only [passUsable, htaken, houter]
          exact ⟨hpass.1, hpass.2⟩

theorem taken_declared {m : Node} (hx : m.declared? = some x) (L : List Symbol) (i : Int) :
    ∃ t j, taken env L i m = some (x, t, j) := by
  cases m with
  | var y t e =>
    cases hx
    by_cases ht : t.truthy
    · exact ⟨writtenType t, i, by simp [taken, ht]⟩
    · exact ⟨typeIn (L ++ env) e, i + temps e, by simp [taken, ht]⟩
  | const y t e =>
    cases hx
    exact ⟨typeIn (L ++ env) e, i + temps e, rfl⟩
  | _ => cases hx

/-- Every declared variable is among the names of its block. -/
theorem takes_declared {x : String} {m : Node} (hx : m.declared? = some x) :
    ∀ {ms : List Node} {L : List Symbol} {i : Int}, m ∈ ms →
      (Symbol.find? x (takes env L i ms).1.reduceOption).isSome
  | m' :: ms, L, i, hm => by
    rcases List.mem_cons.1 hm with rfl | hm
    · obtain ⟨t, j, htaken⟩ := taken_declared hx L i
      rw [takes_cons_some htaken]
      simp [Symbol.find?, Symbol.localVar, List.reduceOption_cons_of_some]
    · rcases htaken : taken env L i m' with _ | ⟨n, t, j⟩
      · rw [takes_cons_none htaken]
        exact takes_declared hx hm
      · rw [takes_cons_some htaken, List.reduceOption_cons_of_some, Symbol.find?, List.find?_cons]
        split
        · rfl
        · exact takes_declared hx hm

end Hoisting

mutual

/-- In a typed statement all names can be used, where the visible ones can be. -/
theorem stmtTyped.usable : ∀ {m : Node} {Γ : Vars} {env : List Symbol} {i : Int},
    stmtTyped Γ m → Served Γ env → stmtUsable env i m := by
  intro m Γ env i h henv
  cases m with
  | none => rfl
  | assign l e =>
    cases l with
    | id x =>
      simp only [stmtTyped, Bool.and_eq_true, beq_iff_eq, Option.isSome_iff_exists] at h
      obtain ⟨⟨τ, hx⟩, he⟩ := h
      obtain ⟨s, hs, husable⟩ := henv x τ hx
      simp only [Symbol.isUsable, Bool.and_eq_true] at husable
      simp [stmtUsable, hs, husable.2, exprTy?.usable henv (he.trans hx)]
    | _ => cases h
  | block ms =>
    have hempty : AllUsable [] := by simp [AllUsable, Symbol.find?]
    obtain ⟨hpass, hlocals⟩ := membersTyped.pass (L := []) (i := i) h henv hempty
    simp only [stmtUsable, Bool.and_eq_true]
    exact ⟨hpass, membersTyped.usable h (henv.enter hlocals) hlocals
      fun m hm x hx => takes_declared hx hm⟩
  | ifElse c y n =>
    simp only [stmtTyped, Bool.and_eq_true, beq_iff_eq] at h
    obtain ⟨⟨⟨⟨hc, -⟩, hy⟩, -⟩, hn⟩ := h
    simp only [stmtUsable, Bool.and_eq_true]
    exact ⟨⟨exprTy?.usable henv hc, stmtTyped.usable hy henv⟩, stmtTyped.usable hn henv⟩
  | _ => cases h

theorem membersTyped.usable : ∀ {ms : List Node} {Γ : Vars} {ls env : List Symbol} {i : Int},
    membersTyped Γ ms → Served Γ (ls ++ env) → AllUsable ls →
    (∀ m ∈ ms, ∀ x, m.declared? = some x → (Symbol.find? x ls).isSome) →
    membersUsable (ls ++ env) i ms
  | [], Γ, ls, env, i, _, _, _, _ => rfl
  | m :: ms, Γ, ls, env, i, h, henv, hls, hnames => by
    have hrest := fun m hm => hnames m (List.mem_cons_of_mem _ hm)
    simp only [membersUsable, Bool.and_eq_true]
    rcases membersTyped_cons h with ⟨x, e, τ, rfl, he, hms⟩ | ⟨-, -, hm, hms⟩
    · have hx := hnames _ (List.mem_cons_self ..) x rfl
      obtain ⟨s, hs⟩ := Option.isSome_iff_exists.1 hx
      have husable := hls x s hs
      simp only [Symbol.isUsable, Bool.and_eq_true] at husable
      refine ⟨?_, membersTyped.usable hms (henv.see hls hx) hls hrest⟩
      simp [stmtUsable, Symbol.find?_append, hs, husable.2, exprTy?.usable henv he]
    · exact ⟨stmtTyped.usable hm henv, membersTyped.usable hms henv hls hrest⟩

end

theorem Served.append {Γ' : Vars} {env' : List Symbol} (h : Served Γ env) (henv : AllUsable env)
    (h' : Served Γ' env') : Served (Γ ++ Γ') (env ++ env') := by
  intro x τ hx
  rw [List.lookup_append] at hx
  rcases hlookup : Γ.lookup x with _ | σ
  · rw [hlookup] at hx
    exact h'.enter henv x τ hx
  · obtain ⟨s, hs, husable⟩ := h x σ hlookup
    exact ⟨s, by rw [Symbol.find?_append, hs]; rfl, husable⟩

/-- The parameters of a function are found in their slots. -/
theorem paramSymbols_served : ∀ {ps : List Node} {i : Int},
    ps.all (fun p => p.paramVar?.isSome) →
    Served (ps.filterMap Node.paramVar?) (paramSymbols i (ps.map Node.paramParts)) ∧
      AllUsable (paramSymbols i (ps.map Node.paramParts))
  | [], i, _ => ⟨by simp [Served], by simp [AllUsable, paramSymbols, Symbol.find?]⟩
  | p :: ps, i, hps => by
    simp only [List.all_cons, Bool.and_eq_true, Option.isSome_iff_exists] at hps
    obtain ⟨⟨⟨x, τ⟩, hp⟩, hps⟩ := hps
    obtain ⟨hserved, husable⟩ := paramSymbols_served (i := i + 1) hps
    obtain rfl := Node.eq_param_of_paramVar? hp
    have hfirst : AllUsable [.localVar x τ.node i] := .singleton (Symbol.isUsable_localVar x τ i)
    have hparam : Served [(x, τ)] [.localVar x τ.node i] := by
      intro z σ hz
      obtain ⟨_, _, hsplit, -⟩ := List.lookup_eq_some_iff.1 hz
      obtain rfl : x = z := by
        have hmem : (z, σ) ∈ [(x, τ)] := by simp [hsplit]
        exact (congrArg Prod.fst (List.mem_singleton.1 hmem)).symm
      exact ⟨_, by simp [Symbol.find?, Symbol.localVar], Symbol.isUsable_localVar x τ i⟩
    rw [List.filterMap_cons_some hp]
    exact ⟨hparam.append hfirst hserved, hfirst.append husable⟩

theorem globalVars_served {ds : List Node} (hnames : (topNames ds).Nodup) :
    Served (globalVars ds) (globalSymbols ds) := by
  intro x τ hx
  refine ⟨_, find?_globalVars hnames hx, ?_⟩
  simp [Symbol.isUsable, Symbol.isReadable, Symbol.isWritable, Symbol.global]

/-- All names in a typed function can be used, unless the main function has parameters of its
own. -/
theorem funcUsable_of_isCoreDecl {ds : List Node} (hnames : (topNames ds).Nodup) {n : String}
    {ps : List Node} {r b : Node} (h : isCoreDecl (globalVars ds) (.func n ps r b))
    (hmain : n = "main" → ps = []) : funcUsable ds (.func n ps r b) := by
  simp only [isCoreDecl, Bool.and_eq_true] at h
  obtain ⟨⟨⟨hps, -⟩, -⟩, hb⟩ := h
  have hglobals := globalVars_served hnames
  refine stmtTyped.usable hb ?_
  by_cases hn : n = "main"
  · obtain rfl := hmain hn
    have hargs : AllUsable (paramSymbols 0 (methodParams n [])) := by
      intro x s hs
      have hmem := Symbol.mem_of_find? hs
      simp only [methodParams, hn, if_true, paramSymbols, List.mem_singleton] at hmem
      rw [hmem]
      rfl
    exact hglobals.enter hargs
  · obtain ⟨hserved, husable⟩ := paramSymbols_served (i := 0) hps
    simp only [methodParams, hn, if_false]
    exact hserved.append husable hglobals

end MiniGoc
