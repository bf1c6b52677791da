import MiniGoc.Proofs.Coded
import MiniGoc.Listing.Stmt

/-!
# The code of a statement

`Printed env (.stmt m) f c g` says that in the environment `env` the statement `m` prints
the code `c`, and takes the frame `f` to `g`.  A block is read twice.  The first pass
(`Declared`) gives a slot to every name that the block introduces, and prints a line for
it; the second pass prints the members, with all these names known.  So the environment
of a member holds the names of the whole block, those of later members included.

The main result is `stmtPrinted`: where the generator yields on a statement as it is
written, and no piece of what it printed is missing, the rules derive the code.
-/

namespace MiniGoc

open Act (Yields yields_bind yields_pure)
open Emit

/-! ## The first pass -/

/-- The name that the first pass over a block finds in a member. -/
def Node.introduced? : Node → Option String
  | var n _ _ | const n _ _ | assign (id n) _ => some n
  | _ => Option.none

/-- Whether a value can be known in advance.  Operators are not computed. -/
def Node.isConstant : Node → Bool
  | binary .. | unary .. => false
  | _ => true

/-- A member gives a slot to a name: a declaration, or an assignment to a name that is not
known outside of the block.  Its type is the declared one, or that of the value. -/
inductive Introduces (outer locals : List Symbol) : Node → Frame → String → Node → Frame → Prop
    where
  | typed {n t i f u g} : t.truthy → TypeOf (locals ++ outer) t f u g →
      Introduces outer locals (.var n t i) f n u g
  | untyped {n i f c u g} : Coded (locals ++ outer) (.expr i) f c u g →
      Introduces outer locals (.var n .none i) f n u g
  | constant {n t i f c u g} : i.isConstant → Coded (locals ++ outer) (.expr i) f c u g →
      Introduces outer locals (.const n t i) f n u g
  | assigned {n e f c u g} : Symbol.find? n outer = none →
      Coded (locals ++ outer) (.expr e) f c u g →
      Introduces outer locals (.assign (.id n) e) f n u g

/-- What the first pass has found after a member has taken a slot. -/
def Gen.Pass.noting (p : Gen.Pass) (m : Node) (n : String) (u : Node) (slot : Int) : Gen.Pass where
  locals := p.locals ++ [.localVar n u slot]
  slot? := some slot
  type? := match m with
    | .assign .. => some u
    | _ => p.type?

/-- The line for a slot that holds a variable in a scope. -/
def slotLine (s : Frame.Scope) (slot : Int) (n d : String) : Line :=
  .var (.number slot) n d (.ofNat s.start) (.ofNat s.stop)

/-- The first pass over the members of a block: its lines, and the names with a slot. -/
inductive Declared (outer : List Symbol) :
    Gen.Pass → List Node → Frame → Code → List Symbol → Frame → Prop where
  | done {p f} : Declared outer p [] f [] p.locals f
  | take {p m ms f n u g s d c ls h} : Introduces outer p.locals m f n u g →
      g.scopes.head? = some s → u.descriptor = .ok d →
      Declared outer (p.noting m n u g.index) ms g.indexed c ls h →
      Declared outer p (m :: ms) f (slotLine s g.index n d :: c) ls h
  /-- An assignment to a name that is known outside repeats the slot and the type of others. -/
  | known {p n e ms f x slot u s d c ls h} : Symbol.find? n outer = some x →
      p.slot? = some slot → p.type? = some u → f.scopes.head? = some s → u.descriptor = .ok d →
      Declared outer p ms f c ls h →
      Declared outer p (.assign (.id n) e :: ms) f (slotLine s slot n d :: c) ls h
  | skip {p m ms f c ls h} : m.introduced? = none → Declared outer p ms f c ls h →
      Declared outer p (m :: ms) f c ls h

variable {outer ls : List Symbol} {m : Node} {f g : Frame} {n : String} {p : Gen.Pass}
  {ms : List Node} {c : Code}

theorem Introduces.introduced? {locals : List Symbol} {u : Node}
    (h : Introduces outer locals m f n u g) : m.introduced? = some n := by
  cases h <;> rfl

theorem Introduces.advances {locals : List Symbol} {u : Node}
    (h : Introduces outer locals m f n u g) : f.Advances g := by
  cases h with
  | typed _ h => exact h.sameCounters.advances
  | untyped h | constant _ h | assigned _ h => exact h.advances

theorem Declared.advances (h : Declared outer p ms f c ls g) : f.Advances g := by
  induction h with
  | done => exact .refl _
  | take hm _ _ _ ih => exact (hm.advances.trans (Frame.advances_indexed _)).trans ih
  | known _ _ _ _ _ _ ih => exact ih
  | skip _ _ ih => exact ih

theorem Declared.locals_subset (h : Declared outer p ms f c ls g) :
    ∃ more, ls = p.locals ++ more := by
  induction h with
  | done => exact ⟨[], by simp⟩
  | @take p m ms f n u g s d c ls h hm _ _ _ ih =>
    obtain ⟨more, rfl⟩ := ih
    exact ⟨.localVar n u g.index :: more, by simp [Gen.Pass.noting]⟩
  | known _ _ _ _ _ _ ih => exact ih
  | skip _ _ ih => exact ih

/-- Every name of the block is kept in a slot. -/
theorem Declared.slots (h : Declared outer p ms f c ls g)
    (hp : ∀ s ∈ p.locals, ∃ i, s.home = .slot i) : ∀ s ∈ ls, ∃ i, s.home = .slot i := by
  induction h with
  | done => exact hp
  | @take p m ms f n u g s d c ls h hm _ _ _ ih =>
    apply ih
    intro s hs
    rcases List.mem_append.1 hs with hs | hs
    · exact hp s hs
    · obtain rfl := List.mem_singleton.1 hs
      exact ⟨g.index, rfl⟩
  | known _ _ _ _ _ _ ih => exact ih hp
  | skip _ _ ih => exact ih hp

/-- The name that a member declares. -/
def Node.declared? : Node → Option String
  | var n _ _ | const n _ _ => some n
  | _ => Option.none

theorem Node.introduced?_of_declared? (h : m.declared? = some n) : m.introduced? = some n := by
  cases m <;> simp_all [declared?, introduced?]

theorem Node.declared?_of_isBlock (h : m.isBlock) : m.declared? = Option.none := by
  cases m with
  | block => rfl
  | _ => cases h

theorem Node.declared?_of_isElseTree (h : m.isElseTree) : m.declared? = Option.none := by
  cases m with
  | none | block | ifElse => rfl
  | _ => cases h

/-- Every declared name is among the names of the block. -/
theorem Declared.mem_of_declared? (h : Declared outer p ms f c ls g) (hm : m ∈ ms)
    (hn : m.declared? = some n) : ∃ s ∈ ls, s.name = n := by
  induction h with
  | done => cases hm
  | @take p m' ms f n' u g s d c ls h hm' _ _ hms ih =>
    rcases List.mem_cons.1 hm with rfl | hm
    · obtain ⟨more, rfl⟩ := hms.locals_subset
      have hname : n' = n := by
        have := hm'.introduced?.symm.trans (Node.introduced?_of_declared? hn)
        exact Option.some.inj this
      exact ⟨.localVar n' u g.index, by simp [Gen.Pass.noting], hname⟩
    · exact ih hm
  | known _ _ _ _ _ _ ih =>
    rcases List.mem_cons.1 hm with rfl | hm
    · cases hn
    · exact ih hm
  | skip hnone _ ih =>
    rcases List.mem_cons.1 hm with rfl | hm
    · rw [Node.introduced?_of_declared? hn] at hnone
      cases hnone
    · exact ih hm

/-- A name that is kept in a slot. -/
def HasSlot (env : List Symbol) (n : String) : Prop :=
  ∃ s i, Symbol.find? n env = some s ∧ s.home = .slot i

/-- In a block, a declared name is kept in a slot of the block. -/
theorem Declared.hasSlot (h : Declared outer {} ms f c ls g) (hm : m ∈ ms)
    (hn : m.declared? = some n) : HasSlot (ls ++ outer) n := by
  obtain ⟨s, hs, hname⟩ := h.mem_of_declared? hm hn
  have found : ∃ s', Symbol.find? n ls = some s' := by
    rw [← Option.isSome_iff_exists, Symbol.find?, List.find?_isSome]
    exact ⟨s, hs, by simp [hname]⟩
  obtain ⟨s', hs'⟩ := found
  obtain ⟨i, hi⟩ := h.slots (by simp) s' (Symbol.mem_of_find? hs')
  exact ⟨s', i, by simp only [Symbol.find?] at hs' ⊢; rw [List.find?_append, hs']; rfl, hi⟩

/-! ## The second pass -/

/-- The instruction for the value of a variable that is not initialised. -/
def zeroInstr? : Node → Option Instr
  | .intType | .boolType => some (.iconst 0)
  | .floatType => some (.ldc (.float "0.0"))
  | .stringType => some (.ldc (.string ""))
  | .arrayType .. | .structType .. | .interfaceType .. => some .pushNull
  | _ => none

/-- What is printed in the second pass. -/
inductive Stage where
  | stmt (m : Node)
  | members (ms : List Node)

/-- The frame after a scope, which was entered in the second frame. -/
def Frame.left (g f : Frame) : Frame := { g with scopes := f.scopes, index := f.index }

/-- The code of statements, and the frame before and after it. -/
inductive Printed : List Symbol → Stage → Frame → Code → Frame → Prop where
  | var {env n t i s j f c u g b h} : Symbol.find? n env = some s → s.home = .slot j →
      Coded env (.expr i) f c u g → s.type.bank? = some b → g.Drops 1 h →
      Printed env (.stmt (.var n t i)) f (c ++ one (.store b j)) h
  | zero {env n t s j f i b h} : Symbol.find? n env = some s → s.home = .slot j →
      zeroInstr? s.type = some i → s.type.bank? = some b → f.pushed.Drops 1 h →
      Printed env (.stmt (.var n t .none)) f (one i ++ one (.store b j)) h
  | const {env n t i s j f c u g b h} : Symbol.find? n env = some s → s.home = .slot j →
      Coded env (.expr i) f c u g → s.type.bank? = some b → g.Drops 1 h →
      Printed env (.stmt (.const n t i)) f (c ++ one (.store b j)) h
  | assignSlot {env n e s j f c u g b h} : Symbol.find? n env = some s → s.home = .slot j →
      Coded env (.expr e) f c u g → s.type.bank? = some b → g.Drops 1 h →
      Printed env (.stmt (.assign (.id n) e)) f (c ++ one (.store b j)) h
  | assignStatic {env n e s owner x f c u g d h} : Symbol.find? n env = some s →
      s.home = .member owner x → Coded env (.expr e) f c u g → s.type.descriptor = .ok d →
      g.Drops 1 h →
      Printed env (.stmt (.assign (.id n) e)) f
        (c ++ one (.putStatic (owner ++ "/" ++ n) d)) h
  | assignCell {env a is e f c t g d h el u k b m d' r o} : Coded env (.expr a) f c t g →
      Coded env (.args is) g d .none h → t.element? = some el → TypeOf env el h u k →
      u.bank? = some b → k.Drops 3 m → Coded env (.expr e) m d' r o →
      Printed env (.stmt (.assign (.cell a is) e)) f
        (c ++ d ++ d' ++ one (.arrayStore (cellOf b))) o
  | assignField {env a n e f c t g es ft u k owner d m d' r o} : Coded env (.expr a) f c t g →
      t.elements? = some es → fieldType? n es = some ft → TypeOf env ft g u k →
      t.typeName = .ok owner → u.descriptor = .ok d → k.Drops 2 m →
      Coded env (.expr e) m d' r o →
      Printed env (.stmt (.assign (.field a n) e)) f
        (c ++ d' ++ one (.putField (owner ++ "/" ++ n) d)) o
  | block {env ms f c ls g d h} : Declared env {} ms (f.entered false) c ls g →
      Printed (ls ++ env) (.members ms) g d h →
      Printed env (.stmt (.block ms)) f
        (label (.ofNat f.label) ++ c ++ d ++ label (.ofNat (f.label + 1))) (h.left f)
  | ifOnly {env e y f c t g h d k} : Coded env (.expr e) f c t g → (g.labelled 1).Drops 1 h →
      Printed env (.stmt y) h d k →
      Printed env (.stmt (.ifElse e y .none)) f
        (c ++ one (.ifZero .le (.ofNat g.label)) ++ d ++ label (.ofNat g.label)) k
  | ifElse {env e y n f c t g h d k d' m} : Coded env (.expr e) f c t g →
      (g.labelled 2).Drops 1 h → n.truthy → Printed env (.stmt y) h d k →
      Printed env (.stmt n) k d' m →
      Printed env (.stmt (.ifElse e y n)) f
        (c ++ one (.ifZero .le (.ofNat (g.label + 1))) ++ d ++ jump (.ofNat g.label) ++
          label (.ofNat (g.label + 1)) ++ d' ++ label (.ofNat g.label)) m
  | breakLoop {env f s} : f.scopes.head? = some s →
      Printed env (.stmt .breakLoop) f (jump (.ofNat s.stop)) f
  | continueLoop {env f l} : f.loops.head? = some l →
      Printed env (.stmt .continueLoop) f (jump (.ofNat l.next)) f
  | ret {env e f c t g d h} : Coded env (.expr e) f c t g → retPiece t = some d →
      g.Drops (retCount t) h → Printed env (.stmt (.ret e)) f (c ++ d) h
  | leave {env f} : Printed env (.stmt (.ret .none)) f (one .ret) f
  /-- The code of a call that stands as a statement is not printed. -/
  | call {env n as f c t g} : Coded env (.expr (.call n as)) f c t g →
      Printed env (.stmt (.call n as)) f [] g
  | noMembers {env f} : Printed env (.members []) f [] f
  | member {env m ms f c g d h} : Printed env (.stmt m) f c g → Printed env (.members ms) g d h →
      Printed env (.members (m :: ms)) f (c ++ d) h

/-- The pieces of statements have a gap: a value is returned whose type no method can return.
What comes before the first gap has code. -/
inductive Blank : List Symbol → Stage → Frame → Prop where
  | ret {env e f c t g} : Coded env (.expr e) f c t g → retPiece t = none →
      Blank env (.stmt (.ret e)) f
  | block {env ms f c ls g} : Declared env {} ms (f.entered false) c ls g →
      Blank (ls ++ env) (.members ms) g → Blank env (.stmt (.block ms)) f
  | thenBranch {env e y n f c t g h k} : Coded env (.expr e) f c t g →
      (g.labelled k).Drops 1 h → Blank env (.stmt y) h → Blank env (.stmt (.ifElse e y n)) f
  | elseBranch {env e y n f c t g h d k} : Coded env (.expr e) f c t g →
      (g.labelled 2).Drops 1 h → Printed env (.stmt y) h d k → Blank env (.stmt n) k →
      Blank env (.stmt (.ifElse e y n)) f
  | member {env m ms f} : Blank env (.stmt m) f → Blank env (.members (m :: ms)) f
  | later {env m ms f c g} : Printed env (.stmt m) f c g → Blank env (.members ms) g →
      Blank env (.members (m :: ms)) f

theorem Frame.Advances.left {f g : Frame} (h : (f.entered false).Advances g) :
    f.Advances (g.left f) where
  maxDepth := h.maxDepth
  depth := h.depth
  label := Nat.le_trans (Nat.le_add_right _ 2) h.label
  index := Int.le_refl _
  maxIndex := h.maxIndex
  scopes := rfl
  loops := h.loops

theorem Printed.advances {env : List Symbol} {stage : Stage} (h : Printed env stage f c g) :
    f.Advances g := by
  induction h with
  | var _ _ h _ hd | const _ _ h _ hd | assignSlot _ _ h _ hd => exact h.advances.drops hd
  | zero _ _ _ _ hd => exact (Frame.Advances.refl _).pushed.drops hd
  | assignStatic _ _ h _ hd => exact h.advances.drops hd
  | assignCell ha his _ ht _ hd he =>
    exact (((ha.advances.trans his.advances).trans ht.sameCounters.advances).drops hd).trans
      he.advances
  | assignField ha _ _ ht _ _ hd he =>
    exact ((ha.advances.trans ht.sameCounters.advances).drops hd).trans he.advances
  | block hls _ ih => exact (hls.advances.trans ih).left
  | ifOnly he hd _ ih =>
    exact ((he.advances.trans (Frame.advances_labelled _ 1)).drops hd).trans ih
  | ifElse he hd _ _ _ ih ih' =>
    exact (((he.advances.trans (Frame.advances_labelled _ 2)).drops hd).trans ih).trans ih'
  | breakLoop | continueLoop | leave | noMembers => exact .refl _
  | ret h _ hd => exact h.advances.drops hd
  | call h => exact h.advances
  | member _ _ ih ih' => exact ih.trans ih'

/-! ## From the generator to the rules: the first pass -/

section Generator

variable {other : Visitor} {ctx : Context}

theorem Node.truthy_of_isTypeTree {t : Node} (h : t.isTypeTree) : t.truthy := by
  cases t <;> simp_all [Node.isTypeTree, Node.truthy]

variable {e u : Node} {n : String} {w v : Workspace}

theorem Node.truthy_of_isExprTree (h : e.isExprTree) : e.truthy := by
  cases e <;> simp_all [Node.isExprTree, Node.truthy]

theorem Node.eq_none_of_isElseTree {n : Node} (h : n.isElseTree) (h' : ¬ n.truthy = true) :
    n = .none := by
  cases n with
  | none => rfl
  | block | ifElse => exact absurd rfl h'
  | _ => cases h

theorem Node.isNone_iff {n : Node} : n.isNone ↔ n = .none := by
  cases n <;> simp [Node.isNone]

theorem Gen.yields_printVar {slot : Int} {x : Unit} :
    Yields (Gen.printVar slot n u) w x v ↔ ∃ s d, w.frame.scopes.head? = some s ∧
      u.descriptor = .ok d ∧ v = w.extend w.frame [some [slotLine s slot n d]] := by
  simp only [Gen.printVar, Gen.yields_emit, yields_bind, Frame.yields_startLabel,
    Frame.yields_endLabel, yields_varLine]
  constructor
  · rintro ⟨_, _, ⟨_, _, ⟨s, hs, rfl, rfl⟩, _, _, ⟨s', hs', rfl, rfl⟩, d, hd, rfl, rfl⟩, rfl⟩
    rw [hs] at hs'
    cases hs'
    exact ⟨s, d, hs, hd, rfl⟩
  · rintro ⟨s, d, hs, hd, rfl⟩
    exact ⟨_, _, ⟨_, _, ⟨s, hs, rfl, rfl⟩, _, _, ⟨s, hs, rfl, rfl⟩, d, hd, rfl, rfl⟩, rfl⟩

theorem Gen.yields_take {p q : Gen.Pass} :
    Yields (p.take n u) w q v ↔ v = w.extend w.frame.indexed [] ∧
      q = { p with locals := p.locals ++ [.localVar n u w.frame.index],
                   slot? := some w.frame.index } := by
  simp only [Gen.Pass.take, yields_bind, Gen.yields_onFrame, Frame.yields_newIndex,
    yields_pure]
  constructor
  · rintro ⟨_, _, ⟨_, ⟨rfl, rfl⟩, rfl⟩, rfl, rfl⟩
    exact ⟨rfl, rfl⟩
  · rintro ⟨rfl, rfl⟩
    exact ⟨_, _, ⟨_, ⟨rfl, rfl⟩, rfl⟩, rfl, rfl⟩

theorem Gen.yields_exprType {t : Node} (h : Yields (Gen.exprType other ctx e) w t v) :
    ∃ p, Yields (Gen.expr other ctx e) w (p, t) v := by
  simp only [Gen.exprType, yields_bind, yields_pure] at h
  obtain ⟨⟨p, t'⟩, _, h, rfl, rfl⟩ := h
  exact ⟨p, h⟩

theorem Gen.isConstant_of_yields {v : Node} {w' : Workspace}
    (h : Yields (Gen.constant ctx e) w v w') : w' = w ∧ e.isConstant := by
  cases e with
  | binary | unary => exact absurd h Act.yields_throw
  | id n =>
    simp only [Gen.constant, Context.find, Context.find?, Context.need, yields_bind] at h
    split at h <;> simp_all [Node.isConstant]
  | _ => exact ⟨(yields_pure.1 h).2, rfl⟩

theorem Regular.snoc {env : List Symbol} {i : Int} (h : Regular env) (hu : u.isKnownType) :
    Regular (env ++ [Symbol.localVar n u i]) :=
  h.append
    { placed := by simp [Symbol.localVar]
      noMethod := by simp [Symbol.localVar]
      known := by simpa [Symbol.localVar] using hu }

/-- The pieces that hold some lines, one each. -/
def linePieces (c : Code) : List Piece := c.map fun l => some [l]

@[simp] theorem linePieces_nil : linePieces [] = [] := rfl

@[simp] theorem linePieces_cons (l : Line) (c : Code) :
    linePieces (l :: c) = some [l] :: linePieces c := rfl

/-- The first pass over members as they are written is derived by the rules. -/
theorem declareDeclared (hctx : ctx.missing = []) (henv : Regular ctx.scopes.flatten) :
    ∀ {ms : List Node} {p : Gen.Pass} {w v : Workspace} {ls : List Symbol},
      Node.areStmtTrees ms → Regular p.locals → Yields (Gen.declare other ctx p ms) w ls v →
      (∃ c f, v = w.extend f (linePieces c) ∧
        Declared ctx.scopes.flatten p ms w.frame c ls f) ∧ Regular ls
  | [], p, w, v, ls, _, hp, h => by
    obtain ⟨rfl, rfl⟩ := yields_pure.1 h
    exact ⟨⟨[], v.frame, by simp, .done⟩, hp⟩
  | m :: ms, p, w, v, ls, hms, hp, h => by
    simp only [Node.areStmtTrees, Bool.and_eq_true] at hms
    obtain ⟨⟨-, hm⟩, hms⟩ := hms
    have inner : Regular (ctx.enter p.locals).scopes.flatten := by
      simpa using hp.append henv
    have typed {e u : Node} {v : Workspace} (he : e.isExprTree)
        (h : Yields (Gen.exprType other (ctx.enter p.locals) e) w u v) :
        ∃ c g, v = w.extend g [] ∧
          Coded (p.locals ++ ctx.scopes.flatten) (.expr e) w.frame c u g ∧ u.isKnownType := by
      obtain ⟨q, h⟩ := Gen.yields_exprType h
      obtain ⟨c, g, -, rfl, hc, hu⟩ := exprCoded rfl inner he h
      exact ⟨c, g, rfl, by simpa using hc, hu⟩
    -- Once the type is there, all members that introduce a name go on in the same way.
    have take {n : String} {u : Node} {g : Frame} {w' : Workspace} {x : Unit}
        (hm : Introduces ctx.scopes.flatten p.locals m w.frame n u g) (hu : u.isKnownType)
        (hline : Yields (Gen.printVar g.index n u) (w.extend g.indexed []) x w')
        (h : Yields (Gen.declare other ctx (p.noting m n u g.index) ms) w' ls v) :
        (∃ c f, v = w.extend f (linePieces c) ∧
          Declared ctx.scopes.flatten p (m :: ms) w.frame c ls f) ∧ Regular ls := by
      obtain ⟨s, d, hs, hd, rfl⟩ := Gen.yields_printVar.1 hline
      obtain ⟨⟨c, f, rfl, hls⟩, hregular⟩ := declareDeclared hctx henv hms (hp.snoc hu) h
      exact ⟨⟨_, f, by simp, .take hm hs hd hls⟩, hregular⟩
    have skip (hnone : m.introduced? = none) (h : Yields (Gen.declare other ctx p ms) w ls v) :
        (∃ c f, v = w.extend f (linePieces c) ∧
          Declared ctx.scopes.flatten p (m :: ms) w.frame c ls f) ∧ Regular ls := by
      obtain ⟨⟨c, f, rfl, hls⟩, hregular⟩ := declareDeclared hctx henv hms hp h
      exact ⟨⟨c, f, rfl, .skip hnone hls⟩, hregular⟩
    cases m with
    | var n t i =>
      simp only [Node.isStmtTree, Bool.and_eq_true, Bool.or_eq_true, Node.isNone_iff] at hm
      simp only [Gen.declare] at h
      rcases hm with ⟨rfl | ht, hi⟩
      · simp only [Node.truthy, Bool.false_eq_true, if_false, yields_bind,
          Gen.yields_take] at h
        obtain ⟨u, w₁, hu, q, _, ⟨rfl, rfl⟩, _, w₂, hline, h⟩ := h
        have hi : i.isExprTree := by
          rcases hi with rfl | hi
          · simp [Gen.exprType, Gen.expr, Node.hasRule] at hu
          · exact hi
        obtain ⟨c, g, rfl, hc, hknown⟩ := typed hi hu
        exact take (.untyped hc) hknown (by simpa using hline) h
      · rw [if_pos (Node.truthy_of_isTypeTree ht)] at h
        simp only [yields_bind, Gen.yields_take] at h
        obtain ⟨u, w₁, hu, q, _, ⟨rfl, rfl⟩, _, w₂, hline, h⟩ := h
        obtain ⟨g, rfl, hu, hknown⟩ := TypeOf.of_yields rfl ht hu
        exact take (.typed (Node.truthy_of_isTypeTree ht) (by simpa using hu)) hknown
          (by simpa using hline) h
    | const n t i =>
      simp only [Node.isStmtTree] at hm
      simp only [Gen.declare, yields_bind, Gen.yields_take] at h
      obtain ⟨_, w₀, hvalue, u, w₁, hu, q, _, ⟨rfl, rfl⟩, _, w₂, hline, h⟩ := h
      obtain ⟨rfl, hconst⟩ := Gen.isConstant_of_yields hvalue
      obtain ⟨c, g, rfl, hc, hknown⟩ := typed hm hu
      exact take (.constant hconst hc) hknown (by simpa using hline) h
    | assign l e =>
      simp only [Node.isStmtTree, Bool.and_eq_true] at hm
      cases l with
      | id n =>
        simp only [Gen.declare, yields_bind, Context.yields_find? hctx] at h
        obtain ⟨o, _, ⟨ho, rfl⟩, h⟩ := h
        cases o with
        | none =>
          simp only [yields_bind, Gen.yields_take, yields_pure] at h
          obtain ⟨u, w₁, hu, q, _, ⟨rfl, rfl⟩, q', _, ⟨rfl, rfl⟩, h⟩ := h
          obtain ⟨c, g, rfl, hc, hknown⟩ := typed hm.2 hu
          simp only [yields_bind] at h
          obtain ⟨_, w₂, hline, h⟩ := h
          exact take (.assigned ho.symm hc) hknown (by simpa using hline) h
        | some x =>
          simp only [yields_bind, yields_pure] at h
          obtain ⟨q, _, ⟨rfl, rfl⟩, h⟩ := h
          split at h
          · next slot u hslot hu =>
            simp only [yields_bind, Gen.yields_printVar] at h
            obtain ⟨_, _, ⟨s, d, hs, hd, rfl⟩, h⟩ := h
            obtain ⟨⟨c, f, rfl, hls⟩, hregular⟩ := declareDeclared hctx henv hms hp h
            exact ⟨⟨_, f, by simp, .known ho.symm hslot hu hs hd hls⟩, hregular⟩
          · simp at h
      | _ => exact skip rfl h
    | _ => exact skip rfl h

end Generator

/-! ## From the generator to the rules: the second pass -/

section Generator

variable {other : Visitor}

@[simp] theorem join_linePieces (c : Code) : Emit.join (linePieces c) = .ok c := by
  induction c with
  | nil => rfl
  | cons l c ih => exact Emit.join_cons.2 ⟨[l], c, rfl, ih, rfl⟩

/-- The generator has printed pieces.  The rules derive their code if none is missing, and a gap
if one is. -/
def PrintedBy (env : List Symbol) (stage : Stage) (w v : Workspace) : Prop :=
  ∃ ps f, v = w.extend f ps ∧ w.frame.Advances f ∧
    (∀ c, Emit.join ps = .ok c → Printed env stage w.frame c f) ∧
    (none ∈ ps → Blank env stage w.frame)

variable {w v : Workspace} {t : Node} {ctx : Context} {x : Unit}

theorem PrintedBy.of_codes {env : List Symbol} {stage : Stage} {f : Frame} (cs : List Code)
    (h : Printed env stage w.frame cs.flatten f) :
    PrintedBy env stage w (w.extend f (cs.map some)) := by
  refine ⟨_, f, rfl, h.advances, fun c hc => ?_, by simp⟩
  rw [Emit.join_map_some] at hc
  cases hc
  exact h

theorem zeroInstr?_of_yields {b : Bank} {f g : Frame} {c : Code} (hb : t.bank? = some b)
    (h : Yields (Gen.zero t) f c g) : ∃ i, zeroInstr? t = some i ∧ c = one i ∧ g = f.pushed := by
  cases t with
  | intType | boolType =>
    obtain ⟨rfl, rfl⟩ := yields_pushInteger.1 h
    exact ⟨_, rfl, rfl, rfl⟩
  | floatType =>
    obtain ⟨-, rfl, rfl⟩ := yields_pushFloat.1 h
    exact ⟨_, rfl, rfl, rfl⟩
  | stringType =>
    simp only [Gen.zero, Emit.pushString, yields_bind, Frame.yields_push,
      yields_pure] at h
    obtain ⟨_, _, rfl, rfl, rfl⟩ := h
    exact ⟨_, rfl, rfl, rfl⟩
  | arrayType | structType | interfaceType =>
    obtain ⟨rfl, rfl⟩ := yields_pushNull.1 h
    exact ⟨_, rfl, rfl, rfl⟩
  | _ => cases hb

/-- The indices of a cell are coded as arguments are. -/
theorem indicesCoded {ctx : Context} (hctx : ctx.missing = [])
    (henv : Regular ctx.scopes.flatten) : ∀ {is : List Node} {w v : Workspace} {c d : Code},
      Node.areExprTrees is → Yields (Gen.indices other ctx c is) w d v →
      ∃ code f, d = c ++ code ∧ v = w.extend f [] ∧
        Coded ctx.scopes.flatten (.args is) w.frame code .none f
  | [], w, v, c, d, _, h => by
    obtain ⟨rfl, rfl⟩ := yields_pure.1 h
    exact ⟨[], v.frame, by simp, by simp, .noArgs⟩
  | i :: is, w, v, c, d, his, h => by
    simp only [Node.areExprTrees, Bool.and_eq_true] at his
    simp only [Gen.indices, yields_bind] at h
    obtain ⟨⟨p, t⟩, v₁, h₁, c', v₂, h₂, h⟩ := h
    obtain ⟨a, f, rfl, rfl, ha, -⟩ := exprCoded hctx henv his.1 h₁
    obtain ⟨rfl, rfl⟩ := yields_pure.1 h₂
    obtain ⟨b, g, rfl, rfl, hb⟩ := indicesCoded hctx henv his.2 h
    exact ⟨a ++ b, g, by simp, by simp, .arg ha hb⟩

/-- An assignment as it is written is derived by the rules. -/
theorem assignPrinted (hctx : ctx.missing = []) (henv : Regular ctx.scopes.flatten) {l e : Node}
    (htarget : l.isTarget) (hl : l.isExprTree) (he : e.isExprTree)
    (h : Yields (Gen.assign other ctx l e) w x v) :
    PrintedBy ctx.scopes.flatten (.stmt (.assign l e)) w v := by
  cases l with
  | id n =>
    simp only [Gen.assign, yields_bind, Context.yields_needMethod hctx,
      Context.yields_find hctx, Gen.yields_printPiece] at h
    obtain ⟨_, _, rfl, s, _, ⟨hs, rfl⟩, ⟨p, t⟩, v₁, h₁, _, _, rfl, h⟩ := h
    obtain ⟨c, f, rfl, rfl, hc, -⟩ := exprCoded hctx henv he h₁
    cases hhome : s.home with
    | slot j =>
      simp only [hhome, Gen.yields_emit, yields_writeVar] at h
      obtain ⟨_, g, ⟨b, hb, rfl, hg⟩, rfl⟩ := h
      simpa using PrintedBy.of_codes [c, one (.store b j)]
        (by simpa using Printed.assignSlot hs hhome hc hb hg)
    | member owner y =>
      simp only [hhome, Gen.yields_emit, yields_putStatic] at h
      obtain ⟨_, g, ⟨d, hd, rfl, hg⟩, rfl⟩ := h
      simpa using PrintedBy.of_codes [c, one (.putStatic (owner ++ "/" ++ n) d)]
        (by simpa using Printed.assignStatic hs hhome hc hd hg)
    | unknown => exact absurd hhome (henv.placed s (Symbol.mem_of_find? hs))
  | cell a is =>
    simp only [Node.isExprTree, Bool.and_eq_true] at hl
    simp only [Gen.assign, yields_bind, Context.yields_needMethod hctx] at h
    obtain ⟨_, _, rfl, ⟨p, t⟩, v₁, h₁, c₀, v₂, h₂, code, v₃, h₃, h⟩ := h
    obtain ⟨c, f, rfl, rfl, hc, ht⟩ := exprCoded hctx henv hl.1 h₁
    obtain ⟨rfl, rfl⟩ := yields_pure.1 h₂
    obtain ⟨d, g, rfl, rfl, hd⟩ := indicesCoded hctx henv hl.2 h₃
    simp only [Gen.yields_require, Gen.yields_onFrame, yields_storeCell, Gen.yields_print,
      Gen.yields_printPiece] at h
    obtain ⟨el, _, ⟨hel, rfl⟩, u, v₄, h₄, _, _, ⟨m, ⟨b, hb, rfl, hm⟩, rfl⟩, _, _, rfl, ⟨p, r⟩, v₅,
      h₅, _, _, rfl, rfl⟩ := h
    obtain ⟨k, rfl, hu, -⟩ := TypeOf.of_yields hctx (Node.isTypeTree_of_element? ht hel) h₄
    obtain ⟨d', o, rfl, rfl, hd', -⟩ := exprCoded hctx henv he h₅
    simpa using PrintedBy.of_codes [c₀ ++ d, d', one (.arrayStore (cellOf b))]
      (by simpa using Printed.assignCell hc hd hel hu hb hm hd')
  | field a n =>
    simp only [Node.isExprTree] at hl
    simp only [Gen.assign, yields_bind, Context.yields_needMethod hctx] at h
    obtain ⟨_, _, rfl, ⟨p, t⟩, v₁, h₁, c₀, v₂, h₂, h⟩ := h
    obtain ⟨c, f, rfl, rfl, hc, ht⟩ := exprCoded hctx henv hl h₁
    obtain ⟨rfl, rfl⟩ := yields_pure.1 h₂
    simp only [Gen.yields_require, Gen.yields_elementOf, Act.yields_ofExcept,
      Gen.yields_onFrame, yields_putField, Gen.yields_print, Gen.yields_printPiece] at h
    obtain ⟨es, _, ⟨hes, rfl⟩, ft, _, ⟨hft, rfl⟩, u, v₄, h₄, owner, _, ⟨howner, rfl⟩, _, _,
      ⟨m, ⟨d, hd, rfl, hm⟩, rfl⟩, _, _, rfl, ⟨p, r⟩, v₅, h₅, _, _, rfl, rfl⟩ := h
    obtain ⟨k, rfl, hu, -⟩ :=
      TypeOf.of_yields hctx (Node.isTypeTree_of_elements? ht hes hft) h₄
    obtain ⟨d', o, rfl, rfl, hd', -⟩ := exprCoded hctx henv he h₅
    simpa using PrintedBy.of_codes [c₀, d', one (.putField (owner ++ "/" ++ n) d)]
      (by simpa using Printed.assignField hc hes hft hu howner hd hm hd')
  | _ => cases htarget

/-- A declaration that stores a value in the slot of its name. -/
theorem varPrinted (hctx : ctx.missing = []) (henv : Regular ctx.scopes.flatten) {n : String}
    {i : Node} (hslot : HasSlot ctx.scopes.flatten n) (hi : i = .none ∨ i.isExprTree)
    (h : Yields (Gen.varDecl other ctx n i) w x v) :
    PrintedBy ctx.scopes.flatten (.stmt (.var n t i)) w v := by
  obtain ⟨s, j, hs, hhome⟩ := hslot
  simp only [Gen.varDecl, yields_bind, Context.yields_needMethod hctx,
    Context.yields_find hctx, hs, Option.some.injEq] at h
  obtain ⟨_, _, rfl, _, _, ⟨rfl, rfl⟩, h⟩ := h
  simp only [hhome] at h
  rcases hi with rfl | hi
  · simp only [Node.truthy, Bool.false_eq_true, if_false, yields_bind, Gen.yields_emit,
      yields_writeVar] at h
    obtain ⟨_, _, ⟨_, g, hzero, rfl⟩, _, k, ⟨b, hb, rfl, hk⟩, rfl⟩ := h
    obtain ⟨z, hz, rfl, rfl⟩ := zeroInstr?_of_yields hb hzero
    simpa using PrintedBy.of_codes [one z, one (.store b j)]
      (by simpa using Printed.zero hs hhome hz hb hk)
  · rw [if_pos (Node.truthy_of_isExprTree hi)] at h
    simp only [yields_bind, Gen.yields_printPiece, Gen.yields_emit, yields_writeVar] at h
    obtain ⟨⟨p, u⟩, v₁, h₁, _, _, rfl, _, k, ⟨b, hb, rfl, hk⟩, rfl⟩ := h
    obtain ⟨c, f, rfl, rfl, hc, -⟩ := exprCoded hctx henv hi h₁
    simpa using PrintedBy.of_codes [c, one (.store b j)]
      (by simpa using Printed.var hs hhome hc hb hk)

theorem constPrinted (hctx : ctx.missing = []) (henv : Regular ctx.scopes.flatten) {n : String}
    {i : Node} (hslot : HasSlot ctx.scopes.flatten n) (hi : i.isExprTree)
    (h : Yields (Gen.constDecl other ctx n i) w x v) :
    PrintedBy ctx.scopes.flatten (.stmt (.const n t i)) w v := by
  obtain ⟨s, j, hs, hhome⟩ := hslot
  simp only [Gen.constDecl, yields_bind, Context.yields_needMethod hctx,
    Context.yields_find hctx, hs, Option.some.injEq, Gen.yields_require,
    Gen.yields_printPiece] at h
  obtain ⟨_, _, rfl, _, _, ⟨rfl, rfl⟩, _, _, ⟨-, rfl⟩, ⟨p, u⟩, v₁, h₁, _, _, rfl, h⟩ := h
  obtain ⟨c, f, rfl, rfl, hc, -⟩ := exprCoded hctx henv hi h₁
  simp only [hhome, Gen.yields_emit, yields_writeVar] at h
  obtain ⟨_, k, ⟨b, hb, rfl, hk⟩, rfl⟩ := h
  simpa using PrintedBy.of_codes [c, one (.store b j)]
    (by simpa using Printed.const hs hhome hc hb hk)

theorem returnPrinted (hctx : ctx.missing = []) (henv : Regular ctx.scopes.flatten) {e : Node}
    (he : e = .none ∨ e.isExprTree) (h : Yields (Gen.returnStmt other ctx e) w x v) :
    PrintedBy ctx.scopes.flatten (.stmt (.ret e)) w v := by
  simp only [Gen.returnStmt, yields_bind, Context.yields_needMethod hctx] at h
  obtain ⟨_, _, rfl, h⟩ := h
  rcases he with rfl | he
  · simp only [Node.truthy, Bool.false_eq_true, if_false, yields_bind, Gen.yields_onFrame,
      yields_ret, Gen.yields_printPiece] at h
    obtain ⟨_, _, ⟨g, ⟨rfl, hg⟩, rfl⟩, rfl⟩ := h
    obtain rfl := Frame.drops_zero.1 hg
    simpa [retPiece] using PrintedBy.of_codes [one .ret] (by simpa using Printed.leave)
  · rw [if_pos (Node.truthy_of_isExprTree he)] at h
    simp only [yields_bind, Gen.yields_printPiece, Gen.yields_onFrame, yields_ret] at h
    obtain ⟨⟨p, t⟩, v₁, h₁, _, _, rfl, _, _, ⟨g, ⟨rfl, hg⟩, rfl⟩, rfl⟩ := h
    obtain ⟨c, f, rfl, rfl, hc, -⟩ := exprCoded hctx henv he h₁
    refine ⟨[some c, retPiece t], g, by simp, hc.advances.drops hg, fun code hcode => ?_,
      fun hnone => ?_⟩
    · obtain ⟨_, d, hd, hd', rfl⟩ := Emit.join_cons.1 hcode
      cases hd
      exact .ret hc (Emit.join_singleton.1 hd') hg
    · exact .ret hc (by simpa [eq_comm] using hnone)

mutual

/-- The code of a statement as it is written is derived by the rules. -/
theorem stmtPrinted : ∀ {m : Node} {ctx : Context} {w v : Workspace} {x : Unit},
    ctx.missing = [] → Regular ctx.scopes.flatten → m.isStmtTree →
    (∀ n, m.declared? = some n → HasSlot ctx.scopes.flatten n) →
    Yields (Gen.stmt other ctx m) w x v → PrintedBy ctx.scopes.flatten (.stmt m) w v := by
  intro m ctx w v x hctx henv hm hslot h
  cases m with
  | var n t i =>
    simp only [Node.isStmtTree, Bool.and_eq_true, Bool.or_eq_true, Node.isNone_iff] at hm
    exact varPrinted hctx henv (hslot n rfl) hm.2 (by simpa only [Gen.stmt] using h)
  | const n t i =>
    simp only [Node.isStmtTree] at hm
    exact constPrinted hctx henv (hslot n rfl) hm (by simpa only [Gen.stmt] using h)
  | assign l e =>
    simp only [Node.isStmtTree, Bool.and_eq_true] at hm
    exact assignPrinted hctx henv hm.1.1 hm.1.2 hm.2 (by simpa only [Gen.stmt] using h)
  | block ms =>
    simp only [Node.isStmtTree] at hm
    simp only [Gen.stmt, yields_bind, Context.yields_needMethod hctx,
      Context.yields_need hctx, Gen.yields_onFrame, Frame.yields_enterScope, Gen.printLabel,
      Gen.yields_emit, Frame.yields_startLabel, Frame.yields_endLabel, yields_pure,
      Frame.yields_exitScope] at h
    obtain ⟨_, _, rfl, _, w₀, rfl, _, _, ⟨_, rfl, rfl⟩, _, _,
      ⟨_, _, ⟨_, _, ⟨s, hs, rfl, rfl⟩, rfl, rfl⟩, rfl⟩, ls, v₁, h₁, _, v₂, h₂, _, _,
      ⟨_, _, ⟨_, _, ⟨s', hs', rfl, rfl⟩, rfl, rfl⟩, rfl⟩, _, ⟨s'', ss, hscopes, rfl⟩, rfl⟩ := h
    obtain ⟨⟨c, g, rfl, hls⟩, hregular⟩ :=
      declareDeclared hctx henv hm { placed := by simp, noMethod := by simp, known := by simp } h₁
    have hinner : Regular (ctx.enter ls).scopes.flatten := by simpa using hregular.append henv
    obtain ⟨ps, k, rfl, hadvances, hps, hblank⟩ := stmtsPrinted (ctx.enter_missing ls) hinner hm
      (fun m hmem n hn => by simpa using hls.hasSlot hmem hn) h₂
    -- The scope that is left is the one that was entered.
    have hinside : (w₀.frame.entered false).Advances k := hls.advances.trans hadvances
    simp only [Workspace.extend_frame] at hs hs' hscopes
    cases hs
    rw [hinside.scopes] at hs' hscopes
    cases hs'
    cases hscopes
    refine ⟨[some (label (.ofNat w₀.frame.label))] ++ linePieces c ++ ps ++
      [some (label (.ofNat (w₀.frame.label + 1)))], _, by simp; rfl, hinside.left,
      fun code hcode => ?_, fun hnone => ?_⟩
    · simp only [Emit.join_append, Emit.join_singleton, join_linePieces,
        Except.ok.injEq] at hcode
      obtain ⟨_, _, ⟨_, d, ⟨_, _, hstart, rfl, rfl⟩, hd, rfl⟩, hstop, rfl⟩ := hcode
      cases hstart
      cases hstop
      exact Printed.block hls (by simpa using hps d hd)
    · have hmem : none ∈ ps := by simpa [linePieces] using hnone
      exact Blank.block hls (by simpa using hblank hmem)
  | ifElse e y n =>
    simp only [Node.isStmtTree, Bool.and_eq_true] at hm
    obtain ⟨⟨⟨⟨he, hy⟩, hy'⟩, hn⟩, hn'⟩ := hm
    have noName {m : Node} (hm : m.declared? = none) :
        ∀ x, m.declared? = some x → HasSlot ctx.scopes.flatten x := by
      simp [hm]
    simp only [Gen.stmt, yields_bind, Context.yields_needMethod hctx,
      Gen.yields_printPiece, Gen.yields_onFrame, Frame.yields_newLabel] at h
    obtain ⟨_, w₀, rfl, ⟨p, t⟩, v₁, h₁, _, _, rfl, _, _, ⟨_, ⟨rfl, rfl⟩, rfl⟩, h⟩ := h
    obtain ⟨c, g, rfl, rfl, hc, -⟩ := exprCoded hctx henv he h₁
    split at h
    · next htruthy =>
      simp only [yields_bind, Gen.yields_onFrame, Frame.yields_newLabel, Gen.yields_emit,
        yields_ifFalse, Gen.yields_print] at h
      obtain ⟨_, _, ⟨_, ⟨rfl, rfl⟩, rfl⟩, _, _, ⟨_, k, ⟨rfl, hk⟩, rfl⟩, _, v₂, h₂, _, _, rfl, _,
        _, rfl, _, v₃, h₃, rfl⟩ := h
      obtain ⟨ps, r, rfl, hyes, hps, hblank⟩ :=
        stmtPrinted hctx henv hy' (noName (Node.declared?_of_isBlock hy)) h₂
      obtain ⟨qs, o, rfl, hno, hqs, hblank'⟩ :=
        stmtPrinted hctx henv hn' (noName (Node.declared?_of_isElseTree hn)) h₃
      have htest : w₀.frame.Advances k :=
        (hc.advances.trans (Frame.advances_labelled g 2)).drops hk
      refine ⟨[c, one (.ifZero .le (.ofNat (g.label + 1)))].map some ++ (ps ++
        ([jump (.ofNat g.label), label (.ofNat (g.label + 1))].map some ++ (qs ++
        [label (.ofNat g.label)].map some))), o, by simp [Frame.labelled],
        (htest.trans hyes).trans hno, fun code hcode => ?_, fun hnone => ?_⟩
      · simp only [Emit.join_append, Emit.join_map_some, Except.ok.injEq] at hcode
        obtain ⟨_, _, rfl, ⟨d, _, hd, ⟨_, _, rfl, ⟨d', _, hd', rfl, rfl⟩, rfl⟩, rfl⟩, rfl⟩ :=
          hcode
        simpa using Printed.ifElse hc hk htruthy (hps d hd) (hqs d' hd')
      · have hmem : none ∈ ps ∨ none ∈ qs := by simpa using hnone
        by_cases hyes : none ∈ ps
        · exact .thenBranch (k := 2) hc hk (hblank hyes)
        · obtain ⟨d, hd⟩ := Emit.exists_join hyes
          exact .elseBranch hc hk (hps d hd) (hblank' (hmem.resolve_left hyes))
    · next htruthy =>
      obtain rfl := Node.eq_none_of_isElseTree hn htruthy
      simp only [yields_bind, Gen.yields_emit, yields_ifFalse, Gen.yields_print] at h
      obtain ⟨_, _, ⟨_, k, ⟨rfl, hk⟩, rfl⟩, _, v₂, h₂, rfl⟩ := h
      obtain ⟨ps, r, rfl, hyes, hps, hblank⟩ :=
        stmtPrinted hctx henv hy' (noName (Node.declared?_of_isBlock hy)) h₂
      have htest : w₀.frame.Advances k :=
        (hc.advances.trans (Frame.advances_labelled g 1)).drops hk
      refine ⟨[c, one (.ifZero .le (.ofNat g.label))].map some ++ (ps ++
        [label (.ofNat g.label)].map some), r, by simp, htest.trans hyes, fun code hcode => ?_,
        fun hnone => .thenBranch hc hk (hblank (by simpa using hnone))⟩
      simp only [Emit.join_append, Emit.join_map_some, Except.ok.injEq] at hcode
      obtain ⟨_, _, rfl, ⟨d, _, hd, rfl, rfl⟩, rfl⟩ := hcode
      simpa using Printed.ifOnly hc hk (hps d hd)
  | forBasic => simp [Gen.stmt] at h
  | forStep => simp [Gen.stmt] at h
  | forEach =>
    simp only [Gen.stmt, Gen.forEach, yields_bind] at h
    obtain ⟨_, _, _, _, _, _, h⟩ := h
    split at h <;> simp at h
  | breakLoop =>
    simp only [Gen.stmt, yields_bind, Context.yields_needMethod hctx, Gen.yields_emit,
      Frame.yields_endLabel, yields_pure] at h
    obtain ⟨_, _, rfl, _, _, ⟨_, _, ⟨s, hs, rfl, rfl⟩, rfl, rfl⟩, rfl⟩ := h
    simpa using PrintedBy.of_codes [jump (.ofNat s.stop)] (by simpa using Printed.breakLoop hs)
  | continueLoop =>
    simp only [Gen.stmt, yields_bind, Context.yields_needMethod hctx, Gen.yields_emit,
      Frame.yields_continueLabel, yields_pure] at h
    obtain ⟨_, _, rfl, _, _, ⟨_, _, ⟨l, hl, rfl, rfl⟩, rfl, rfl⟩, rfl⟩ := h
    simpa using PrintedBy.of_codes [jump (.ofNat l.next)]
      (by simpa using Printed.continueLoop hl)
  | ret e =>
    simp only [Node.isStmtTree, Bool.or_eq_true, Node.isNone_iff] at hm
    exact returnPrinted hctx henv hm (by simpa only [Gen.stmt] using h)
  | call n as =>
    simp only [Node.isStmtTree] at hm
    simp only [Gen.stmt, Gen.isExpr, if_true, yields_bind, yields_pure] at h
    obtain ⟨⟨p, t⟩, v₁, h, -, rfl⟩ := h
    obtain ⟨c, f, -, rfl, hc, -⟩ := exprCoded hctx henv hm h
    exact PrintedBy.of_codes [] (.call hc)
  | methodCall r n as =>
    simp only [Node.isStmtTree] at hm
    simp only [Gen.stmt, Gen.isExpr, if_true, yields_bind, yields_pure] at h
    obtain ⟨⟨p, t⟩, v₁, h, -, rfl⟩ := h
    obtain ⟨c, f, -, -, hc, -⟩ := exprCoded hctx henv hm h
    cases hc
  | none => simp [Gen.stmt, Gen.isExpr, Node.hasRule] at h
  | _ => cases hm

/-- The code of members as they are written is derived by the rules. -/
theorem stmtsPrinted : ∀ {ms : List Node} {ctx : Context} {w v : Workspace} {x : Unit},
    ctx.missing = [] → Regular ctx.scopes.flatten → Node.areStmtTrees ms →
    (∀ m ∈ ms, ∀ n, m.declared? = some n → HasSlot ctx.scopes.flatten n) →
    Yields (Gen.stmts other ctx ms) w x v → PrintedBy ctx.scopes.flatten (.members ms) w v
  | [], ctx, w, v, x, _, _, _, _, h => by
    obtain ⟨-, rfl⟩ := yields_pure.1 h
    simpa using PrintedBy.of_codes [] Printed.noMembers
  | m :: ms, ctx, w, v, x, hctx, henv, hms, hslot, h => by
    simp only [Node.areStmtTrees, Bool.and_eq_true] at hms
    simp only [Gen.stmts, yields_bind] at h
    obtain ⟨_, v₁, h₁, h₂⟩ := h
    obtain ⟨ps, f, rfl, hfirst, hps, hblank⟩ := stmtPrinted hctx henv hms.1.2
      (hslot m (List.mem_cons_self ..)) h₁
    obtain ⟨qs, g, rfl, hrest, hqs, hblank'⟩ := stmtsPrinted hctx henv hms.2
      (fun m hm => hslot m (List.mem_cons_of_mem _ hm)) h₂
    refine ⟨ps ++ qs, g, by simp, hfirst.trans hrest, fun c hc => ?_, fun hnone => ?_⟩
    · obtain ⟨a, b, ha, hb, rfl⟩ := Emit.join_append.1 hc
      exact .member (hps a ha) (hqs b hb)
    · by_cases hmem : none ∈ ps
      · exact .member (hblank hmem)
      · obtain ⟨a, ha⟩ := Emit.exists_join hmem
        exact .later (hps a ha) (hblank' ((List.mem_append.1 hnone).resolve_left hmem))

end

end Generator

end MiniGoc
