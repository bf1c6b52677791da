import MiniGoc.Proofs.CoreFragment

/-!
# Statements that have code

A statement on integers and truth values has code if its blocks are in order and all names in it
can be used (`Gen.stmt_progress`).

The generator can stop at a name, at a type and at the operand stack.  The names are what is
asked for.  The types of such a program are neither texts nor floating point numbers, and have
a descriptor (`Sober`), even where an expression has no type because its operands do not go
together.  An expression leaves at least one value (`Gen.expr_progress`), so that a statement
always has what it takes from the operand stack, and takes no more.
-/

namespace MiniGoc

open Act (Yields yields_bind yields_pure)
open Emit

/-! ## Types -/

/-- A type with a descriptor that is neither that of texts nor that of floating point numbers. -/
structure Node.IsSober (t : Node) : Prop where
  descriptor : ∃ d, t.descriptor = .ok d
  noFloat : t ≠ .floatType
  noText : t ≠ .stringType

/-- All types of an environment are sober. -/
def Sober (env : List Symbol) : Prop := ∀ s ∈ env, s.type.IsSober

theorem Node.IsSober.none : Node.none.IsSober := ⟨⟨_, rfl⟩, nofun, nofun⟩

theorem Ty.isSober (τ : Ty) : τ.node.IsSober := by
  cases τ <;> exact ⟨⟨_, rfl⟩, nofun, nofun⟩

theorem Sober.append {env env' : List Symbol} (h : Sober env) (h' : Sober env') :
    Sober (env ++ env') := fun s hs => (List.mem_append.1 hs).elim (h s) (h' s)

theorem Frame.drops_dropped {f : Frame} {n : Nat} (h : n ≤ f.depth) : f.Drops n (f.dropped n) :=
  ⟨.inr h, rfl⟩

/-! ## Expressions -/

section Expressions

variable {ctx : Context}

/-- A comparison has code, and takes no more than it counts. -/
theorem Emit.compare_progress (op : String) {t : Node} (ht : t.IsSober) {f : Frame}
    (hdepth : 2 ≤ f.depth) : ∃ c g, Yields (compare op t) f c g ∧ f.depth ≤ g.depth := by
  simp only [compare, yields_bind, Frame.yields_newLabel]
  by_cases hint : t = .intType
  · subst hint
    have hdrops : (f.labelled 2).Drops 2 ((f.labelled 2).dropped 2) :=
      Frame.drops_dropped (by simpa [Frame.labelled] using hdepth)
    obtain ⟨k, hk, hk'⟩ := Frame.drops_two.1 hdrops
    refine ⟨failJump .ifInts op (.ofNat f.label) ++ outcomes f.label (f.label + 1),
      ((f.labelled 2).dropped 2).pushed.pushed, ⟨_, _, ⟨rfl, rfl⟩, _, _, ⟨rfl, rfl⟩, ?_⟩, ?_⟩
    · simp only [yields_bind, Frame.yields_pop]
      exact ⟨(), k, hk, (), _, hk', yields_finish.2 ⟨rfl, rfl⟩⟩
    · simp only [Frame.dropped, Frame.labelled, Frame.pushed_depth]
      omega
  · refine ⟨[], f.labelled 2, ⟨_, _, ⟨rfl, rfl⟩, _, _, ⟨rfl, rfl⟩, ?_⟩, Int.le_refl _⟩
    have hfloat := ht.noFloat
    have htext := ht.noText
    cases t with
    | intType | floatType | stringType => contradiction
    | _ => exact yields_pure.2 ⟨rfl, rfl⟩

/-- Where no operand is a text or a floating point number, arithmetic is one instruction after
the operands, or after nothing. -/
theorem Gen.arithmetic_eq (op : String) {lt rt : Node} (hl : lt.IsSober) (hr : rt.IsSober)
    (c d : Code) : ∃ (cs : List Code) (t : Node), t.IsSober ∧
      Gen.arithmetic op (some c, lt) (some d, rt) = (do
        let action ← Gen.onFrame (Emit.binary (arithmeticInstr op t))
        return (some (← Gen.join (cs.map some ++ [some action])), t)) := by
  by_cases hints : lt = .intType ∧ rt = .intType
  · obtain ⟨rfl, rfl⟩ := hints
    refine ⟨[c, d], .intType, Ty.int.isSober, ?_⟩
    unfold Gen.arithmetic
    simp only [Node.isFloat, Bool.or_self, Bool.false_eq_true, if_false, pure_bind,
      arithmetic_eq_binary]
    rfl
  · have hfloat : ¬ (lt.isFloat || rt.isFloat) = true := by
      simp [Node.isFloat_iff, hl.noFloat, hr.noFloat]
    refine ⟨[], .none, .none, ?_⟩
    unfold Gen.arithmetic
    simp only [if_neg hfloat]
    split
    · exact absurd rfl hl.noText
    · exact absurd ⟨rfl, rfl⟩ hints
    · simp only [pure_bind, arithmetic_eq_binary]
      rfl

variable {w : Workspace}

/-- An operator has code after its operands, and leaves a value less than they do, or more. -/
theorem Gen.binary_progress {op : String} (hop : Node.binaryOperators.contains op) {lt rt : Node}
    (hl : lt.IsSober) (hr : rt.IsSober) (c d : Code) (hdepth : 2 ≤ w.frame.depth) :
    ∃ code t f, Yields (Gen.binary op (some c, lt) (some d, rt)) w (some code, t) (w.extend f []) ∧
      t.IsSober ∧ w.frame.depth ≤ f.depth + 1 := by
  have hdrops := Frame.drops_dropped hdepth
  have hless : w.frame.depth ≤ (w.frame.dropped 2).pushed.depth + 1 := by
    simp only [Frame.dropped, Frame.pushed_depth]
    omega
  have join3 (x : Code) : Emit.join [some c, some d, some x] = .ok [c, d, x].flatten :=
    Emit.join_map_some [c, d, x]
  unfold Gen.binary
  split
  · obtain ⟨cs, t, ht, heq⟩ := Gen.arithmetic_eq op hl hr c d
    have hjoin := Emit.join_map_some (cs ++ [one (arithmeticInstr op t)])
    rw [List.map_append] at hjoin
    refine ⟨(cs ++ [one (arithmeticInstr op t)]).flatten, t, _, ?_, ht, hless⟩
    rw [heq]
    simp only [yields_bind, Gen.yields_onFrame, yields_binary, Gen.yields_join, yields_pure]
    exact ⟨_, _, ⟨_, ⟨rfl, _, hdrops, rfl⟩, rfl⟩, _, _, ⟨hjoin, rfl⟩, rfl, rfl⟩
  · split
    · obtain ⟨x, g, hx, hg⟩ := Emit.compare_progress op hl hdepth
      refine ⟨[c, d, x].flatten, .boolType, g, ?_, Ty.bool.isSober, by omega⟩
      simp only [yields_bind, Gen.yields_onFrame, Gen.yields_join, yields_pure]
      exact ⟨x, _, ⟨g, hx, rfl⟩, _, _, ⟨join3 x, rfl⟩, rfl, rfl⟩
    · split
      · refine ⟨[c, d, one .iand].flatten, .boolType, _, ?_, Ty.bool.isSober, hless⟩
        simp only [Emit.and, yields_bind, Gen.yields_onFrame, yields_binary, Gen.yields_join,
          yields_pure]
        exact ⟨_, _, ⟨_, ⟨rfl, _, hdrops, rfl⟩, rfl⟩, _, _, ⟨join3 _, rfl⟩, rfl, rfl⟩
      · split
        · refine ⟨[c, d, one .ior].flatten, .boolType, _, ?_, Ty.bool.isSober, hless⟩
          simp only [Emit.or, yields_bind, Gen.yields_onFrame, yields_binary, Gen.yields_join,
            yields_pure]
          exact ⟨_, _, ⟨_, ⟨rfl, _, hdrops, rfl⟩, rfl⟩, _, _, ⟨join3 _, rfl⟩, rfl, rfl⟩
        · simp_all [Node.binaryOperators]

/-- A name that can be read has code. -/
theorem Gen.readId_progress (hctx : ctx.missing = []) (henv : Sober ctx.scopes.flatten)
    {x : String} (hx : (Symbol.find? x ctx.scopes.flatten).any Symbol.isReadable) (w : Workspace) :
    ∃ c t, Yields (Gen.readId ctx x) w (some (some c, t)) (w.extend w.frame.pushed []) ∧
      t.IsSober := by
  obtain ⟨s, hs, hread⟩ := Option.any_eq_true _ _ |>.1 hx
  have hsober := henv s (Symbol.mem_of_find? hs)
  simp only [Gen.readId, yields_bind, Context.yields_needMethod hctx, Context.yields_find hctx]
  simp only [Symbol.isReadable] at hread
  split at hread
  · next i hhome =>
    rw [Symbol.name_of_find? hs, Option.isSome_iff_exists] at hread
    obtain ⟨b, hb⟩ := hread
    refine ⟨one (.load b i), s.type, ⟨(), w, rfl, s, w, ⟨hs, rfl⟩, ?_⟩, hsober⟩
    simp only [hhome, yields_bind, Gen.yields_onFrame, yields_readVar, yields_pure]
    exact ⟨_, _, ⟨_, ⟨b, hb, rfl, rfl⟩, rfl⟩, rfl, rfl⟩
  · next owner y hhome =>
    obtain rfl := beq_iff_eq.1 hread
    obtain ⟨d, hd⟩ := hsober.descriptor
    refine ⟨one (.getStatic (mainClass ++ "/" ++ x) d), s.type, ⟨(), w, rfl, s, w, ⟨hs, rfl⟩, ?_⟩,
      hsober⟩
    simp only [hhome, if_true, yields_bind, Gen.yields_onFrame, yields_getStatic,
      yields_pure]
    exact ⟨_, _, ⟨_, ⟨d, hd, rfl, rfl⟩, rfl⟩, rfl, rfl⟩
  · cases hread

/-- An expression whose names can be read has code, and leaves at least one value. -/
theorem Gen.expr_progress (other : Visitor) (hctx : ctx.missing = [])
    (henv : Sober ctx.scopes.flatten) {e : Node} (he : e.isCoreExpr)
    (husable : exprUsable ctx.scopes.flatten e) (hdepth : 0 ≤ w.frame.depth) :
    ∃ c t f, Yields (Gen.expr other ctx e) w (some c, t) (w.extend f []) ∧ t.IsSober ∧
      w.frame.depth + 1 ≤ f.depth := by
  fun_induction Node.isCoreExpr e generalizing w with
  | case1 v =>
    obtain ⟨i, hi⟩ := Option.isSome_iff_exists.1 he
    have hplain : isPlain v := by
      cases v with
      | int | text => rfl
      | _ => cases hi
    have hinstr := intInstr?_of_numeral? hi
    refine ⟨one (intConstant i), .intType, w.frame.pushed, ?_, Ty.int.isSober, Int.le_refl _⟩
    simp only [Gen.expr, yields_bind, Context.yields_need hctx, Gen.yields_onFrame,
      yields_pushInt hplain, yields_pure]
    exact ⟨(), w, rfl, _, _, ⟨_, ⟨_, hinstr, rfl, rfl⟩, rfl⟩, rfl, rfl⟩
  | case2 x =>
    obtain ⟨c, t, hc, ht⟩ := Gen.readId_progress hctx henv husable w
    refine ⟨c, t, w.frame.pushed, ?_, ht, Int.le_refl _⟩
    simp only [Gen.expr, yields_bind]
    exact ⟨_, _, hc, yields_pure.2 ⟨rfl, rfl⟩⟩
  | case3 op l r ihl ihr =>
    simp only [Bool.and_eq_true] at he
    simp only [exprUsable, Bool.and_eq_true] at husable
    obtain ⟨c, lt, f, hl, hlt, hf⟩ := ihl he.1.2 husable.1 hdepth
    obtain ⟨d, rt, g, hr, hrt, hg⟩ := ihr (w := w.extend f []) he.2 husable.2
      (by simp only [Workspace.extend_frame]; omega)
    simp only [Workspace.extend_frame] at hg
    have hdeep : 2 ≤ (w.extend g []).frame.depth := by
      simp only [Workspace.extend_frame]
      omega
    obtain ⟨code, t, h, hop, ht, hh⟩ := Gen.binary_progress he.1.1 hlt hrt c d hdeep
    simp only [Workspace.extend_frame] at hh
    refine ⟨code, t, h, ?_, ht, by omega⟩
    simp only [Gen.expr, yields_bind, Context.yields_needMethod hctx]
    exact ⟨(), w, rfl, _, _, hl, _, _, by simpa using hr, by simpa using hop⟩
  | case4 => cases he

theorem Gen.expr_generated (other : Visitor) (hctx : ctx.missing = [])
    (henv : Regular ctx.scopes.flatten) (hsober : Sober ctx.scopes.flatten) {e : Node}
    (he : e.isCoreExpr) (husable : exprUsable ctx.scopes.flatten e) (hdepth : 0 ≤ w.frame.depth) :
    ∃ c t f, Yields (Gen.expr other ctx e) w (some c, t) (w.extend f []) ∧
      Coded ctx.scopes.flatten (.expr e) w.frame c t f ∧ t.IsSober ∧ t.isKnownType ∧
      w.frame.depth + 1 ≤ f.depth := by
  obtain ⟨c, t, f, hc, ht, hf⟩ := Gen.expr_progress other hctx hsober he husable hdepth
  obtain ⟨d, g, hd, hw, hcoded, hknown⟩ :=
    exprCoded hctx henv (Node.isExprTree_of_isCoreExpr he) hc
  obtain rfl : f = g := congrArg Workspace.frame hw
  cases hd
  exact ⟨c, t, f, hc, hcoded, ht, hknown, hf⟩

end Expressions

/-! ## Statements -/

/-- What statements are generated in: the names are those of a computed environment, and all
types are sober. -/
structure Surrounds (E : List Symbol) (known : List String) (ctx : Context) : Prop where
  missing : ctx.missing = []
  regular : Regular ctx.scopes.flatten
  sober : Sober ctx.scopes.flatten
  alike : Alike E ctx.scopes.flatten
  knows : Knows known ctx.scopes.flatten

/-- What the first pass over a block has found: names with sober types, and a slot and a type
for the next line if an assignment has introduced a name. -/
structure Gen.Pass.Fit (L : List Symbol) (p : Gen.Pass) : Prop where
  regular : Regular p.locals
  sober : Sober p.locals
  alike : Alike L p.locals
  noted : ∀ u, p.type? = some u → p.slot?.isSome ∧ ∃ d, u.descriptor = .ok d

theorem Sober.singleton {x : String} {t : Node} {i : Int} (ht : t.IsSober) :
    Sober [.localVar x t i] := by
  intro s hs
  rwa [List.mem_singleton.1 hs]

/-- A name with a sober type takes a slot. -/
theorem Gen.Pass.Fit.noting {L : List Symbol} {p : Gen.Pass} (h : p.Fit L) (m : Node) (x : String)
    {t u : Node} (i : Int) (hu : u.IsSober) (hknown : u.isKnownType) (ht : t.outline = u.outline) :
    (p.noting m x u i).Fit (L ++ [Symbol.localVar x t i]) where
  regular := h.regular.snoc hknown
  sober := h.sober.append (.singleton hu)
  alike := h.alike.append (.cons ⟨rfl, rfl, ht⟩ .nil)
  noted v hv := by
    refine ⟨rfl, ?_⟩
    cases m with
    | assign =>
      cases hv
      exact hu.descriptor
    | _ => exact (h.noted v hv).2

section Statements

variable {other : Visitor} {E : List Symbol} {known : List String}
  {ctx : Context}

/-- The first pass over members of a block has a result. -/
def Passes (other : Visitor) (ctx : Context) (p : Gen.Pass) (ms : List Node)
    (w : Workspace) : Prop :=
  ∃ ls v, Yields (Gen.declare other ctx p ms) w ls v ∧ Sober ls ∧ w.frame.depth ≤ v.frame.depth

section FirstPass

variable {p : Gen.Pass} {ms : List Node} {w : Workspace}

/-- A line is printed for a slot, and the pass goes on. -/
theorem Passes.line {q : Gen.Pass} {g : Frame} (slot : Int) (x : String) {u : Node}
    (hu : ∃ d, u.descriptor = .ok d) (hscope : w.frame.scopes.head?.isSome)
    (hg : w.frame.Advances g) (hdeeper : w.frame.depth ≤ g.depth)
    (rest : ∀ v : Workspace, v.frame = g → Passes other ctx q ms v) :
    ∃ v' ls v, Yields (Gen.printVar slot x u) (w.extend g []) () v' ∧
      Yields (Gen.declare other ctx q ms) v' ls v ∧ Sober ls ∧ w.frame.depth ≤ v.frame.depth := by
  obtain ⟨sc, hsc⟩ := Option.isSome_iff_exists.1 hscope
  obtain ⟨d, hd⟩ := hu
  have hsc' : g.scopes.head? = some sc := by rw [hg.scopes, hsc]
  obtain ⟨ls, v, hls, hsober, hv⟩ :=
    rest ((w.extend g []).extend g [some [slotLine sc slot x d]]) rfl
  exact ⟨_, ls, v, Gen.yields_printVar.2 ⟨sc, d, hsc', hd, rfl⟩, hls, hsober,
    Int.le_trans hdeeper hv⟩

theorem Passes.var {x : String} {τ : Ty} {e : Node} (hscope : w.frame.scopes.head?.isSome)
    (rest : ∀ v : Workspace, v.frame = w.frame.indexed →
      Passes other ctx (p.noting (.var x τ.node e) x τ.node w.frame.index) ms v) :
    Passes other ctx p (.var x τ.node e :: ms) w := by
  have htruthy : τ.node.truthy := by cases τ <;> rfl
  have htype : Gen.typeOf other (ctx.enter p.locals) τ.node = pure τ.node := by cases τ <;> rfl
  obtain ⟨v', ls, v, hline, hls, hsober, hv⟩ := Passes.line w.frame.index x τ.isSober.descriptor
    hscope (Frame.advances_indexed _) (Int.le_refl _) rest
  refine ⟨ls, v, ?_, hsober, hv⟩
  simp only [Gen.declare, htruthy, if_true, htype, pure_bind, yields_bind, Gen.yields_take]
  exact ⟨_, _, ⟨rfl, rfl⟩, (), v', hline, hls⟩

/-- An assignment to a new name takes a slot for the type of the value. -/
theorem Passes.assigned (hctx : ctx.missing = []) {x : String} {e u : Node} {c : Code} {g : Frame}
    (hfind : Symbol.find? x ctx.scopes.flatten = none)
    (hc : Yields (Gen.expr other (ctx.enter p.locals) e) w (some c, u) (w.extend g []))
    (hu : ∃ d, u.descriptor = .ok d) (hscope : w.frame.scopes.head?.isSome)
    (hg : w.frame.Advances g) (hdeeper : w.frame.depth ≤ g.depth)
    (rest : ∀ v : Workspace, v.frame = g.indexed →
      Passes other ctx (p.noting (.assign (.id x) e) x u g.index) ms v) :
    Passes other ctx p (.assign (.id x) e :: ms) w := by
  obtain ⟨v', ls, v, hline, hls, hsober, hv⟩ := Passes.line g.index x hu hscope
    (hg.trans (Frame.advances_indexed g)) hdeeper rest
  refine ⟨ls, v, ?_, hsober, hv⟩
  simp only [Gen.declare, yields_bind, Context.yields_find? hctx]
  refine ⟨none, w, ⟨hfind.symm, rfl⟩, ?_⟩
  simp only [yields_bind, Gen.yields_take, yields_pure, Gen.exprType]
  refine ⟨u, _, ⟨_, _, hc, rfl, rfl⟩, _, _, ⟨rfl, rfl⟩, _, _, ⟨rfl, rfl⟩, ?_⟩
  simp only [yields_bind]
  exact ⟨(), v', by simpa using hline, hls⟩

/-- An assignment to a name that is known prints the slot and the type that have been noted. -/
theorem Passes.noted (hctx : ctx.missing = []) {x : String} {e u : Node} {s : Symbol} {slot : Int}
    (hfind : Symbol.find? x ctx.scopes.flatten = some s) (hslot : p.slot? = some slot)
    (htype : p.type? = some u) (hu : ∃ d, u.descriptor = .ok d)
    (hscope : w.frame.scopes.head?.isSome)
    (rest : ∀ v : Workspace, v.frame = w.frame → Passes other ctx p ms v) :
    Passes other ctx p (.assign (.id x) e :: ms) w := by
  obtain ⟨v', ls, v, hline, hls, hsober, hv⟩ := Passes.line slot x hu hscope (.refl _)
    (Int.le_refl _) rest
  refine ⟨ls, v, ?_, hsober, hv⟩
  simp only [Gen.declare, yields_bind, Context.yields_find? hctx]
  refine ⟨some s, w, ⟨hfind.symm, rfl⟩, ?_⟩
  simp only [yields_bind, yields_pure]
  refine ⟨p, w, ⟨rfl, rfl⟩, ?_⟩
  simp only [hslot, htype, yields_bind]
  exact ⟨(), v', by simpa using hline, hls⟩

end FirstPass

/-- The first pass over a block in order finds a type for each line. -/
theorem Gen.declare_progress (other : Visitor) (h : Surrounds E known ctx) :
    ∀ {ms : List Node} {p : Gen.Pass} {L : List Symbol} {w : Workspace},
      Node.areCoreStmts ms → p.Fit L → passUsable E L w.frame.index ms →
      (p.type? = none → ∀ x, firstAssigned? ms = some x → x ∉ known) → 0 ≤ w.frame.depth →
      w.frame.scopes.head?.isSome → Passes other ctx p ms w
  | [], p, L, w, _, hp, _, _, _, _ =>
    ⟨p.locals, w, yields_pure.2 ⟨rfl, rfl⟩, hp.sober, Int.le_refl _⟩
  | m :: ms, p, L, w, hms, hp, husable, hfirst, hdepth, hscope => by
    simp only [Node.areCoreStmts, Bool.and_eq_true] at hms
    obtain ⟨⟨hnone, hm⟩, hms⟩ := hms
    -- The pass goes on in a later frame of the same scope.
    have next {q : Gen.Pass} {L' : List Symbol} {g : Frame} (hq : q.Fit L')
        (hg : w.frame.Advances g) (hdeeper : w.frame.depth ≤ g.depth)
        (husable : passUsable E L' g.index ms)
        (hfirst : q.type? = none → ∀ x, firstAssigned? ms = some x → x ∉ known) :
        ∀ v : Workspace, v.frame = g → Passes other ctx q ms v := by
      rintro v rfl
      exact Gen.declare_progress other h hms hq husable hfirst (Int.le_trans hdepth hdeeper)
        (by rwa [hg.scopes])
    cases m with
    | var x t e =>
      simp only [Node.isCoreStmt, Bool.and_eq_true, Option.isSome_iff_exists] at hm
      obtain ⟨⟨τ, hτ⟩, -⟩ := hm
      obtain rfl := Ty.eq_node_of_ofNode? hτ
      have htaken : taken E L w.frame.index (.var x τ.node e) =
          some (x, τ.node, w.frame.index) := by cases τ <;> rfl
      have hknown : τ.node.isKnownType := by cases τ <;> rfl
      simp only [passUsable, htaken, Bool.true_and] at husable
      exact .var hscope (next (hp.noting _ x w.frame.index τ.isSober hknown rfl)
        (Frame.advances_indexed _) (Int.le_refl _) husable hfirst)
    | assign l e =>
      cases l with
      | id x =>
        simp only [passUsable, Bool.and_eq_true, Bool.or_eq_true] at husable
        rcases hfind : Symbol.find? x ctx.scopes.flatten with _ | s
        · -- The name is new, and the value gives it its type.
          have hE := h.alike.find?_none hfind
          have hlocals := (hp.alike.append h.alike).exprUsable_eq e
          have hregular : Regular (ctx.enter p.locals).scopes.flatten := by
            simpa using hp.regular.append h.regular
          obtain ⟨c, u, g, hc, hcoded, hu, hknown, hg⟩ := Gen.expr_generated other rfl
            hregular (by simpa using hp.sober.append h.sober) hm
            (by simpa [hE, hlocals] using husable.1) hdepth
          have hdeeper : w.frame.depth ≤ g.depth := by omega
          have hintroduces := Introduces.assigned hfind (by simpa using hcoded)
          obtain ⟨t, htaken, ht⟩ := hintroduces.taken h.alike hp.alike
          simp only [htaken] at husable
          exact .assigned h.missing hfind hc hu.descriptor hscope hcoded.advances hdeeper
            (next (hp.noting _ x g.index hu hknown ht)
              (hcoded.advances.trans (Frame.advances_indexed _)) hdeeper husable.2
              (by simp [Gen.Pass.noting]))
        · -- The name is known, so a type has been noted.
          have hx : x ∈ known := h.knows.of_find?.2 (by simp [hfind])
          obtain ⟨u, hu⟩ : ∃ u, p.type? = some u := by
            rcases htype : p.type? with _ | u
            · exact absurd hx (hfirst htype x rfl)
            · exact ⟨u, rfl⟩
          obtain ⟨hslot, hd⟩ := hp.noted u hu
          obtain ⟨slot, hslot⟩ := Option.isSome_iff_exists.1 hslot
          obtain ⟨s', hs', -⟩ := h.alike.find?_some hfind
          have htaken : taken E L w.frame.index (.assign (.id x) e) = none := by
            simp [taken, hs']
          simp only [htaken] at husable
          exact .noted h.missing hfind hslot hu hd hscope
            (next hp (.refl _) (Int.le_refl _) husable.2 (by simp [hu]))
      | _ => cases hm
    | block | ifElse =>
      simp only [passUsable, taken, Bool.true_and] at husable
      simpa only [Passes, Gen.declare] using
        next hp (.refl _) (Int.le_refl _) husable hfirst w rfl
    | none => cases hnone
    | _ => cases hm

/-- An action prints code that the rules derive, and takes no more from the operand stack than
the code leaves there. -/
def Prints (env : List Symbol) (stage : Stage) (w : Workspace) (action : Gen Unit) : Prop :=
  ∃ (cs : List Code) (f : Frame), Yields action w () (w.extend f (cs.map some)) ∧
    Printed env stage w.frame cs.flatten f ∧ w.frame.depth ≤ f.depth

variable {x : String} {e : Node} {w : Workspace}

/-- A name that can be written, and the code of a value for it. -/
theorem Gen.value_progress (other : Visitor) (h : Surrounds E known ctx)
    (he : e.isCoreExpr) (husable : (Symbol.find? x E).any Symbol.isWritable && exprUsable E e)
    (hdepth : 0 ≤ w.frame.depth) :
    ∃ s c u f, Symbol.find? x ctx.scopes.flatten = some s ∧ s.isWritable ∧
      Yields (Gen.expr other ctx e) w (some c, u) (w.extend f []) ∧
      Coded ctx.scopes.flatten (.expr e) w.frame c u f ∧ f.Drops 1 (f.dropped 1) ∧
      w.frame.depth ≤ (f.dropped 1).depth := by
  rw [h.alike.any_eq (fun _ _ hst => hst.isWritable_eq), h.alike.exprUsable_eq,
    Bool.and_eq_true] at husable
  obtain ⟨s, hs, hwrite⟩ := Option.any_eq_true _ _ |>.1 husable.1
  obtain ⟨c, u, f, hc, hcoded, -, -, hf⟩ :=
    Gen.expr_generated other h.missing h.regular h.sober he husable.2 hdepth
  exact ⟨s, c, u, f, hs, hwrite, hc, hcoded, Frame.drops_dropped (by simp; omega),
    by simp only [Frame.dropped]; omega⟩

theorem Symbol.bank?_of_isWritable {s : Symbol} {i : Int} (h : s.isWritable)
    (hhome : s.home = .slot i) : ∃ b, s.type.bank? = some b := by
  simpa [isWritable, hhome, Option.isSome_iff_exists] using h

theorem Gen.varDecl_progress (h : Surrounds E known ctx) {t : Node}
    (hslot : HasSlot ctx.scopes.flatten x) (he : e.isCoreExpr)
    (husable : (Symbol.find? x E).any Symbol.isWritable && exprUsable E e)
    (hdepth : 0 ≤ w.frame.depth) :
    Prints ctx.scopes.flatten (.stmt (.var x t e)) w (Gen.varDecl other ctx x e) := by
  obtain ⟨s, c, u, f, hs, hwrite, hc, hcoded, hdrops, hf⟩ :=
    Gen.value_progress other h he husable hdepth
  obtain ⟨s', i, hs', hhome⟩ := hslot
  cases hs.symm.trans hs'
  obtain ⟨b, hb⟩ := Symbol.bank?_of_isWritable hwrite hhome
  refine ⟨[c, one (.store b i)], f.dropped 1, ?_, ?_, hf⟩
  · simp only [Gen.varDecl, yields_bind, Context.yields_needMethod h.missing,
      Context.yields_find h.missing]
    refine ⟨(), w, rfl, s, w, ⟨hs, rfl⟩, ?_⟩
    simp only [hhome, Node.truthy_of_isExprTree (Node.isExprTree_of_isCoreExpr he), if_true,
      yields_bind, Gen.yields_printPiece, Gen.yields_emit, yields_writeVar]
    exact ⟨_, _, hc, (), _, rfl, _, _, ⟨b, hb, rfl, hdrops⟩, by simp⟩
  · simpa using Printed.var hs hhome hcoded hb hdrops

theorem Gen.assign_progress (h : Surrounds E known ctx) (he : e.isCoreExpr)
    (husable : (Symbol.find? x E).any Symbol.isWritable && exprUsable E e)
    (hdepth : 0 ≤ w.frame.depth) :
    Prints ctx.scopes.flatten (.stmt (.assign (.id x) e)) w (Gen.assign other ctx (.id x) e) := by
  obtain ⟨s, c, u, f, hs, hwrite, hc, hcoded, hdrops, hf⟩ :=
    Gen.value_progress other h he husable hdepth
  have hmem := Symbol.mem_of_find? hs
  simp only [Prints, Gen.assign, yields_bind, Context.yields_needMethod h.missing,
    Context.yields_find h.missing, Gen.yields_printPiece]
  cases hhome : s.home with
  | slot j =>
    obtain ⟨b, hb⟩ := Symbol.bank?_of_isWritable hwrite hhome
    refine ⟨[c, one (.store b j)], f.dropped 1,
      ⟨(), w, rfl, s, w, ⟨hs, rfl⟩, _, _, hc, (), _, rfl, ?_⟩,
      by simpa using Printed.assignSlot hs hhome hcoded hb hdrops, hf⟩
    simp only [hhome, Gen.yields_emit, yields_writeVar]
    exact ⟨_, _, ⟨b, hb, rfl, hdrops⟩, by simp⟩
  | member owner y =>
    obtain ⟨d, hd⟩ := (h.sober s hmem).descriptor
    refine ⟨[c, one (.putStatic (owner ++ "/" ++ x) d)], f.dropped 1,
      ⟨(), w, rfl, s, w, ⟨hs, rfl⟩, _, _, hc, (), _, rfl, ?_⟩,
      by simpa using Printed.assignStatic hs hhome hcoded hd hdrops, hf⟩
    simp only [hhome, Gen.yields_emit, yields_putStatic]
    exact ⟨_, _, ⟨d, hd, rfl, hdrops⟩, by simp⟩
  | unknown => exact absurd hhome (h.regular.placed s hmem)

/-- The surroundings of the members of a block. -/
theorem Surrounds.enter (h : Surrounds E known ctx) {ms : List Node} {f g : Frame} {c : Code}
    {ls : List Symbol} (hls : Declared ctx.scopes.flatten {} ms f c ls g) (hregular : Regular ls)
    (hsober : Sober ls) :
    Surrounds ((takes E [] f.index ms).1.reduceOption ++ E)
      (ms.filterMap Node.introduced? ++ known) (ctx.enter ls) where
  missing := rfl
  regular := by simpa using hregular.append h.regular
  sober := by simpa using hsober.append h.sober
  alike := by simpa using (hls.takes h.alike (Alike.refl [])).1.append h.alike
  knows x := by
    rw [show (ctx.enter ls).scopes.flatten = ls ++ ctx.scopes.flatten by simp, hls.map_name,
      List.mem_append, h.knows x]
    simp

/-- A block has code if its members have, among the names that its first pass has found. -/
theorem Gen.block_progress (h : Surrounds E known ctx) {ms : List Node}
    (hms : Node.areCoreStmts ms) (hfirst : ∀ x, firstAssigned? ms = some x → x ∉ known)
    (husable : passUsable E [] w.frame.index ms) (hdepth : 0 ≤ w.frame.depth)
    (members : ∀ (ls : List Symbol) (v : Workspace),
      Surrounds ((takes E [] w.frame.index ms).1.reduceOption ++ E)
        (ms.filterMap Node.introduced? ++ known) (ctx.enter ls) →
      (∀ m ∈ ms, ∀ x, m.declared? = some x → HasSlot (ctx.enter ls).scopes.flatten x) →
      v.frame.index = (takes E [] w.frame.index ms).2 → 0 ≤ v.frame.depth →
      Prints (ctx.enter ls).scopes.flatten (.members ms) v (Gen.stmts other (ctx.enter ls) ms)) :
    Prints ctx.scopes.flatten (.stmt (.block ms)) w (Gen.stmt other ctx (.block ms)) := by
  have hempty : Gen.Pass.Fit [] {} :=
    { regular := { placed := by simp, noMethod := by simp, known := by simp }
      sober := by simp [Sober]
      alike := Alike.refl []
      noted := nofun }
  let w₀ := w.extend (w.frame.entered false) [some (label (.ofNat w.frame.label))]
  obtain ⟨ls, v, hv, hsober, hdeeper⟩ := Gen.declare_progress other (w := w₀) h hms hempty husable
    (fun _ => hfirst) hdepth rfl
  obtain ⟨⟨c, g, rfl, hls⟩, hregular⟩ := declareDeclared h.missing h.regular
    (Node.areStmtTrees_of_areCoreStmts hms) hempty.regular hv
  have inside := h.enter hls hregular hsober
  obtain ⟨cs, k, hcs, hprinted, hk⟩ := members ls (w₀.extend g (linePieces c)) inside
    (fun m hm x hx => by simpa using hls.hasSlot hm hx) (hls.takes h.alike (Alike.refl [])).2
    (Int.le_trans hdepth hdeeper)
  -- The scope that is left is the one that was entered.
  have hinside : (w.frame.entered false).Advances k := hls.advances.trans hprinted.advances
  have hscopes : k.scopes =
      ⟨w.frame.label, w.frame.label + 1, w.frame.index⟩ :: w.frame.scopes := hinside.scopes
  refine ⟨[label (.ofNat w.frame.label)] ++ c.map (fun l => [l]) ++ cs ++
    [label (.ofNat (w.frame.label + 1))], k.left w.frame, ?_, ?_, Int.le_trans hdeeper hk⟩
  · simp only [Gen.stmt, yields_bind, Context.yields_needMethod h.missing,
      Context.yields_need h.missing, Gen.yields_onFrame, Frame.yields_enterScope, Gen.printLabel,
      Gen.yields_emit, Frame.yields_startLabel, Frame.yields_endLabel, yields_pure,
      Frame.yields_exitScope]
    refine ⟨(), w, rfl, (), w, rfl, (), _, ⟨_, rfl, rfl⟩, (), w₀,
      ⟨_, _, ⟨_, _, ⟨_, rfl, rfl, rfl⟩, rfl, rfl⟩, by simp [w₀, Frame.entered]⟩, ls, _, hv, (), _,
      hcs, (), _, ⟨_, _, ⟨_, _, ⟨_, by rw [Workspace.extend_frame, hscopes]; rfl, rfl, rfl⟩, rfl,
      rfl⟩, rfl⟩, _, ⟨_, _, hscopes, rfl⟩, ?_⟩
    simp [w₀, Frame.left, linePieces, List.map_map, Function.comp_def]
  · have hcode : (c.map fun l => [l]).flatten = c := by
      rw [← List.flatMap_def, List.flatMap_singleton']
    simpa [hcode] using Printed.block hls hprinted

/-- A condition has code if its branches have. -/
theorem Gen.ifElse_progress (h : Surrounds E known ctx) {y n : Node} (he : e.isCoreExpr)
    (hn : n.isElseTree) (husable : exprUsable E e) (hdepth : 0 ≤ w.frame.depth)
    (yes : ∀ v : Workspace, v.frame.index = w.frame.index + temps e → 0 ≤ v.frame.depth →
      Prints ctx.scopes.flatten (.stmt y) v (Gen.stmt other ctx y))
    (no : n.truthy → ∀ v : Workspace,
      v.frame.index = w.frame.index + temps e + stmtTemps y → 0 ≤ v.frame.depth →
      Prints ctx.scopes.flatten (.stmt n) v (Gen.stmt other ctx n)) :
    Prints ctx.scopes.flatten (.stmt (.ifElse e y n)) w (Gen.stmt other ctx (.ifElse e y n)) := by
  rw [h.alike.exprUsable_eq] at husable
  obtain ⟨c, t, f, hc, hcoded, -, -, hf⟩ :=
    Gen.expr_generated other h.missing h.regular h.sober he husable hdepth
  have hindex : f.index = w.frame.index + temps e := hcoded.index_eq
  have hlater : w.frame.depth ≤ f.depth - 1 := by omega
  have hdrops (k : Nat) : (f.labelled k).Drops 1 ((f.labelled k).dropped 1) :=
    Frame.drops_dropped (by simp only [Frame.labelled]; omega)
  by_cases htruthy : n.truthy
  · let w₁ := w.extend ((f.labelled 2).dropped 1)
      [some c, some (one (.ifZero .le (.ofNat (f.label + 1))))]
    obtain ⟨ps, g, hps, hprinted, hg⟩ := yes w₁ hindex (Int.le_trans hdepth hlater)
    have hindex' : g.index = f.index + stmtTemps y := hprinted.index_eq
    let w₂ := (w₁.extend g (ps.map some)).extend g
      [some (jump (.ofNat f.label)), some (label (.ofNat (f.label + 1)))]
    obtain ⟨qs, k, hqs, hprinted', hk⟩ := no htruthy w₂ (hindex'.trans (by rw [hindex]))
      (Int.le_trans (Int.le_trans hdepth hlater) hg)
    refine ⟨[c, one (.ifZero .le (.ofNat (f.label + 1)))] ++ ps ++
      [jump (.ofNat f.label), label (.ofNat (f.label + 1))] ++ qs ++ [label (.ofNat f.label)], k,
      ?_, ?_, Int.le_trans hlater (Int.le_trans hg hk)⟩
    · simp only [Gen.stmt, htruthy, if_true, yields_bind,
        Context.yields_needMethod h.missing, Gen.yields_printPiece, Gen.yields_onFrame,
        Frame.yields_newLabel, Gen.yields_emit, yields_ifFalse, Gen.yields_print]
      exact ⟨(), w, rfl, _, _, hc, (), _, rfl, _, _, ⟨_, ⟨rfl, rfl⟩, rfl⟩, _, _,
        ⟨_, ⟨rfl, rfl⟩, rfl⟩, (), w₁, ⟨_, _, ⟨rfl, hdrops 2⟩, by simp [w₁, Frame.labelled]⟩, (), _,
        hps, (), _, rfl, (), w₂, by simp [w₂, Frame.labelled], (), _, hqs, by simp [w₁, w₂]⟩
    · simpa using Printed.ifElse hcoded (hdrops 2) htruthy hprinted hprinted'
  · obtain rfl := Node.eq_none_of_isElseTree hn htruthy
    let w₁ := w.extend ((f.labelled 1).dropped 1)
      [some c, some (one (.ifZero .le (.ofNat f.label)))]
    obtain ⟨ps, g, hps, hprinted, hg⟩ := yes w₁ hindex (Int.le_trans hdepth hlater)
    refine ⟨[c, one (.ifZero .le (.ofNat f.label))] ++ ps ++ [label (.ofNat f.label)], g, ?_, ?_,
      Int.le_trans hlater hg⟩
    · simp only [Gen.stmt, Node.truthy, Bool.false_eq_true, if_false, yields_bind,
        Context.yields_needMethod h.missing, Gen.yields_printPiece, Gen.yields_onFrame,
        Frame.yields_newLabel, Gen.yields_emit, yields_ifFalse, Gen.yields_print]
      exact ⟨(), w, rfl, _, _, hc, (), _, rfl, _, _, ⟨_, ⟨rfl, rfl⟩, rfl⟩, (), w₁,
        ⟨_, _, ⟨rfl, hdrops 1⟩, by simp [w₁]⟩, (), _, hps, by simp [w₁]⟩
    · simpa using Printed.ifOnly hcoded (hdrops 1) hprinted

variable (other)

mutual

/-- A statement in order whose names can be used has code. -/
theorem Gen.stmt_progress : ∀ {m : Node} {E : List Symbol} {known : List String} {ctx : Context}
    {w : Workspace}, Surrounds E known ctx → m.isCoreStmt → m.isNone = false →
    (∀ x, m.declared? = some x → HasSlot ctx.scopes.flatten x) → stmtOrdered known m →
    stmtUsable E w.frame.index m → 0 ≤ w.frame.depth →
    Prints ctx.scopes.flatten (.stmt m) w (Gen.stmt other ctx m) := by
  intro m E known ctx w h hm hnone hslot hordered husable hdepth
  cases m with
  | var x t e =>
    simp only [Node.isCoreStmt, Bool.and_eq_true] at hm
    simpa only [Gen.stmt] using Gen.varDecl_progress h (hslot x rfl) hm.2 husable hdepth
  | assign l e =>
    cases l with
    | id x => simpa only [Gen.stmt] using Gen.assign_progress h hm husable hdepth
    | _ => cases hm
  | block ms =>
    simp only [stmtOrdered, Bool.and_eq_true, Option.all_eq_true, decide_eq_true_eq] at hordered
    simp only [stmtUsable, Bool.and_eq_true] at husable
    exact Gen.block_progress h hm hordered.1 husable.1 hdepth fun ls v inside hslot hv hdepth' =>
      Gen.stmts_progress inside hm hslot hordered.2 (hv ▸ husable.2) hdepth'
  | ifElse c y n =>
    simp only [Node.isCoreStmt, Bool.and_eq_true] at hm
    obtain ⟨⟨⟨⟨hc, hblock⟩, hy⟩, helse⟩, hn⟩ := hm
    simp only [stmtOrdered, Bool.and_eq_true] at hordered
    simp only [stmtUsable, Bool.and_eq_true] at husable
    have noName {m : Node} (hm : m.declared? = none) :
        ∀ x, m.declared? = some x → HasSlot ctx.scopes.flatten x := by
      simp [hm]
    refine Gen.ifElse_progress h hc helse husable.1.1 hdepth (fun v hv hdepth' => ?_)
      fun htruthy v hv hdepth' => ?_
    · have hnone : y.isNone = false := by
        cases y with
        | block => rfl
        | _ => cases hblock
      exact Gen.stmt_progress h hy hnone (noName (Node.declared?_of_isBlock hblock)) hordered.1
        (hv ▸ husable.1.2) hdepth'
    · have hnone : n.isNone = false := by
        cases n with
        | none => cases htruthy
        | _ => rfl
      exact Gen.stmt_progress h hn hnone (noName (Node.declared?_of_isElseTree helse)) hordered.2
        (hv ▸ husable.2) hdepth'
  | none => cases hnone
  | _ => cases hm

theorem Gen.stmts_progress : ∀ {ms : List Node} {E : List Symbol} {known : List String}
    {ctx : Context} {w : Workspace}, Surrounds E known ctx → Node.areCoreStmts ms →
    (∀ m ∈ ms, ∀ x, m.declared? = some x → HasSlot ctx.scopes.flatten x) →
    membersOrdered known ms → membersUsable E w.frame.index ms → 0 ≤ w.frame.depth →
    Prints ctx.scopes.flatten (.members ms) w (Gen.stmts other ctx ms)
  | [], E, known, ctx, w, _, _, _, _, _, _ =>
    ⟨[], w.frame, by simp [Gen.stmts], .noMembers, Int.le_refl _⟩
  | m :: ms, E, known, ctx, w, h, hms, hslot, hordered, husable, hdepth => by
    simp only [Node.areCoreStmts, Bool.and_eq_true, Bool.not_eq_true'] at hms
    simp only [membersOrdered, Bool.and_eq_true] at hordered
    simp only [membersUsable, Bool.and_eq_true] at husable
    obtain ⟨cs, f, hfirst, hprinted, hf⟩ := Gen.stmt_progress h hms.1.2 hms.1.1
      (hslot m (List.mem_cons_self ..)) hordered.1 husable.1 hdepth
    have hindex : f.index = w.frame.index + stmtTemps m := hprinted.index_eq
    obtain ⟨ds, g, hrest, hprinted', hg⟩ := Gen.stmts_progress
      (w := w.extend f (cs.map some)) h hms.2
      (fun m hm => hslot m (List.mem_cons_of_mem _ hm)) hordered.2
      (by simpa [hindex] using husable.2) (Int.le_trans hdepth hf)
    refine ⟨cs ++ ds, g, ?_, by simpa using Printed.member hprinted hprinted',
      Int.le_trans hf hg⟩
    simp only [Gen.stmts, yields_bind]
    exact ⟨(), _, hfirst, by simpa using hrest⟩

end

end Statements

end MiniGoc
