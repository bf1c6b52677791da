import MiniGoc.Proofs.Opening

/-!
# Actions that agree

Two actions of the generator *agree* if they do the same wherever the frame is the same: they
have the same result or the same fault, leave the same frame and print the same pieces.  They
look at nothing else of the workspace, and leave the rest of it alone.

The steps that the generator takes agree in all surroundings that know the same names, in
whatever order these were declared (`Context.Matches`).  Within a scope they are *level* as well:
the index of the frame does not go down.
-/

namespace MiniGoc

open Act (Yields yields_bind yields_pure)
open Emit

/-! ## Actions that agree -/

/-- The two actions do the same wherever the frame is the same, whatever else the workspace
holds. -/
def Gen.Agree {α : Type} (m m' : Gen α) : Prop :=
  ∀ f : Frame, ∃ r g ps, ∀ w : Workspace, w.frame = f →
    m.start w = (r, w.extend g ps) ∧ m'.start w = (r, w.extend g ps)

namespace Gen.Agree

variable {α β : Type} {m m' : Gen α} {k k' : α → Gen β}

/-- An action that is the same on both sides, and does nothing to the workspace. -/
theorem of_start {r : Except Fault α} (h : ∀ w, m.start w = (r, w)) : Agree m m := by
  intro f
  refine ⟨r, f, [], fun w hw => ?_⟩
  rw [← hw, Workspace.extend_self, h w]
  exact ⟨rfl, rfl⟩

protected theorem pure (a : α) : Agree (pure a : Gen α) (pure a) := .of_start fun _ => rfl

protected theorem throw (e : Fault) : Agree (throw e : Gen α) (throw e) := .of_start fun _ => rfl

protected theorem ofOption (e : Fault) (o : Option α) :
    Agree (Act.ofOption e o : Gen α) (Act.ofOption e o) := by
  cases o with
  | none => exact .throw e
  | some a => exact .pure a

protected theorem ofExcept (r : Except Fault α) :
    Agree (Act.ofExcept r : Gen α) (Act.ofExcept r) := by
  cases r with
  | error e => exact .throw e
  | ok a => exact .pure a

/-- Actions that agree go on with actions that agree on the results that there can be. -/
theorem bind_of_yields (hm : Agree m m')
    (hk : ∀ a w v, Yields m w a v → Agree (k a) (k' a)) : Agree (m >>= k) (m' >>= k') := by
  intro f
  obtain ⟨r, g, ps, h⟩ := hm f
  cases r with
  | error e =>
    refine ⟨.error e, g, ps, fun w hw => ?_⟩
    rw [Act.start_bind, Act.start_bind, (h w hw).1, (h w hw).2]
    exact ⟨rfl, rfl⟩
  | ok a =>
    have some : Yields m { (default : Workspace) with frame := f } a _ := (h _ rfl).1
    obtain ⟨r, g', qs, h'⟩ := hk a _ _ some g
    refine ⟨r, g', ps ++ qs, fun w hw => ?_⟩
    rw [Act.start_bind, Act.start_bind, (h w hw).1, (h w hw).2, ← Workspace.extend_extend]
    exact h' (w.extend g ps) rfl

protected theorem bind (hm : Agree m m') (hk : ∀ a, Agree (k a) (k' a)) :
    Agree (m >>= k) (m' >>= k') := hm.bind_of_yields fun a _ _ _ => hk a

theorem throw_bind (e : Fault) : Agree (throw e >>= k) (throw e >>= k') :=
  (Agree.throw e).bind_of_yields fun _ _ _ h => absurd h Act.yields_throw

protected theorem onFrame (m : Act Frame α) : Agree (Gen.onFrame m) (Gen.onFrame m) := by
  intro f
  refine ⟨(m.start f).1, (m.start f).2, [], fun w hw => ?_⟩
  subst hw
  have unfolded : (Gen.onFrame m).start w =
      ((m.start w.frame).1, w.extend (m.start w.frame).2 []) := by
    simp only [Workspace.extend, List.append_nil]
    rfl
  exact ⟨unfolded, unfolded⟩

theorem onFrame_bind {m : Act Frame α} (hk : ∀ a, Agree (k a) (k' a)) :
    Agree (Gen.onFrame m >>= k) (Gen.onFrame m >>= k') := (Agree.onFrame m).bind hk

protected theorem printPiece (p : Piece) : Agree (Gen.printPiece p) (Gen.printPiece p) := by
  intro f
  refine ⟨.ok (), f, [p], fun w hw => ?_⟩
  subst hw
  exact ⟨rfl, rfl⟩

protected theorem print (c : Code) : Agree (Gen.print c) (Gen.print c) := .printPiece _

protected theorem emit (m : Act Frame Code) : Agree (Gen.emit m) (Gen.emit m) :=
  (Agree.onFrame m).bind fun c => .print c

protected theorem require (o : Option α) : Agree (Gen.require o) (Gen.require o) := .ofOption _ o

protected theorem join (ps : List Piece) : Agree (Gen.join ps) (Gen.join ps) := .ofExcept _

/-- A frame of its own makes no difference, and the outer frame comes back in the end. -/
protected theorem withFrame (h : Agree m m') : Agree (Gen.withFrame m) (Gen.withFrame m') := by
  have unfolded (m : Gen α) (w : Workspace) : (Gen.withFrame m).start w =
      ((m.start (w.extend {} [])).1, { (m.start (w.extend {} [])).2 with frame := w.frame }) := by
    simp only [Workspace.extend, List.append_nil]
    rfl
  intro f
  obtain ⟨r, g, ps, h⟩ := h {}
  refine ⟨r, f, ps, fun w hw => ?_⟩
  subst hw
  obtain ⟨h, h'⟩ := h (w.extend {} []) rfl
  rw [unfolded, unfolded, h, h', Workspace.extend_extend]
  exact ⟨rfl, rfl⟩

protected theorem forM {items : List α} {g g' : α → Gen PUnit}
    (h : ∀ a ∈ items, Agree (g a) (g' a)) : Agree (items.forM g) (items.forM g') := by
  induction items with
  | nil => exact .pure _
  | cons a items ih =>
    exact (h a (List.mem_cons_self ..)).bind fun _ =>
      ih fun a ha => h a (List.mem_cons_of_mem _ ha)

end Gen.Agree

/-! ## Surroundings that know the same names -/

/-- Two surroundings in which nothing is missing, and every name stands for the same. -/
structure Context.Matches (ctx ctx' : Context) : Prop where
  complete : ctx.missing = []
  complete' : ctx'.missing = []
  regular : Regular ctx.scopes.flatten
  regular' : Regular ctx'.scopes.flatten
  find? : ∀ n, Symbol.find? n ctx.scopes.flatten = Symbol.find? n ctx'.scopes.flatten

namespace Context.Matches

variable {ctx ctx' : Context}

theorem refl (hctx : ctx.missing = []) (henv : Regular ctx.scopes.flatten) : ctx.Matches ctx :=
  ⟨hctx, hctx, henv, henv, fun _ => rfl⟩

theorem enter (h : ctx.Matches ctx') {ls : List Symbol} (hls : Regular ls) :
    (ctx.enter ls).Matches (ctx'.enter ls) where
  complete := rfl
  complete' := rfl
  regular := by simpa using hls.append h.regular
  regular' := by simpa using hls.append h.regular'
  find? n := by simp [Symbol.find?_append, h.find? n]

theorem need (h : ctx.Matches ctx') (n : Need) : Gen.Agree (ctx.need n) (ctx'.need n) := by
  simp only [Context.need, h.complete, h.complete', List.not_mem_nil, if_false]
  exact .pure _

theorem needMethod (h : ctx.Matches ctx') : Gen.Agree ctx.needMethod ctx'.needMethod :=
  (h.need _).bind fun _ => h.need _

theorem findOption (h : ctx.Matches ctx') (n : String) :
    Gen.Agree (ctx.find? n) (ctx'.find? n) := by
  unfold Context.find?
  rw [← h.find? n]
  exact (h.need _).bind fun _ => .pure _

theorem find (h : ctx.Matches ctx') (n : String) : Gen.Agree (ctx.find n) (ctx'.find n) :=
  (h.findOption n).bind fun _ => .ofOption _ _

theorem readId (h : ctx.Matches ctx') (n : String) :
    Gen.Agree (Gen.readId ctx n) (Gen.readId ctx' n) := by
  refine h.needMethod.bind fun _ => (h.find n).bind fun s => ?_
  cases s.home with
  | slot i => exact .onFrame_bind fun _ => .pure _
  | member owner x =>
    dsimp only
    split
    · exact .onFrame_bind fun _ => .pure _
    · exact .pure _
  | unknown => exact .pure _

end Context.Matches

section Steps

variable {other : Visitor} {ctx ctx' : Context}

theorem typeOf_agree (h : ctx.Matches ctx') {t : Node} (ht : t.isTypeTree) :
    Gen.Agree (Gen.typeOf other ctx t) (Gen.typeOf other ctx' t) := by
  cases t with
  | intType | floatType | boolType | stringType | voidType | arrayType => exact .pure _
  | id n =>
    refine (h.readId n).bind fun r => ?_
    cases r with
    | none => exact .pure _
    | some r => exact .pure _
  | _ => cases ht

theorem elementOf_agree (n : String) :
    ∀ es : List Node, Gen.Agree (Gen.elementOf n es) (Gen.elementOf n es)
  | [] => .throw _
  | e :: es => by
    cases e with
    | pair m t =>
      simp only [Gen.elementOf]
      split
      · exact .pure _
      · exact elementOf_agree n es
    | _ => exact .throw _

theorem methodCall_agree (h : ctx.Matches ctx') (receiver : Piece × Node) (n : String)
    (as : List Piece) :
    Gen.Agree (Gen.methodCall ctx receiver n as) (Gen.methodCall ctx' receiver n as) := by
  refine (h.find n).bind fun s => (Gen.Agree.require _).bind fun owner => ?_
  dsimp only
  split
  · exact .throw_bind _
  · split
    · exact .onFrame_bind fun _ => (Gen.Agree.require _).bind fun _ =>
        (Gen.Agree.join _).bind fun _ => .pure _
    · exact .onFrame_bind fun _ => (Gen.Agree.require _).bind fun _ =>
        (Gen.Agree.join _).bind fun _ => .pure _
    · exact .throw_bind _

theorem constant_agree (h : ctx.Matches ctx') (e : Node) :
    Gen.Agree (Gen.constant ctx e) (Gen.constant ctx' e) := by
  cases e with
  | binary | unary => exact .throw _
  | id n => exact (h.find n).bind fun _ => .pure _
  | _ => exact .pure _

end Steps

/-! ## Actions that keep the index up -/

/-- The two actions agree, and the index of the frame does not go down. -/
structure Gen.Level {α : Type} (g g' : Gen α) : Prop where
  agree : Agree g g'
  climbs : ∀ w a v, Yields g w a v → w.frame.index ≤ v.frame.index

namespace Gen.Level

variable {α β : Type} {g g' : Gen α} {k k' : α → Gen β} {ctx ctx' : Context}
  {other : Visitor}

theorem of_frame_eq (hg : Agree g g') (h : ∀ w a v, Yields g w a v → v.frame = w.frame) :
    Level g g' := ⟨hg, fun w a v hv => Int.le_of_eq (by rw [h w a v hv])⟩

protected theorem pure (a : α) : Level (pure a : Gen α) (pure a) :=
  of_frame_eq (.pure a) fun _ _ _ h => by rw [(yields_pure.1 h).2]

protected theorem throw (f : Fault) : Level (throw f : Gen α) (throw f) :=
  ⟨.throw f, fun _ _ _ h => absurd h Act.yields_throw⟩

protected theorem bind (hg : Level g g') (hk : ∀ a, Level (k a) (k' a)) :
    Level (g >>= k) (g' >>= k') := by
  refine ⟨hg.agree.bind fun a => (hk a).agree, fun w b u h => ?_⟩
  obtain ⟨a, v, h, h'⟩ := yields_bind.1 h
  exact Int.le_trans (hg.climbs _ _ _ h) ((hk a).climbs _ _ _ h')

protected theorem ofExcept (r : Except Fault α) :
    Level (Act.ofExcept r : Gen α) (Act.ofExcept r) :=
  of_frame_eq (.ofExcept r) fun _ _ _ h => by rw [(Act.yields_ofExcept.1 h).2]

protected theorem require (o : Option α) : Level (Gen.require o) (Gen.require o) :=
  of_frame_eq (.require o) fun _ _ _ h => by rw [(Gen.yields_require.1 h).2]

protected theorem join (ps : List Piece) : Level (Gen.join ps) (Gen.join ps) := .ofExcept _

protected theorem printPiece (p : Piece) : Level (Gen.printPiece p) (Gen.printPiece p) :=
  of_frame_eq (.printPiece p) fun _ _ _ h => by rw [Gen.yields_printPiece.1 h]; rfl

protected theorem print (c : Code) : Level (Gen.print c) (Gen.print c) := .printPiece _

protected theorem after (c : Code) (p : Piece) : Level (Gen.after c p) (Gen.after c p) := by
  cases p with
  | none => exact .throw _
  | some d => exact .pure _

protected theorem onFrame {m : Act Frame α}
    (h : ∀ {f a f'}, Yields m f a f' → f.index ≤ f'.index) :
    Level (Gen.onFrame m) (Gen.onFrame m) := by
  refine ⟨.onFrame m, fun w a v hm => ?_⟩
  obtain ⟨f, hf, rfl⟩ := Gen.yields_onFrame.1 hm
  exact h hf

protected theorem emit {m : Act Frame Code}
    (h : ∀ {f c f'}, Yields m f c f' → f.index ≤ f'.index) : Level (Gen.emit m) (Gen.emit m) :=
  (Level.onFrame h).bind fun _ => .print _

protected theorem printVar (slot : Int) (n : String) (t : Node) :
    Level (Gen.printVar slot n t) (Gen.printVar slot n t) := by
  refine of_frame_eq (.emit _) fun w u v h => ?_
  obtain ⟨s, d, -, -, rfl⟩ := Gen.yields_printVar.1 h
  rfl

protected theorem elementOf (n : String) (es : List Node) :
    Level (Gen.elementOf n es) (Gen.elementOf n es) :=
  of_frame_eq (elementOf_agree n es) fun _ _ _ h => by rw [(Gen.yields_elementOf.1 h).2]

protected theorem need (h : ctx.Matches ctx') (n : Need) : Level (ctx.need n) (ctx'.need n) :=
  of_frame_eq (h.need n) fun _ _ _ hn => by rw [(Context.yields_need h.complete).1 hn]

protected theorem needMethod (h : ctx.Matches ctx') : Level ctx.needMethod ctx'.needMethod :=
  (Level.need h _).bind fun _ => .need h _

protected theorem find? (h : ctx.Matches ctx') (n : String) : Level (ctx.find? n) (ctx'.find? n) :=
  of_frame_eq (h.findOption n) fun _ _ _ hn => by rw [((Context.yields_find? h.complete).1 hn).2]

protected theorem find (h : ctx.Matches ctx') (n : String) : Level (ctx.find n) (ctx'.find n) :=
  of_frame_eq (h.find n) fun _ _ _ hn => by rw [((Context.yields_find h.complete).1 hn).2]

protected theorem typeOf (h : ctx.Matches ctx') {t : Node} (ht : t.isTypeTree) :
    Level (Gen.typeOf other ctx t) (Gen.typeOf other ctx' t) := by
  refine ⟨typeOf_agree h ht, fun w u v hu => ?_⟩
  obtain ⟨f, rfl, hu, -⟩ := TypeOf.of_yields h.complete ht hu
  exact Int.le_of_eq hu.sameCounters.index.symm

protected theorem constant (h : ctx.Matches ctx') (e : Node) :
    Level (Gen.constant ctx e) (Gen.constant ctx' e) :=
  of_frame_eq (constant_agree h e) fun _ _ _ he => by rw [(Gen.isConstant_of_yields he).1]

/-- The code of an expression keeps the index up. -/
theorem of_expr (h : ctx.Matches ctx') {e : Node} (he : e.isExprTree)
    (hagree : Agree (Gen.expr other ctx e) (Gen.expr other ctx' e)) :
    Level (Gen.expr other ctx e) (Gen.expr other ctx' e) := by
  refine ⟨hagree, fun w r v hr => ?_⟩
  obtain ⟨c, f, -, rfl, hc, -⟩ := exprCoded h.complete h.regular he hr
  exact hc.advances.index

/-- No method of a struct is known, so that a call of one has no code. -/
protected theorem methodCall (h : ctx.Matches ctx') (r : Piece × Node) (n : String)
    (cs : List Piece) : Level (Gen.methodCall ctx r n cs) (Gen.methodCall ctx' r n cs) := by
  refine ⟨methodCall_agree h r n cs, fun w a v hm => ?_⟩
  simp only [Gen.methodCall, yields_bind, Context.yields_find h.complete,
    Gen.yields_require] at hm
  obtain ⟨s, _, ⟨hs, rfl⟩, owner, _, ⟨-, rfl⟩, hm⟩ := hm
  have hhome := h.regular.noMethod s (Symbol.mem_of_find? hs) owner
  simp [hhome] at hm

end Gen.Level

namespace Frame

variable {f g : Frame} {n : Nat}

theorem Drops.index_le (h : f.Drops n g) : f.index ≤ g.index :=
  Int.le_of_eq h.sameCounters.index.symm

theorem newLabel_index {l : Nat} (h : Yields newLabel f l g) : f.index ≤ g.index := by
  obtain ⟨-, rfl⟩ := yields_newLabel.1 h
  exact Int.le_refl _

theorem startLabel_eq {l : Nat} (h : Yields startLabel f l g) : g = f := by
  obtain ⟨_, -, -, rfl⟩ := yields_startLabel.1 h
  rfl

theorem endLabel_eq {l : Nat} (h : Yields endLabel f l g) : g = f := by
  obtain ⟨_, -, -, rfl⟩ := yields_endLabel.1 h
  rfl

theorem continueLabel_eq {l : Nat} (h : Yields continueLabel f l g) : g = f := by
  obtain ⟨_, -, -, rfl⟩ := yields_continueLabel.1 h
  rfl

theorem enterScope_index {u : Unit} (h : Yields (enterScope false) f u g) : f.index ≤ g.index := by
  obtain rfl := yields_enterScope.1 h
  exact Int.le_refl _

end Frame

namespace Emit

variable {f g : Frame} {t : Node} {name m : String} {i : Int} {c : Code} {p : Piece}

theorem readVar_index (h : Yields (readVar name t i) f c g) : f.index ≤ g.index := by
  obtain ⟨_, -, -, rfl⟩ := yields_readVar.1 h
  exact Int.le_refl _

theorem writeVar_index (h : Yields (writeVar name t i) f c g) : f.index ≤ g.index := by
  obtain ⟨_, -, -, hd⟩ := yields_writeVar.1 h
  exact hd.index_le

theorem loadCell_index (h : Yields (loadCell t) f c g) : f.index ≤ g.index := by
  obtain ⟨_, _, -, -, hd, rfl⟩ := yields_loadCell.1 h
  exact hd.index_le

theorem storeCell_index (h : Yields (storeCell t) f c g) : f.index ≤ g.index := by
  obtain ⟨_, -, -, hd⟩ := yields_storeCell.1 h
  exact hd.index_le

theorem putStatic_index (h : Yields (putStatic m t) f c g) : f.index ≤ g.index := by
  obtain ⟨_, -, -, hd⟩ := yields_putStatic.1 h
  exact hd.index_le

theorem getField_index (h : Yields (getField m t) f c g) : f.index ≤ g.index := by
  obtain ⟨_, _, -, -, hd, rfl⟩ := yields_getField.1 h
  exact hd.index_le

theorem putField_index (h : Yields (putField m t) f c g) : f.index ≤ g.index := by
  obtain ⟨_, -, -, hd⟩ := yields_putField.1 h
  exact hd.index_le

theorem pushInteger_index (h : Yields (pushInteger i) f c g) : f.index ≤ g.index := by
  obtain ⟨-, rfl⟩ := yields_pushInteger.1 h
  exact Int.le_refl _

theorem invokeStatic_index (h : Yields (invokeStatic m t) f c g) : f.index ≤ g.index := by
  obtain ⟨_, r, _, k, -, -, -, hd, rfl⟩ := yields_invokeStatic.1 h
  exact Int.le_trans hd.index_le (Int.le_of_eq (sameCounters_resultFrame k r).index.symm)

theorem invokeSpecial_index (h : Yields (invokeSpecial m (.funcType [] .voidType)) f c g) :
    f.index ≤ g.index := (yields_invokeSpecial.1 h).2.index_le

theorem binary_index {i : Instr} (h : Yields (binary i) f c g) : f.index ≤ g.index := by
  obtain ⟨-, _, hd, rfl⟩ := yields_binary.1 h
  exact hd.index_le

theorem intToFloat_index (h : Yields intToFloat f c g) : f.index ≤ g.index := by
  obtain ⟨-, _, hd, rfl⟩ := yields_intToFloat.1 h
  exact hd.index_le

theorem compare_index {op : String} (h : Yields (compare op t) f c g) : f.index ≤ g.index :=
  Int.le_of_eq (Compares.of_yields h).sameCounters.index.symm

theorem ifFalse_index {l : Operand} (h : Yields (ifFalse l) f c g) : f.index ≤ g.index :=
  (yields_ifFalse.1 h).2.index_le

theorem newArray_index (h : Yields (newArray t) f c g) : f.index ≤ g.index := by
  obtain ⟨_, _, -, -, hd, rfl⟩ := yields_newArray.1 h
  exact hd.index_le

theorem newObject_index (h : Yields (newObject m) f c g) : f.index ≤ g.index := by
  obtain ⟨-, rfl⟩ := yields_newObject.1 h
  exact Int.le_refl _

theorem dup_index (h : Yields dup f c g) : f.index ≤ g.index := by
  obtain ⟨-, rfl⟩ := yields_dup.1 h
  exact Int.le_refl _

theorem writeBank_index {b : Bank} (h : Yields (writeBank name t) f b g) : f.index ≤ g.index := by
  simp only [writeBank, yields_bind, Frame.yields_pop] at h
  obtain ⟨_, k, hd, h⟩ := h
  cases hb : t.bank? with
  | none => simp [hb, illegalVar] at h
  | some b' =>
    simp only [hb, yields_pure] at h
    rw [h.2]
    exact hd.index_le

theorem zero_index (h : Yields (Gen.zero t) f c g) : f.index ≤ g.index := by
  cases t with
  | intType | boolType => exact pushInteger_index h
  | floatType =>
    obtain ⟨-, -, rfl⟩ := yields_pushFloat.1 h
    exact Int.le_refl _
  | stringType =>
    simp only [Gen.zero, pushString, yields_bind, Frame.yields_push, yields_pure] at h
    obtain ⟨_, _, rfl, -, rfl⟩ := h
    exact Int.le_refl _
  | arrayType | structType | interfaceType =>
    obtain ⟨-, rfl⟩ := yields_pushNull.1 h
    exact Int.le_refl _
  | _ =>
    obtain ⟨-, rfl⟩ := yields_pure.1 h
    exact Int.le_refl _

/-- Code that holds a label of the frame. -/
theorem label_index {m : Act Frame Nat} {code : Nat → Code}
    (hm : ∀ {f l g}, Yields m f l g → g = f) (h : Yields (do return code (← m)) f c g) :
    f.index ≤ g.index := by
  obtain ⟨_, _, h, h'⟩ := yields_bind.1 h
  obtain ⟨-, rfl⟩ := yields_pure.1 h'
  exact Int.le_of_eq (by rw [hm h])

theorem ret_index (h : Yields (ret t) f p g) : f.index ≤ g.index := (yields_ret.1 h).2.index_le

end Emit

theorem Emit.made_index {c : Prop} [Decidable c] {e t : Node} {f g : Frame} {code : Code}
    (h : Yields (if c then newArray e else newMultiArray t) f code g) : f.index ≤ g.index := by
  split at h
  · exact newArray_index h
  · exact absurd h not_yields_newMultiArray

/-- An operator keeps the index up, whatever its operands are. -/
protected theorem Gen.Level.binary (op : String) (l r : Piece × Node) :
    Gen.Level (Gen.binary op l r) (Gen.binary op l r) := by
  have joined (ps : List Piece) (t : Node) : Gen.Level (do return (some (← Gen.join ps), t))
      (do return (some (← Gen.join ps), t)) := .bind (.join _) fun _ => .pure _
  have operator {m : Act Frame Code} (t : Node)
      (h : ∀ {f c f'}, Yields m f c f' → f.index ≤ f'.index) : Gen.Level (do
      let action ← Gen.onFrame m
      return (some (← Gen.join [l.1, r.1, some action]), t)) (do
      let action ← Gen.onFrame m
      return (some (← Gen.join [l.1, r.1, some action]), t)) :=
    .bind (.onFrame h) fun _ => joined _ _
  unfold Gen.binary
  split_ifs
  · unfold Gen.arithmetic
    simp only [arithmetic_eq_binary]
    refine .bind ?_ fun _ => .bind (.onFrame binary_index) fun _ => joined _ _
    split
    · split
      · exact .bind (.onFrame intToFloat_index) fun _ => .pure _
      · exact .bind (.onFrame intToFloat_index) fun _ => .pure _
      · exact .pure _
    · split <;> exact .pure _
  · exact operator _ compare_index
  · exact operator _ binary_index
  · exact operator _ binary_index
  · exact .pure _

/-! ## The first and the last lines of a method -/

protected theorem Gen.Agree.printVar (slot : Int) (n : String) (t : Node) :
    Gen.Agree (Gen.printVar slot n t) (Gen.printVar slot n t) := .emit _

theorem startMethod_agree (n : String) (t : Node) (b : Bool) :
    Gen.Agree (Gen.startMethod n t b) (Gen.startMethod n t b) :=
  (Gen.Agree.emit _).bind fun _ => .onFrame_bind fun _ => .emit _

theorem finishMethod_agree (r : Node) : Gen.Agree (Gen.finishMethod r) (Gen.finishMethod r) :=
  (Gen.Agree.emit _).bind fun _ => .onFrame_bind fun _ =>
    (Gen.Agree.printPiece _).bind fun _ => (Gen.Agree.emit _).bind fun _ => .onFrame _

theorem declareParam_agree (n : String) (t : Node) :
    Gen.Agree (Gen.declareParam n t) (Gen.declareParam n t) :=
  .onFrame_bind fun _ => (Gen.Agree.printVar _ n t).bind fun _ => .pure _

theorem param_agree (p : Node) : Gen.Agree (Gen.param p) (Gen.param p) := by
  cases p with
  | param n t => exact .pure _
  | _ => exact .throw _

theorem declareParams_agree :
    ∀ ps : List Node, Gen.Agree (Gen.declareParams ps) (Gen.declareParams ps)
  | [] => .pure _
  | p :: ps => (param_agree p).bind fun _ => (declareParam_agree _ _).bind fun _ =>
    (declareParams_agree ps).bind fun _ => .pure _

theorem paramTypes_agree : ∀ ps : List Node,
    Gen.Agree (ps.mapM fun p => do return (← Gen.param p).2)
      (ps.mapM fun p => do return (← Gen.param p).2)
  | [] => by
    rw [List.mapM_nil]
    exact .pure _
  | p :: ps => by
    rw [List.mapM_cons]
    exact ((param_agree p).bind fun _ => .pure _).bind fun _ =>
      (paramTypes_agree ps).bind fun _ => .pure _

theorem openFunc_agree (n : String) (ps : List Node) (r : Node) :
    Gen.Agree (Gen.openFunc n ps r) (Gen.openFunc n ps r) := by
  unfold Gen.openFunc
  split
  · exact (startMethod_agree _ _ _).bind fun _ => (declareParam_agree _ _).bind fun _ => .pure _
  · exact (paramTypes_agree ps).bind fun _ => (startMethod_agree _ _ _).bind fun _ =>
      declareParams_agree ps

end MiniGoc
