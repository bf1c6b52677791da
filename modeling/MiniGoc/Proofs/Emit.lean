import MiniGoc.Proofs.Act

/-!
# What instructions do to the frame

Every action on the frame that the code generator takes is described here once: the
code it gives, and the frame it leaves.  Later proofs cite these lemmas and do not
look into the actions again.

Three changes of the frame make up all of them: a value more on the operand stack
(`Frame.pushed`), some values less (`Frame.Drops`), and labels or slots that are used
up (`Frame.labelled`, `Frame.indexed`).  Only the last two touch what other code can
see; the operand stack is private to the instruction.
-/

namespace MiniGoc

open Act (Yields yields_bind yields_pure)

namespace Frame

/-- One more value on the operand stack. -/
def pushed (f : Frame) : Frame :=
  { f with depth := f.depth + 1, maxDepth := max f.maxDepth (f.depth + 1) }

/-- Some values less on the operand stack. -/
def dropped (f : Frame) (n : Nat) : Frame := { f with depth := f.depth - n }

/-- Some values can be taken from the operand stack, and are. -/
def Drops (f : Frame) (n : Nat) (g : Frame) : Prop := (n = 0 ∨ n ≤ f.depth) ∧ g = f.dropped n

/-- Some labels are used up. -/
def labelled (f : Frame) (n : Nat) : Frame := { f with label := f.label + n }

/-- A slot is taken. -/
def indexed (f : Frame) : Frame :=
  { f with index := f.index + 1, maxIndex := max f.maxIndex (f.index + 1) }

@[simp] theorem pushed_label (f : Frame) : f.pushed.label = f.label := rfl

@[simp] theorem pushed_index (f : Frame) : f.pushed.index = f.index := rfl

@[simp] theorem pushed_depth (f : Frame) : f.pushed.depth = f.depth + 1 := rfl

@[simp] theorem pushed_maxDepth (f : Frame) :
    f.pushed.maxDepth = max f.maxDepth (f.depth + 1) := rfl

variable {f g h : Frame} {n l : Nat} {u : Unit}

theorem Drops.depth (h : f.Drops n g) : g.depth = f.depth - n := by
  rw [h.2]
  rfl

theorem Drops.maxDepth (h : f.Drops n g) : g.maxDepth = f.maxDepth := by
  rw [h.2]
  rfl

/-- The highest depth of the operand stack only goes up, and it stays the highest. -/
structure Rises (f g : Frame) : Prop where
  maxDepth : f.maxDepth ≤ g.maxDepth
  depth : f.depth ≤ f.maxDepth → g.depth ≤ g.maxDepth

namespace Rises

theorem refl (f : Frame) : Rises f f := ⟨Int.le_refl _, id⟩

theorem trans {f g h : Frame} (fg : Rises f g) (gh : Rises g h) : Rises f h :=
  ⟨Int.le_trans fg.maxDepth gh.maxDepth, gh.depth ∘ fg.depth⟩

end Rises

/-- The two frames differ at most in the operand stack. -/
structure SameCounters (f g : Frame) : Prop extends Rises f g where
  label : g.label = f.label
  index : g.index = f.index
  maxIndex : g.maxIndex = f.maxIndex
  scopes : g.scopes = f.scopes
  loops : g.loops = f.loops

namespace SameCounters

theorem refl (f : Frame) : SameCounters f f := ⟨.refl f, rfl, rfl, rfl, rfl, rfl⟩

theorem trans {f g h : Frame} (fg : SameCounters f g) (gh : SameCounters g h) :
    SameCounters f h :=
  ⟨fg.toRises.trans gh.toRises, gh.label.trans fg.label, gh.index.trans fg.index,
    gh.maxIndex.trans fg.maxIndex, gh.scopes.trans fg.scopes, gh.loops.trans fg.loops⟩

end SameCounters

/-- The second frame is a later one in the same scope. -/
structure Advances (f g : Frame) : Prop extends Rises f g where
  label : f.label ≤ g.label
  index : f.index ≤ g.index
  maxIndex : f.maxIndex ≤ g.maxIndex
  scopes : g.scopes = f.scopes
  loops : g.loops = f.loops

namespace Advances

theorem refl (f : Frame) : Advances f f :=
  ⟨.refl f, Nat.le_refl _, Int.le_refl _, Int.le_refl _, rfl, rfl⟩

theorem trans {f g h : Frame} (fg : Advances f g) (gh : Advances g h) : Advances f h :=
  ⟨fg.toRises.trans gh.toRises, Nat.le_trans fg.label gh.label, Int.le_trans fg.index gh.index,
    Int.le_trans fg.maxIndex gh.maxIndex, gh.scopes.trans fg.scopes, gh.loops.trans fg.loops⟩

end Advances

theorem SameCounters.advances (h : SameCounters f g) : Advances f g :=
  ⟨h.toRises, Nat.le_of_eq h.label.symm, Int.le_of_eq h.index.symm, Int.le_of_eq h.maxIndex.symm,
    h.scopes, h.loops⟩

theorem advances_labelled (f : Frame) (n : Nat) : Advances f (f.labelled n) :=
  ⟨⟨Int.le_refl _, id⟩, Nat.le_add_right _ _, Int.le_refl _, Int.le_refl _, rfl, rfl⟩

theorem advances_indexed (f : Frame) : Advances f f.indexed :=
  ⟨⟨Int.le_refl _, id⟩, Nat.le_refl _, Int.le_add_one (Int.le_refl _), Int.le_max_left _ _, rfl,
    rfl⟩

theorem sameCounters_pushed (f : Frame) : SameCounters f f.pushed :=
  ⟨⟨Int.le_max_left _ _, fun _ => Int.le_max_right _ _⟩, rfl, rfl, rfl, rfl, rfl⟩

theorem Drops.sameCounters (h : f.Drops n g) : SameCounters f g := by
  have hdepth := h.depth
  have hmax := h.maxDepth
  obtain ⟨-, rfl⟩ := h
  exact ⟨⟨by omega, by omega⟩, rfl, rfl, rfl, rfl, rfl⟩

theorem Advances.ofPushed (h : Advances f.pushed g) : Advances f g :=
  f.sameCounters_pushed.advances.trans h

theorem Advances.pushed (h : Advances f g) : Advances f g.pushed :=
  h.trans g.sameCounters_pushed.advances

theorem Advances.drops (fg : Advances f g) (gh : g.Drops n h) :
    Advances f h := fg.trans gh.sameCounters.advances

@[simp] theorem yields_push : Yields push f u g ↔ g = f.pushed := by
  simp [push, pushed]

@[simp] theorem yields_pop : Yields pop f u g ↔ f.Drops 1 g := by
  simp only [pop, Drops, dropped]
  simp only [yields_bind, Act.yields_modify, Act.yields_get]
  constructor
  · rintro ⟨_, _, rfl, _, _, ⟨rfl, rfl⟩, h⟩
    split at h
    · exact absurd h Act.yields_throw
    · next hdepth =>
      obtain ⟨-, rfl⟩ := yields_pure.1 h
      exact ⟨Or.inr (by simp at hdepth ⊢; omega), rfl⟩
  · rintro ⟨hdepth, rfl⟩
    refine ⟨(), _, rfl, _, _, ⟨rfl, rfl⟩, ?_⟩
    have : ¬ f.depth - 1 < 0 := by
      rcases hdepth with h | h
      · cases h
      · simp at h; omega
    simp [this]

@[simp] theorem dropped_zero (f : Frame) : f.dropped 0 = f := by
  simp [dropped]

/-- Values are taken one after the other. -/
theorem drops_succ : f.Drops (n + 1) h ↔ ∃ g, f.Drops 1 g ∧ g.Drops n h := by
  simp only [Drops, dropped]
  constructor
  · rintro ⟨hd, rfl⟩
    refine ⟨_, ⟨Or.inr (by omega), rfl⟩, ?_, ?_⟩
    · simp only
      omega
    · simp
      omega
  · rintro ⟨_, ⟨hd, rfl⟩, hd', rfl⟩
    refine ⟨?_, ?_⟩
    · simp only at hd'
      omega
    · simp
      omega

@[simp] theorem drops_zero : f.Drops 0 g ↔ g = f := by
  simp [Drops]

theorem drops_two : f.Drops 2 h ↔ ∃ g, f.Drops 1 g ∧ g.Drops 1 h := drops_succ

theorem drops_three {k : Frame} : f.Drops 3 k ↔ ∃ g h, f.Drops 1 g ∧ g.Drops 1 h ∧ h.Drops 1 k := by
  rw [drops_succ]
  simp only [drops_two, exists_and_left]

@[simp] theorem yields_popMany {f g : Frame} {u : Unit} :
    ∀ {n : Nat}, Yields (popMany n) f u g ↔ f.Drops n g
  | 0 => by simp [popMany]
  | n + 1 => by
    rw [drops_succ]
    simp only [popMany, yields_bind, yields_pop, yields_popMany]
    constructor
    · rintro ⟨_, h, hs⟩
      exact ⟨h, hs⟩
    · rintro ⟨h, hs⟩
      exact ⟨(), h, hs⟩

@[simp] theorem yields_newLabel : Yields newLabel f l g ↔ l = f.label ∧ g = f.labelled 1 := by
  simp only [newLabel, yields_bind, Act.yields_get, Act.yields_set, yields_pure]
  constructor
  · rintro ⟨_, _, ⟨rfl, rfl⟩, _, _, rfl, rfl, rfl⟩
    exact ⟨rfl, rfl⟩
  · rintro ⟨rfl, rfl⟩
    exact ⟨f, f, ⟨rfl, rfl⟩, (), _, rfl, rfl, rfl⟩

@[simp] theorem yields_newIndex {i : Int} :
    Yields newIndex f i g ↔ i = f.index ∧ g = f.indexed := by
  simp only [newIndex, yields_bind, Act.yields_get, Act.yields_set, yields_pure]
  constructor
  · rintro ⟨_, _, ⟨rfl, rfl⟩, _, _, rfl, rfl, rfl⟩
    exact ⟨rfl, rfl⟩
  · rintro ⟨rfl, rfl⟩
    exact ⟨f, f, ⟨rfl, rfl⟩, (), _, rfl, rfl, rfl⟩

/-- The frame inside a new scope. -/
def entered (f : Frame) (whole : Bool) : Frame :=
  { f with
    label := f.label + 2
    scopes := ⟨f.label, f.label + 1, f.index⟩ :: f.scopes
    maxDepth := if whole then 0 else f.maxDepth
    maxIndex := if whole then 0 else f.maxIndex }

@[simp] theorem yields_enterScope {whole : Bool} :
    Yields (enterScope whole) f u g ↔ g = f.entered whole := by
  cases whole with
  | false => simp [enterScope, entered, labelled, and_assoc]
  | true => simp [enterScope, entered, labelled, and_assoc]

@[simp] theorem yields_exitScope :
    Yields exitScope f u g ↔
      ∃ s ss, f.scopes = s :: ss ∧ g = { f with scopes := ss, index := s.saved } := by
  simp only [exitScope, yields_bind, Act.yields_get]
  constructor
  · rintro ⟨_, _, ⟨rfl, rfl⟩, h⟩
    split at h
    · exact absurd h Act.yields_throw
    · next s ss hs => exact ⟨s, ss, hs, by simpa using h⟩
  · rintro ⟨s, ss, hs, rfl⟩
    exact ⟨f, f, ⟨rfl, rfl⟩, by simp [hs]⟩

@[simp] theorem yields_startLabel :
    Yields startLabel f l g ↔ ∃ s, f.scopes.head? = some s ∧ l = s.start ∧ g = f := by
  simp [startLabel, scope]
  grind

@[simp] theorem yields_endLabel :
    Yields endLabel f l g ↔ ∃ s, f.scopes.head? = some s ∧ l = s.stop ∧ g = f := by
  simp [endLabel, scope]
  grind

@[simp] theorem yields_continueLabel :
    Yields continueLabel f l g ↔ ∃ s, f.loops.head? = some s ∧ l = s.next ∧ g = f := by
  simp [continueLabel, loop]
  grind

end Frame

namespace Emit

/-! ## Variables, elements and fields -/

/-- The bank from which a variable is read.  A receiver named `this` is an object. -/
def bankFor? (name : String) (type : Node) : Option Bank :=
  if name = "this" then some .ref else type.bank?

variable {f g : Frame} {t : Node} {name m : String} {i : Int} {c : Code} {p : Piece}
  {ps : List Piece}

@[simp] theorem not_yields_illegal {α : Type} {s : Except Fault String} {a : α} :
    ¬ Yields (illegal s : Act Frame α) f a g := by
  simp [illegal]

@[simp] theorem yields_descriptor {d : String} :
    Yields (descriptor t) f d g ↔ t.descriptor = .ok d ∧ g = f := by
  simp [descriptor]

theorem yields_readVar :
    Yields (readVar name t i) f c g ↔
      ∃ b, bankFor? name t = some b ∧ c = one (.load b i) ∧ g = f.pushed := by
  simp only [readVar, readBank, bankFor?, yields_bind, Frame.yields_push]
  split
  · simp
    grind
  · cases t.bank? with
    | none => simp [illegalVar]
    | some b =>
      simp
      grind

theorem yields_writeVar :
    Yields (writeVar name t i) f c g ↔
      ∃ b, t.bank? = some b ∧ c = one (.store b i) ∧ f.Drops 1 g := by
  simp only [writeVar, writeBank, yields_bind, Frame.yields_pop, yields_pure]
  cases t.bank? with
  | none => simp [illegalVar]
  | some b =>
    simp
    grind

theorem yields_loadCell :
    Yields (loadCell t) f c g ↔ ∃ b h,
      t.bank? = some b ∧ c = one (.arrayLoad (cellOf b)) ∧ f.Drops 2 h ∧ g = h.pushed := by
  simp only [loadCell, yields_bind, Frame.yields_push, Frame.yields_pop, Frame.drops_two]
  cases t.bank? with
  | none => simp
  | some b =>
    simp
    grind

theorem yields_storeCell :
    Yields (storeCell t) f c g ↔
      ∃ b, t.bank? = some b ∧ c = one (.arrayStore (cellOf b)) ∧ f.Drops 3 g := by
  simp only [storeCell, yields_bind, Frame.yields_pop, Frame.drops_three]
  cases t.bank? with
  | none => simp
  | some b =>
    simp
    grind

theorem yields_varLine {slot first last : Operand} : Yields (varLine slot name t first last) f c g ↔
      ∃ d, t.descriptor = .ok d ∧ c = [.var slot name d first last] ∧ g = f := by
  simp [varLine]
  grind

theorem yields_fieldLine {isStatic isFinal : Bool} {v : Option String} :
    Yields (fieldLine name t isStatic isFinal v) f c g ↔
      ∃ d, t.descriptor = .ok d ∧ c = [.field isStatic isFinal name d v] ∧ g = f := by
  simp [fieldLine]
  grind

theorem yields_getStatic :
    Yields (getStatic m t) f c g ↔
      ∃ d, t.descriptor = .ok d ∧ c = one (.getStatic m d) ∧ g = f.pushed := by
  simp [getStatic]
  grind

theorem yields_putStatic :
    Yields (putStatic m t) f c g ↔
      ∃ d, t.descriptor = .ok d ∧ c = one (.putStatic m d) ∧ f.Drops 1 g := by
  simp [putStatic]
  grind

theorem yields_getField :
    Yields (getField m t) f c g ↔ ∃ d h,
      t.descriptor = .ok d ∧ c = one (.getField m d) ∧ f.Drops 1 h ∧ g = h.pushed := by
  simp [getField]
  grind

theorem yields_putField :
    Yields (putField m t) f c g ↔
      ∃ d, t.descriptor = .ok d ∧ c = one (.putField m d) ∧ f.Drops 2 g := by
  simp [putField, Frame.drops_two]
  grind

/-! ## Constants -/

@[simp] theorem yields_pushInteger :
    Yields (pushInteger i) f c g ↔ c = one (intConstant i) ∧ g = f.pushed := by
  simp [pushInteger, and_comm]

/-- The instruction for an integer that may be given as a text. -/
def intInstr? : Node → Option Instr
  | .int i => some (intConstant i)
  | .bool b => some (.iconstFlag b)
  | .text s =>
    if s = "true" then some (intConstant 1)
    else if s = "false" then some (intConstant 0)
    else (Numeral.readInt? s).map intConstant
  | _ => none

/-- The values that stand in a literal. -/
def isPlain : Node → Bool
  | .int _ | .bool _ | .text _ => true
  | _ => false

theorem yields_pushInt {v : Node} (hv : isPlain v) :
    Yields (pushInt v) f p g ↔ ∃ i, intInstr? v = some i ∧ p = some (one i) ∧ g = f.pushed := by
  cases v with
  | int i =>
    simp [pushInt, intInstr?]
    grind
  | bool b => simp [pushInt, intInstr?, and_comm]
  | text s =>
    simp only [pushInt, intInstr?]
    split
    · simp
      grind
    · split
      · simp
        grind
      · simp
        grind
  | _ => cases hv

theorem yields_pushFloat {s : String} :
    Yields (pushFloat (.text s)) f c g ↔
      (Numeral.readFloat? s).isSome ∧ c = one (.ldc (.float s)) ∧ g = f.pushed := by
  simp [pushFloat, Option.isSome_iff_exists]
  grind

theorem yields_pushNull : Yields pushNull f c g ↔ c = one .pushNull ∧ g = f.pushed := by
  simp [pushNull, and_comm]

/-! ## Calls -/

/-- The frame after a function with that result has been called. -/
def resultFrame (f : Frame) (result : Node) : Frame := if result.isVoid then f else f.pushed

theorem yields_pushResult {result : Node} {u : Unit} :
    Yields (pushResult result) f u g ↔ g = resultFrame f result := by
  unfold pushResult resultFrame
  split <;> simp

theorem sameCounters_resultFrame (f : Frame) (result : Node) :
    f.SameCounters (resultFrame f result) := by
  unfold resultFrame
  split
  · exact .refl f
  · exact f.sameCounters_pushed

theorem yields_invokeStatic :
    Yields (invokeStatic m t) f c g ↔ ∃ ps r d h, t.funcParts? = some (ps, r) ∧
      t.descriptor = .ok d ∧ c = one (.invokeStatic m d) ∧ f.Drops ps.length h ∧
      g = resultFrame h r := by
  simp [invokeStatic, funcParts, yields_pushResult]
  grind

theorem descriptor_procedure : (Node.funcType [] .voidType).descriptor = .ok "()V" := rfl

theorem yields_invokeSpecial :
    Yields (invokeSpecial m (.funcType [] .voidType)) f c g ↔
      c = one (.invokeSpecial m "()V") ∧ f.Drops 1 g := by
  simp only [invokeSpecial, callOnObject, funcParts, Node.funcParts?, yields_bind,
    Act.yields_ofOption, Frame.yields_popMany, Frame.yields_pop, yields_pushResult,
    yields_descriptor, descriptor_procedure, yields_pure]
  constructor
  · rintro ⟨_, g₁, ⟨_, _, ⟨h, rfl⟩, _, g₂, h₂, _, g₃, h₃, rfl⟩, _, _, ⟨h', rfl⟩, rfl, rfl⟩
    cases h
    cases h'
    obtain rfl := Frame.drops_zero.1 h₂
    exact ⟨rfl, h₃⟩
  · rintro ⟨rfl, hd⟩
    exact ⟨(), g, ⟨_, f, ⟨rfl, rfl⟩, (), f, Frame.drops_zero.2 rfl, (), g, hd, rfl⟩, _, g,
      ⟨rfl, rfl⟩, rfl, rfl⟩

/-! ## Operators -/

@[simp] theorem yields_binary {i : Instr} :
    Yields (binary i) f c g ↔ c = one i ∧ ∃ h, f.Drops 2 h ∧ g = h.pushed := by
  simp [binary, Frame.drops_two]
  grind

/-- The instruction of an operator of arithmetic on operands of a type. -/
def arithmeticInstr (op : String) (type : Node) : Instr :=
  if op = "%" then .irem
  else if op = "+" then
    match type with
    | .intType => .iadd
    | .floatType => .fadd
    | _ => .invokeVirtual "java/lang/String/concat" "(Ljava/lang/String;)Ljava/lang/String;"
  else if op = "-" then
    match type with
    | .intType => .isub
    | _ => .fsub
  else if op = "*" then
    match type with
    | .intType => .imul
    | _ => .fmul
  else
    match type with
    | .intType => .idiv
    | _ => .fdiv

/-- Every operator of arithmetic takes two values and pushes one. -/
theorem arithmetic_eq_binary (op : String) (type : Node) :
    (if op = "%" then remainder else if op = "+" ∨ op = "-" then add op type
      else multiply op type) = binary (arithmeticInstr op type) := by
  unfold arithmeticInstr remainder add multiply
  by_cases hrem : op = "%"
  · simp [hrem]
  · by_cases hadd : op = "+"
    · subst hadd
      cases type <;> simp
    · by_cases hsub : op = "-"
      · subst hsub
        cases type <;> simp
      · by_cases hmul : op = "*"
        · subst hmul
          cases type <;> simp
        · cases type <;> simp [hrem, hadd, hsub, hmul]

theorem yields_intToFloat :
    Yields intToFloat f c g ↔ c = one .i2f ∧ ∃ h, f.Drops 1 h ∧ g = h.pushed := by
  simp [intToFloat]
  grind

theorem yields_ifFalse {l : Operand} :
    Yields (ifFalse l) f c g ↔ c = one (.ifZero .le l) ∧ f.Drops 1 g := by
  simp [ifFalse, and_comm]

/-- The two outcomes of a comparison: true, unless it jumped to the first label. -/
def outcomes (lf lo : Nat) : Code :=
  one (.iconst 1) ++ jump (.ofNat lo) ++ label (.ofNat lf) ++ one (.iconst 0) ++
    label (.ofNat lo)

theorem yields_finish {lf lo : Nat} {test : Code} :
    Yields (compare.finish (.ofNat lf) (.ofNat lo) test) f c g ↔
      c = test ++ outcomes lf lo ∧ g = f.pushed.pushed := by
  have one_read : Numeral.readInt? "1" = some 1 := rfl
  have zero_read : Numeral.readInt? "0" = some 0 := rfl
  simp [compare.finish, choose, pushConst, pushInt, one_read, zero_read, intConstant, join,
    outcomes]
  grind

/-- The code of a comparison after that of its operands, by the type of the first. -/
inductive Compares (op : String) (l : Nat) : Node → Frame → Code → Frame → Prop where
  | ints {f g : Frame} : f.Drops 2 g →
      Compares op l .intType f (failJump .ifInts op (.ofNat l) ++ outcomes l (l + 1))
        g.pushed.pushed
  | floats {f g h : Frame} : f.Drops 2 g → g.pushed.Drops 1 h →
      Compares op l .floatType f
        (one .fcmpl ++ failJump .ifZero op (.ofNat l) ++ outcomes l (l + 1)) h.pushed.pushed
  | texts {f : Frame} : ordersTexts op →
      Compares op l .stringType f
        (compareTexts ++ failJump .ifZero op (.ofNat l) ++ outcomes l (l + 1)) f.pushed.pushed
  | other {t : Node} {f : Frame} : t ≠ .intType → t ≠ .floatType → Compares op l t f [] f

theorem Compares.sameCounters {op : String} {l : Nat} (h : Compares op l t f c g) :
    f.SameCounters g := by
  have twice (k : Frame) : k.SameCounters k.pushed.pushed :=
    k.sameCounters_pushed.trans k.pushed.sameCounters_pushed
  cases h with
  | ints h => exact h.sameCounters.trans (twice _)
  | floats h h' =>
    exact ((h.sameCounters.trans (Frame.sameCounters_pushed _)).trans h'.sameCounters).trans
      (twice _)
  | texts => exact twice f
  | other => exact .refl f

theorem Compares.of_yields {op : String} (h : Yields (compare op t) f c g) :
    Compares op f.label t (f.labelled 2) c g := by
  simp only [compare, yields_bind, Frame.yields_newLabel] at h
  obtain ⟨_, _, ⟨rfl, rfl⟩, _, _, ⟨rfl, rfl⟩, h⟩ := h
  have labels : (f.labelled 1).labelled 1 = f.labelled 2 := rfl
  rw [labels] at h
  cases t with
  | intType =>
    simp only [yields_bind, Frame.yields_pop] at h
    obtain ⟨_, g₁, h₁, _, g₂, h₂, h⟩ := h
    obtain ⟨rfl, rfl⟩ := yields_finish.1 h
    exact .ints (Frame.drops_two.2 ⟨g₁, h₁, h₂⟩)
  | floatType =>
    simp only [yields_bind, Frame.yields_pop, Frame.yields_push] at h
    obtain ⟨_, g₁, h₁, _, g₂, h₂, _, _, rfl, _, g₃, h₃, h⟩ := h
    obtain ⟨rfl, rfl⟩ := yields_finish.1 h
    exact .floats (Frame.drops_two.2 ⟨g₁, h₁, h₂⟩) h₃
  | stringType =>
    simp only at h
    split at h
    · exact absurd h Act.yields_throw
    · split at h
      · next hop =>
        obtain ⟨rfl, rfl⟩ := yields_finish.1 h
        exact .texts hop
      · obtain ⟨rfl, rfl⟩ := yields_pure.1 h
        exact .other (by simp) (by simp)
  | _ =>
    obtain ⟨rfl, rfl⟩ := yields_pure.1 h
    exact .other (by simp) (by simp)

/-! ## Objects, arrays and methods -/

/-- The instruction that makes an array of elements of a type. -/
def arrayInstr? : Node → Option Instr
  | .intType => some (.newArray "int")
  | .floatType => some (.newArray "float")
  | .boolType => some (.newArray "boolean")
  | .stringType => some (.newRefArray "Ljava/lang/String;")
  | .structType n _ _ _ => some (.newRefArray ("L" ++ n ++ ";"))
  | .interfaceType n _ => some (.newRefArray ("L" ++ n ++ ";"))
  | _ => none

theorem yields_newArray :
    Yields (newArray t) f c g ↔
      ∃ i h, arrayInstr? t = some i ∧ c = one i ∧ f.Drops 1 h ∧ g = h.pushed := by
  cases t <;> simp [newArray, arrayInstr?, Node.descriptor] <;> grind

@[simp] theorem not_yields_newMultiArray {α : Type} {a : α} :
    ¬ Yields (newMultiArray t : Act Frame α) f a g := by
  simp [newMultiArray]

theorem yields_newObject {t : String} :
    Yields (newObject t) f c g ↔ c = one (.newObject t) ∧ g = f.pushed := by
  simp [newObject, and_comm]

theorem yields_dup : Yields dup f c g ↔ c = one .dup ∧ g = f.pushed := by
  simp [dup, and_comm]

/-- What is printed to leave a method, if there is code for the type. -/
def retPiece : Node → Piece
  | .intType | .boolType => some (one (.retValue .int))
  | .floatType => some (one (.retValue .float))
  | .stringType => some (one (.retValue .ref))
  | .voidType => some (one .ret)
  | _ => none

/-- How many values leaving a method takes. -/
def retCount : Node → Nat
  | .intType | .boolType | .floatType | .stringType => 1
  | _ => 0

theorem yields_ret : Yields (ret t) f p g ↔ p = retPiece t ∧ f.Drops (retCount t) g := by
  cases t <;> simp [ret, retPiece, retCount, and_comm]

theorem yields_method {isStatic : Bool} :
    Yields (method name t isStatic) f c g ↔
      ∃ d, t.descriptor = .ok d ∧ c = [.method isStatic name d] ∧ g = f := by
  simp [method]
  grind

theorem yields_endMethod :
    Yields endMethod f c g ↔ c = [.limitStack (.number f.maxDepth),
      .limitLocals (.number f.maxIndex), .endMethod] ∧ g = f := by
  simp [endMethod]
  grind

/-- A list of pieces that are all there. -/
theorem mapM_id_eq_some {cs : List Code} : ps.mapM id = some cs ↔ ps = cs.map some := by
  induction ps generalizing cs with
  | nil =>
    cases cs with
    | nil => simp
    | cons d ds => simp
  | cons p ps ih =>
    rw [List.mapM_cons]
    cases p with
    | none => cases cs <;> simp
    | some d =>
      cases hps : ps.mapM id with
      | none =>
        cases cs with
        | nil => simp
        | cons e es =>
          have : ps ≠ es.map some := by
            intro h
            rw [ih.2 h] at hps
            cases hps
          simp [this]
      | some ds =>
        obtain rfl := ih.1 hps
        cases cs with
        | nil => simp
        | cons e es =>
          have : ds.map some = es.map some ↔ ds = es :=
            List.map_inj_right fun _ _ h => Option.some.inj h
          simp [this]

/-- Joining pieces finds all of them there. -/
theorem join_eq_ok : join ps = .ok c ↔ ∃ cs : List Code, ps = cs.map some ∧ c = cs.flatten := by
  unfold join
  cases h : ps.mapM id with
  | none =>
    simp only [reduceCtorEq, false_iff]
    rintro ⟨cs, hcs, -⟩
    rw [mapM_id_eq_some.2 hcs] at h
    cases h
  | some cs =>
    constructor
    · intro h'
      cases h'
      exact ⟨cs, mapM_id_eq_some.1 h, rfl⟩
    · rintro ⟨ds, hds, rfl⟩
      rw [mapM_id_eq_some.2 hds] at h
      cases h
      rfl

@[simp] theorem join_nil : join [] = .ok [] := rfl

theorem join_append {qs : List Piece} :
    join (ps ++ qs) = .ok c ↔ ∃ a b, join ps = .ok a ∧ join qs = .ok b ∧ c = a ++ b := by
  simp only [join_eq_ok]
  constructor
  · rintro ⟨cs, hcs, rfl⟩
    obtain ⟨as, bs, rfl, rfl, rfl⟩ := List.append_eq_map_iff.1 hcs
    exact ⟨_, _, ⟨as, rfl, rfl⟩, ⟨bs, rfl, rfl⟩, List.flatten_append⟩
  · rintro ⟨_, _, ⟨as, rfl, rfl⟩, ⟨bs, rfl, rfl⟩, rfl⟩
    exact ⟨as ++ bs, by simp, by simp⟩

theorem join_cons : join (p :: ps) = .ok c ↔ ∃ a b, p = some a ∧ join ps = .ok b ∧ c = a ++ b := by
  simp only [join_eq_ok]
  constructor
  · rintro ⟨cs, hcs, rfl⟩
    obtain ⟨a, as, rfl, rfl, rfl⟩ := List.map_eq_cons_iff.1 hcs.symm
    exact ⟨a, _, rfl, ⟨as, rfl, rfl⟩, rfl⟩
  · rintro ⟨a, _, rfl, ⟨as, rfl, rfl⟩, rfl⟩
    exact ⟨a :: as, rfl, rfl⟩

theorem exists_join (h : none ∉ ps) : ∃ c, join ps = .ok c := by
  induction ps with
  | nil => exact ⟨[], rfl⟩
  | cons p ps ih =>
    rw [List.mem_cons, not_or] at h
    obtain ⟨a, rfl⟩ := Option.ne_none_iff_exists'.1 (Ne.symm h.1)
    obtain ⟨b, hb⟩ := ih h.2
    exact ⟨a ++ b, join_cons.2 ⟨a, b, rfl, hb, rfl⟩⟩

theorem join_singleton : join [p] = .ok c ↔ p = some c := by
  simp [join_cons]

end Emit

end MiniGoc
