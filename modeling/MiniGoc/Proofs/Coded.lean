import MiniGoc.Proofs.Emit
import MiniGoc.Proofs.Source
import MiniGoc.Listing.Expr

/-!
# The code of an expression

`Coded env (.expr e) f c t g` says that in the environment `env` the expression `e` has
the code `c` and the type `t`, and that counting its code takes the frame `f` to `g`.
There is one rule for each form of expression that has code; unary operators and calls
of methods have none.  The rules also cover what an expression is made of (`Fragment`):
arguments, the indices of a cell, the elements of an array and those of a struct.

The main result is `exprCoded`: where the generator yields code for an expression as it
is written, the code is there, nothing is printed, and the rules derive it.  All later
proofs about expressions are inductions on these derivations, and do not look at the
generator again.
-/

namespace MiniGoc

open Act (Yields yields_bind yields_pure)
open Emit

/-! ## The parts of the rules that do not depend on the frame -/

def arithmeticOperators : List String := ["+", "-", "*", "/", "%"]

def relationalOperators : List String := ["==", "!=", "<", "<=", ">", ">="]

theorem not_mem_relational {op : String} (h : op ∈ arithmeticOperators) :
    op ∉ relationalOperators := by
  revert op
  decide

/-- The type of an element of a struct. -/
def fieldType? (name : String) : List Node → Option Node
  | .pair n t :: es => if n = name then some t else fieldType? name es
  | _ => none

/-- How the operands of an operator of arithmetic go together. -/
inductive Mixture where
  | ints
  | texts
  | floats
  /-- An integer before a floating point number. -/
  | intFloat
  /-- A floating point number before an integer. -/
  | floatInt
  | apart
deriving DecidableEq, Repr

namespace Mixture

/-- The mixture of two types under an operator. -/
def of (op : String) : Node → Node → Mixture
  | .intType, .intType => ints
  | .stringType, .stringType => if op = "+" then texts else apart
  | .intType, .floatType => intFloat
  | .floatType, .intType => floatInt
  | .floatType, _ => floats
  | _, .floatType => floats
  | _, _ => apart

/-- The type of the result.  There is none for floating point numbers. -/
def type : Mixture → Node
  | ints => .intType
  | texts => .stringType
  | _ => .none

/-- The operands in code.  Operands that do not go together are left out. -/
def operands (c d : Code) : Mixture → Code
  | ints | texts | floats => c ++ d
  | intFloat => c ++ one .i2f ++ d
  | floatInt => c ++ d ++ one .i2f
  | apart => []

/-- The frame after an integer has been turned into a floating point number, if one is. -/
def Widens (m : Mixture) (f g : Frame) : Prop :=
  match m with
  | intFloat | floatInt => ∃ h, f.Drops 1 h ∧ g = h.pushed
  | _ => g = f

end Mixture

/-- The environments of programs as they are written: every name is kept somewhere, none
stands for a method of an object, and every type is known. -/
structure Regular (env : List Symbol) : Prop where
  placed : ∀ s ∈ env, s.home ≠ .unknown
  noMethod : ∀ s ∈ env, ∀ owner, s.home ≠ .member owner false
  known : ∀ s ∈ env, s.type.isKnownType

theorem Regular.nil : Regular [] := ⟨by simp, by simp, by simp⟩

theorem Regular.append {env env' : List Symbol} (h : Regular env) (h' : Regular env') :
    Regular (env ++ env') where
  placed s hs := (List.mem_append.1 hs).elim (h.placed s) (h'.placed s)
  noMethod s hs := (List.mem_append.1 hs).elim (h.noMethod s) (h'.noMethod s)
  known s hs := (List.mem_append.1 hs).elim (h.known s) (h'.known s)

theorem Symbol.mem_of_find? {n : String} {env : List Symbol} {s : Symbol}
    (h : Symbol.find? n env = some s) : s ∈ env := List.mem_of_find?_eq_some h

theorem Symbol.name_of_find? {n : String} {env : List Symbol} {s : Symbol}
    (h : Symbol.find? n env = some s) : s.name = n := by
  have := List.find?_some h
  simpa using this

theorem Symbol.find?_append (x : String) (env env' : List Symbol) :
    Symbol.find? x (env ++ env') = (Symbol.find? x env).or (Symbol.find? x env') :=
  List.find?_append

theorem Symbol.find?_eq_none {x : String} {env : List Symbol} :
    Symbol.find? x env = none ↔ ∀ s ∈ env, s.name ≠ x := by
  simp [Symbol.find?]

/-! ## Names and types -/

/-- The code and the type of a name that has a value. -/
inductive Reads (env : List Symbol) (n : String) (f : Frame) : Code → Node → Frame → Prop where
  | slot {s i b} : Symbol.find? n env = some s → s.home = .slot i →
      bankFor? n s.type = some b → Reads env n f (one (.load b i)) s.type f.pushed
  | static {s x d} : Symbol.find? n env = some s → s.home = .member mainClass x →
      s.type.descriptor = .ok d →
      Reads env n f (one (.getStatic (mainClass ++ "/" ++ n) d)) s.type f.pushed

/-- The type that a node in the place of a type stands for. -/
inductive TypeOf (env : List Symbol) : Node → Frame → Node → Frame → Prop where
  /-- A type that is no name stands for itself. -/
  | type {t f} : t.isTypeTree → t.name? = none → TypeOf env t f t f
  /-- A name with a value comes to its code and its type. -/
  | value {n f c t g} : Reads env n f c t g →
      TypeOf env (.id n) f (Visited.value (some c) t).node g
  /-- A name without one comes to nothing. -/
  | nothing {n f} : TypeOf env (.id n) f .none f

/-! ## The rules -/

/-- What the code of an expression is made of. -/
inductive Fragment where
  | expr (e : Node)
  /-- The arguments of a call. -/
  | args (es : List Node)
  /-- The indices that lead from an array of a type to an element. -/
  | cells (type : Node) (is : List Node)
  /-- The elements of an array in a slot, from a position on. -/
  | elems (type element : Node) (slot : Int) (i : Nat) (es : List Node)
  /-- The elements of a struct in a slot. -/
  | fields (type : Node) (owner : String) (slot : Int) (es : List Node)

/-- The code and the type of a part, and the frame before and after it.  Parts other than
expressions and cells have no type. -/
inductive Coded (env : List Symbol) : Fragment → Frame → Code → Node → Frame → Prop where
  | name {n f c t g} : Reads env n f c t g → Coded env (.expr (.id n)) f c t g
  | cell {a is f c t g d u h} : Coded env (.expr a) f c t g → Coded env (.cells t is) g d u h →
      Coded env (.expr (.cell a is)) f (c ++ d) u h
  | field {r n f c rt g es ft t h owner d k} : Coded env (.expr r) f c rt g →
      rt.elements? = some es → fieldType? n es = some ft → TypeOf env ft g t h →
      rt.typeName = .ok owner → t.descriptor = .ok d → h.Drops 1 k →
      Coded env (.expr (.field r n)) f (c ++ one (.getField (owner ++ "/" ++ n) d)) t k.pushed
  | arithmetic {op l r f c lt g d rt h x k m} : op ∈ arithmeticOperators →
      Coded env (.expr l) f c lt g → Coded env (.expr r) g d rt h → x = Mixture.of op lt rt →
      x.Widens h k → k.Drops 2 m →
      Coded env (.expr (.binary op l r)) f (x.operands c d ++ one (arithmeticInstr op x.type))
        x.type m.pushed
  | comparison {op l r f c lt g d rt h code k} : op ∈ relationalOperators →
      Coded env (.expr l) f c lt g → Coded env (.expr r) g d rt h →
      Compares op h.label lt (h.labelled 2) code k →
      Coded env (.expr (.binary op l r)) f (c ++ d ++ code) .boolType k
  | both {l r f c lt g d rt h k} : Coded env (.expr l) f c lt g → Coded env (.expr r) g d rt h →
      h.Drops 2 k →
      Coded env (.expr (.binary "&&" l r)) f (c ++ d ++ one .iand) .boolType k.pushed
  | either {l r f c lt g d rt h k} : Coded env (.expr l) f c lt g →
      Coded env (.expr r) g d rt h → h.Drops 2 k →
      Coded env (.expr (.binary "||" l r)) f (c ++ d ++ one .ior) .boolType k.pushed
  | call {n as s f c g owner ps r d h} : Symbol.find? n env = some s →
      Coded env (.args as) f c .none g → s.home.word? = some owner →
      s.type.funcParts? = some (ps, r) → s.type.descriptor = .ok d → g.Drops ps.length h →
      Coded env (.expr (.call n as)) f (c ++ one (.invokeStatic (owner ++ "/" ++ n) d)) r
        (resultFrame h r)
  | number {v i f} : intInstr? v = some i →
      Coded env (.expr (.intLit v)) f (one i) .intType f.pushed
  | decimal {v s f} : v.render = .ok s → (Numeral.readFloat? s).isSome →
      Coded env (.expr (.floatLit v)) f (one (.ldc (.float s))) .floatType f.pushed
  | text {v i f} : intInstr? v = some i →
      Coded env (.expr (.stringLit v)) f (one i) .stringType f.pushed
  | truth {v s i f} : v.render = .ok s → intInstr? (.text s) = some i →
      Coded env (.expr (.boolLit v)) f (one i) .boolType f.pushed
  | nil {f} : Coded env (.expr .nilLit) f (one .pushNull) .none f.pushed
  | array {d e f c g i h} : Coded env (.args [d]) f c .none g → arrayInstr? e = some i →
      g.Drops 1 h →
      Coded env (.expr (.arrayLit [d] e (.list []))) f (c ++ one i) (.arrayType [d] e) h.pushed
  | arrayOf {d e el es f c g i h k d' m} : Coded env (.args [d]) f c .none g →
      arrayInstr? e = some i → g.Drops 1 h → h.pushed.indexed.Drops 1 k →
      Coded env (.elems (.arrayType [d] e) e h.index 0 (el :: es)) k d' .none m →
      Coded env (.expr (.arrayLit [d] e (.list (el :: es)))) f
        (c ++ one i ++ one (.store .ref h.index) ++ d' ++ one (.load .ref h.index))
        (.arrayType [d] e) m.pushed
  | struct {n s owner f g} : Symbol.find? n env = some s → s.type.descriptor = .ok owner →
      f.pushed.pushed.Drops 1 g →
      Coded env (.expr (.structLit n [])) f
        (one (.newObject owner) ++ one .dup ++ one (.invokeSpecial (owner ++ "/<init>") "()V"))
        s.type g
  | structOf {n s owner el es b f g k d m} : Symbol.find? n env = some s →
      s.type.descriptor = .ok owner → f.pushed.pushed.Drops 1 g → s.type.bank? = some b →
      g.indexed.Drops 1 k → Coded env (.fields s.type owner g.index (el :: es)) k d .none m →
      Coded env (.expr (.structLit n (el :: es))) f
        (one (.newObject owner) ++ one .dup ++ one (.invokeSpecial (owner ++ "/<init>") "()V") ++
          one (.store b g.index) ++ d ++ one (.load b g.index))
        s.type m.pushed
  | noArgs {f} : Coded env (.args []) f [] .none f
  | arg {e es f c t g d h} : Coded env (.expr e) f c t g → Coded env (.args es) g d .none h →
      Coded env (.args (e :: es)) f (c ++ d) .none h
  | noCells {t f} : Coded env (.cells t []) f [] t f
  | index {t i is f c u g e b h d v k} : Coded env (.expr i) f c u g → t.element? = some e →
      e.bank? = some b → g.Drops 2 h → Coded env (.cells e is) h.pushed d v k →
      Coded env (.cells t (i :: is)) f (c ++ one (.arrayLoad (cellOf b)) ++ d) v k
  | noElems {t e slot i f} : Coded env (.elems t e slot i []) f [] .none f
  | elem {t e slot i el es f b c u g b' h d k} : bankFor? "temp_arr" t = some b →
      Coded env (.expr el) f.pushed.pushed c u g → e.bank? = some b' → g.Drops 3 h →
      Coded env (.elems t e slot (i + 1) es) h d .none k →
      Coded env (.elems t e slot i (el :: es)) f
        (one (.load b slot) ++ one (intConstant i) ++ c ++ one (.arrayStore (cellOf b')) ++ d)
        .none k
  | noFields {t owner slot f} : Coded env (.fields t owner slot []) f [] .none f
  | fieldOf {t owner slot n el es f b c u g ts ft d h d' k} : bankFor? "temp_obj" t = some b →
      Coded env (.expr el) f.pushed c u g → t.elements? = some ts → fieldType? n ts = some ft →
      ft.descriptor = .ok d → g.Drops 2 h → Coded env (.fields t owner slot es) h d' .none k →
      Coded env (.fields t owner slot (.pair n el :: es)) f
        (one (.load b slot) ++ c ++ one (.putField (owner ++ "/" ++ n) d) ++ d') .none k

/-! ## What the rules do to the counters -/

variable {n op : String} {c : Code} {t r : Node} {w v : Workspace} {p : Piece}

theorem Reads.sameCounters {env : List Symbol} {f g : Frame} (h : Reads env n f c t g) :
    f.SameCounters g := by
  cases h <;> exact f.sameCounters_pushed

theorem TypeOf.sameCounters {env : List Symbol} {t u : Node} {f g : Frame}
    (h : TypeOf env t f u g) : f.SameCounters g := by
  cases h with
  | type => exact .refl f
  | value h => exact h.sameCounters
  | nothing => exact .refl f

theorem Mixture.Widens.sameCounters {x : Mixture} {f g : Frame} (h : x.Widens f g) :
    f.SameCounters g := by
  cases x with
  | intFloat | floatInt =>
    obtain ⟨k, hk, rfl⟩ := h
    exact hk.sameCounters.trans k.sameCounters_pushed
  | _ =>
    cases h
    exact .refl _

/-- The counters only go up, and the open scopes and loops stay. -/
theorem Coded.advances {env : List Symbol} {part : Fragment} {f g : Frame} {c : Code} {t : Node}
    (h : Coded env part f c t g) : f.Advances g := by
  induction h with
  | name h => exact h.sameCounters.advances
  | cell _ _ iha ihis => exact iha.trans ihis
  | field _ _ _ ht _ _ hd ihr => exact ((ihr.trans ht.sameCounters.advances).drops hd).pushed
  | arithmetic _ _ _ _ hw hd ihl ihr =>
    exact (((ihl.trans ihr).trans hw.sameCounters.advances).drops hd).pushed
  | comparison _ _ _ hc ihl ihr =>
    exact ((ihl.trans ihr).trans (Frame.advances_labelled _ 2)).trans hc.sameCounters.advances
  | both _ _ hd ihl ihr | either _ _ hd ihl ihr => exact ((ihl.trans ihr).drops hd).pushed
  | call _ _ _ _ _ hd ih =>
    exact (ih.drops hd).trans (sameCounters_resultFrame _ _).advances
  | number | decimal | text | truth | nil => exact (Frame.Advances.refl _).pushed
  | array _ _ hd ih => exact (ih.drops hd).pushed
  | arrayOf _ _ hd hd' _ ih ih' =>
    exact ((((ih.drops hd).pushed.trans (Frame.advances_indexed _)).drops hd').trans ih').pushed
  | struct _ _ hd => exact (Frame.Advances.refl _).pushed.pushed.drops hd
  | structOf _ _ hd _ hd' _ ih =>
    exact ((((((Frame.Advances.refl _).pushed.pushed.drops hd).trans
      (Frame.advances_indexed _)).drops hd').trans ih)).pushed
  | noArgs | noCells | noElems | noFields => exact .refl _
  | arg _ _ ih ih' => exact ih.trans ih'
  | index _ _ _ hd _ ih ih' => exact (ih.drops hd).pushed.trans ih'
  | elem _ _ _ hd _ ih ih' => exact (ih.ofPushed.ofPushed.drops hd).trans ih'
  | fieldOf _ _ _ _ _ hd _ ih ih' => exact (ih.ofPushed.drops hd).trans ih'

/-! ## From the generator to the rules -/

section Generator

variable {ctx : Context}

/-- Pieces that are all there are joined. -/
@[simp] theorem Emit.join_map_some (cs : List Code) : Emit.join (cs.map some) = .ok cs.flatten :=
  Emit.join_eq_ok.2 ⟨cs, rfl, rfl⟩

theorem Emit.eq_of_join {ps : List Piece} (cs : List Code) (h : Emit.join ps = .ok c)
    (hps : ps = cs.map some) : c = cs.flatten := by
  rw [hps, join_map_some] at h
  exact (Except.ok.inj h).symm

theorem Gen.yields_elementOf {n : String} {w v : Workspace} {t : Node} :
    ∀ {es : List Node},
      Yields (Gen.elementOf n es) w t v ↔ fieldType? n es = some t ∧ v = w
  | [] => by simp [Gen.elementOf, fieldType?]
  | e :: es => by
    cases e with
    | pair m u =>
      simp only [Gen.elementOf, fieldType?]
      split
      · simp [eq_comm]
      · exact Gen.yields_elementOf
    | _ => simp [Gen.elementOf, fieldType?]

/-- A name is read from its slot or its field, or it has no value. -/
theorem Reads.of_yields {r : Option (Piece × Node)} (hctx : ctx.missing = [])
    (h : Yields (Gen.readId ctx n) w r v) :
    (∃ c t f, Reads ctx.scopes.flatten n w.frame c t f ∧ r = some (some c, t) ∧
      v = w.extend f []) ∨ (r = none ∧ v = w) := by
  simp only [Gen.readId, yields_bind, Context.yields_needMethod hctx,
    Context.yields_find hctx] at h
  obtain ⟨_, _, rfl, s, _, ⟨hs, rfl⟩, h⟩ := h
  cases hhome : s.home with
  | slot i =>
    simp only [hhome, yields_bind, Gen.yields_onFrame, yields_readVar,
      yields_pure] at h
    obtain ⟨_, _, ⟨_, ⟨b, hb, rfl, rfl⟩, rfl⟩, rfl, rfl⟩ := h
    exact .inl ⟨_, _, _, .slot hs hhome hb, rfl, rfl⟩
  | member owner x =>
    simp only [hhome] at h
    split at h
    · next howner =>
      subst howner
      simp only [yields_bind, Gen.yields_onFrame, yields_getStatic, yields_pure] at h
      obtain ⟨_, _, ⟨_, ⟨d, hd, rfl, rfl⟩, rfl⟩, rfl, rfl⟩ := h
      exact .inl ⟨_, _, _, .static hs hhome hd, rfl, rfl⟩
    · exact .inr (yields_pure.1 h)
  | unknown =>
    simp only [hhome] at h
    exact .inr (yields_pure.1 h)

theorem Reads.isKnownType {env : List Symbol} {n : String} {f g : Frame} {c : Code} {t : Node}
    (henv : Regular env) (h : Reads env n f c t g) : t.isKnownType := by
  cases h with
  | slot hs _ _ => exact henv.known _ (Symbol.mem_of_find? hs)
  | static hs _ _ => exact henv.known _ (Symbol.mem_of_find? hs)

variable {other : Visitor}

/-- A type as it is written comes to a known type, and nothing is printed. -/
theorem TypeOf.of_yields {t u : Node} {w v : Workspace} (hctx : ctx.missing = [])
    (ht : t.isTypeTree) (h : Yields (Gen.typeOf other ctx t) w u v) :
    ∃ f, v = w.extend f [] ∧ TypeOf ctx.scopes.flatten t w.frame u f ∧ u.isKnownType := by
  cases t with
  | intType | floatType | boolType | stringType | voidType =>
    obtain ⟨rfl, rfl⟩ := yields_pure.1 h
    exact ⟨v.frame, by simp, .type rfl rfl, rfl⟩
  | arrayType ds e =>
    obtain ⟨rfl, rfl⟩ := yields_pure.1 h
    exact ⟨v.frame, by simp, .type ht rfl, ht⟩
  | id n =>
    simp only [Gen.typeOf, yields_bind] at h
    obtain ⟨r, v', hr, h⟩ := h
    rcases Reads.of_yields hctx hr with ⟨c, t, f, hreads, rfl, rfl⟩ | ⟨rfl, rfl⟩
    · obtain ⟨rfl, rfl⟩ := yields_pure.1 h
      exact ⟨f, rfl, .value hreads, rfl⟩
    · obtain ⟨rfl, rfl⟩ := yields_pure.1 h
      exact ⟨v.frame, by simp, .nothing, rfl⟩
  | _ => cases ht

/-! ### Operators -/

theorem Node.isFloat_iff : t.isFloat ↔ t = .floatType := by
  cases t <;> simp [Node.isFloat]

/-- The code of an operator of arithmetic from the code of its operands. -/
theorem Gen.arithmetic_yields {lt rt : Node} {d : Code}
    (h : Yields (Gen.arithmetic op (some c, lt) (some d, rt)) w (p, t) v) :
    ∃ x k m, x = Mixture.of op lt rt ∧ x.Widens w.frame k ∧ k.Drops 2 m ∧
      p = some (x.operands c d ++ one (arithmeticInstr op x.type)) ∧ t = x.type ∧
      v = w.extend m.pushed [] := by
  unfold Gen.arithmetic at h
  simp only [yields_bind, arithmetic_eq_binary] at h
  obtain ⟨⟨os, u⟩, w₁, hos, h⟩ := h
  -- The operands and the type of the result come first; the operator is the same for all.
  have operands : ∃ (x : Mixture) (cs : List Code) (k : Frame), x = Mixture.of op lt rt ∧
      os = cs.map some ∧ cs.flatten = x.operands c d ∧ u = x.type ∧ x.Widens w.frame k ∧
      w₁ = w.extend k [] := by
    split at hos
    · next hfloat =>
      simp only [Bool.or_eq_true, Node.isFloat_iff] at hfloat
      split at hos
      · obtain rfl : rt = .floatType := by simpa using hfloat
        simp only [yields_bind, Gen.yields_onFrame, yields_intToFloat, yields_pure,
          Prod.mk.injEq] at hos
        obtain ⟨_, _, ⟨_, ⟨rfl, g, hg, rfl⟩, rfl⟩, ⟨rfl, rfl⟩, rfl⟩ := hos
        exact ⟨.intFloat, [c, one .i2f, d], _, rfl, rfl, by simp [Mixture.operands], rfl,
          ⟨g, hg, rfl⟩, rfl⟩
      · obtain rfl : lt = .floatType := by simpa using hfloat
        simp only [yields_bind, Gen.yields_onFrame, yields_intToFloat, yields_pure,
          Prod.mk.injEq] at hos
        obtain ⟨_, _, ⟨_, ⟨rfl, g, hg, rfl⟩, rfl⟩, ⟨rfl, rfl⟩, rfl⟩ := hos
        exact ⟨.floatInt, [c, d, one .i2f], _, rfl, rfl, by simp [Mixture.operands], rfl,
          ⟨g, hg, rfl⟩, rfl⟩
      · simp only [yields_pure, Prod.mk.injEq] at hos
        obtain ⟨⟨rfl, rfl⟩, rfl⟩ := hos
        have hx : Mixture.of op lt rt = .floats := by
          unfold Mixture.of
          split <;> simp_all
        exact ⟨.floats, [c, d], w₁.frame, hx.symm, rfl, by simp [Mixture.operands], rfl, rfl,
          by simp⟩
    · next hfloat =>
      simp only [Bool.or_eq_true, Node.isFloat_iff] at hfloat
      split at hos
      · simp only [yields_pure] at hos
        obtain ⟨hos, rfl⟩ := hos
        by_cases hop : op = "+"
        · rw [if_pos hop, Prod.mk.injEq] at hos
          obtain ⟨rfl, rfl⟩ := hos
          exact ⟨.texts, [c, d], w₁.frame, by simp [Mixture.of, hop], rfl,
            by simp [Mixture.operands], rfl, rfl, by simp⟩
        · rw [if_neg hop, Prod.mk.injEq] at hos
          obtain ⟨rfl, rfl⟩ := hos
          exact ⟨.apart, [], w₁.frame, by simp [Mixture.of, hop], rfl, rfl, rfl, rfl, by simp⟩
      · simp only [yields_pure, Prod.mk.injEq] at hos
        obtain ⟨⟨rfl, rfl⟩, rfl⟩ := hos
        exact ⟨.ints, [c, d], w₁.frame, rfl, rfl, by simp [Mixture.operands], rfl, rfl, by simp⟩
      · simp only [yields_pure, Prod.mk.injEq] at hos
        obtain ⟨⟨rfl, rfl⟩, rfl⟩ := hos
        have hx : Mixture.of op lt rt = .apart := by
          unfold Mixture.of
          split <;> simp_all
        exact ⟨.apart, [], w₁.frame, hx.symm, rfl, rfl, rfl, rfl, by simp⟩
  obtain ⟨x, cs, k, hx, rfl, hcs, rfl, hk, rfl⟩ := operands
  simp only [Gen.yields_onFrame, yields_binary, Gen.yields_join, yields_pure,
    Prod.mk.injEq] at h
  obtain ⟨_, _, ⟨_, ⟨rfl, m, hm, rfl⟩, rfl⟩, code, _, ⟨hcode, rfl⟩, ⟨rfl, rfl⟩, rfl⟩ := h
  have joined := Emit.join_map_some (cs ++ [one (arithmeticInstr op x.type)])
  simp only [List.map_append, List.map_cons, List.map_nil] at joined
  rw [joined] at hcode
  cases hcode
  exact ⟨x, k, m, hx, hk, hm, by simp [hcs], rfl, by simp⟩

/-- The code of a binary operator from the derivations of its operands. -/
theorem Gen.binary_yields {env : List Symbol} {l lt rt : Node} {d : Code} {f : Frame} {g : Frame}
    (hop : Node.binaryOperators.contains op) (hl : Coded env (.expr l) f c lt g)
    (hr : Coded env (.expr r) g d rt w.frame)
    (h : Yields (Gen.binary op (some c, lt) (some d, rt)) w (p, t) v) :
    ∃ code h, p = some code ∧ v = w.extend h [] ∧ Coded env (.expr (.binary op l r)) f code t h ∧
      t.isKnownType := by
  unfold Gen.binary at h
  split at h
  · next harith =>
    obtain ⟨x, k, m, hx, hk, hm, rfl, rfl, rfl⟩ := Gen.arithmetic_yields h
    refine ⟨_, _, rfl, rfl, .arithmetic harith hl hr hx hk hm, ?_⟩
    cases x <;> rfl
  · split at h
    · next hrel =>
      simp only [yields_bind, Gen.yields_onFrame, Gen.yields_join, yields_pure,
        Prod.mk.injEq] at h
      obtain ⟨test, _, ⟨k, htest, rfl⟩, code, _, ⟨hcode, rfl⟩, ⟨rfl, rfl⟩, rfl⟩ := h
      obtain rfl := Emit.eq_of_join [c, d, test] hcode rfl
      refine ⟨_, k, rfl, rfl, ?_, rfl⟩
      simpa using Coded.comparison hrel hl hr (Compares.of_yields htest)
    · split at h
      · next hand =>
        subst hand
        simp only [Emit.and, yields_bind, Gen.yields_onFrame, yields_binary, Gen.yields_join,
          yields_pure, Prod.mk.injEq] at h
        obtain ⟨_, _, ⟨_, ⟨rfl, k, hk, rfl⟩, rfl⟩, code, _, ⟨hcode, rfl⟩, ⟨rfl, rfl⟩, rfl⟩ := h
        obtain rfl := Emit.eq_of_join [c, d, one .iand] hcode rfl
        refine ⟨_, _, rfl, rfl, ?_, rfl⟩
        simpa using Coded.both hl hr hk
      · split at h
        · next hor =>
          subst hor
          simp only [Emit.or, yields_bind, Gen.yields_onFrame, yields_binary, Gen.yields_join,
            yields_pure, Prod.mk.injEq] at h
          obtain ⟨_, _, ⟨_, ⟨rfl, k, hk, rfl⟩, rfl⟩, code, _, ⟨hcode, rfl⟩, ⟨rfl, rfl⟩, rfl⟩ := h
          obtain rfl := Emit.eq_of_join [c, d, one .ior] hcode rfl
          refine ⟨_, _, rfl, rfl, ?_, rfl⟩
          simpa using Coded.either hl hr hk
        · simp_all [Node.binaryOperators]

/-! ### Types of parts -/

theorem Node.isTypeTree.isKnownType {t : Node} (h : t.isTypeTree) : t.isKnownType := by
  cases t <;> simp_all [Node.isTypeTree, Node.isKnownType]

theorem Node.isTypeTree_of_element? {e : Node} (ht : t.isKnownType) (he : t.element? = some e) :
    e.isTypeTree := by
  cases t with
  | arrayType ds e' =>
    cases he
    cases e with
    | intType | floatType | boolType | stringType | voidType | id => rfl
    | _ => cases ht
  | arrayLit => simp [Node.isKnownType] at ht
  | _ => cases he

theorem fieldType?_isTypeTree {n : String} {t : Node} :
    ∀ {es : List Node}, es.all Node.isFieldTypeTree → fieldType? n es = some t → t.isTypeTree
  | [], _, h => by simp [fieldType?] at h
  | e :: es, hes, h => by
    simp only [List.all_cons, Bool.and_eq_true] at hes
    cases e with
    | pair m u =>
      simp only [fieldType?] at h
      split at h
      · cases h
        exact hes.1
      · exact fieldType?_isTypeTree hes.2 h
    | _ => cases h

theorem Node.isTypeTree_of_elements? {u : Node} {es : List Node} (ht : t.isKnownType)
    (hes : t.elements? = some es) (hu : fieldType? n es = some u) : u.isTypeTree := by
  cases t with
  | structType m fs ms is =>
    cases hes
    exact fieldType?_isTypeTree ht hu
  | structLit => simp [Node.isKnownType] at ht
  | _ => cases hes

theorem Node.isKnownType_of_funcParts? {ps : List Node} (ht : t.isKnownType)
    (h : t.funcParts? = some (ps, r)) : r.isKnownType := by
  cases t with
  | funcType qs u =>
    cases h
    exact isTypeTree.isKnownType ht
  | checkedFuncType => simp [Node.isKnownType] at ht
  | _ => cases h

/-! ### Expressions -/

/-- An expression of the generator has come to code that the rules derive. -/
def CodedBy (env : List Symbol) (e : Node) (w : Workspace) (p : Piece) (t : Node)
    (v : Workspace) : Prop :=
  ∃ c f, p = some c ∧ v = w.extend f [] ∧ Coded env (.expr e) w.frame c t f ∧ t.isKnownType

/-- So have the pieces of another part. -/
def PartCodedBy (env : List Symbol) (part : Fragment) (w : Workspace) (ps : List Piece) (t : Node)
    (v : Workspace) : Prop :=
  ∃ (cs : List Code) (f : Frame), ps = cs.map some ∧ v = w.extend f [] ∧
    Coded env part w.frame cs.flatten t f

/-- The code of an operator is derived if that of its operands is. -/
theorem CodedBy.of_binary {l : Node} (hctx : ctx.missing = [])
    (hop : Node.binaryOperators.contains op)
    (hl : ∀ {w v p t}, Yields (Gen.expr other ctx l) w (p, t) v →
      CodedBy ctx.scopes.flatten l w p t v)
    (hr : ∀ {w v p t}, Yields (Gen.expr other ctx r) w (p, t) v →
      CodedBy ctx.scopes.flatten r w p t v)
    (h : Yields (Gen.expr other ctx (.binary op l r)) w (p, t) v) :
    CodedBy ctx.scopes.flatten (.binary op l r) w p t v := by
  simp only [Gen.expr, yields_bind, Context.yields_needMethod hctx] at h
  obtain ⟨_, _, rfl, ⟨p₁, t₁⟩, v₁, h₁, ⟨p₂, t₂⟩, v₂, h₂, h⟩ := h
  obtain ⟨c, f, rfl, rfl, hc, -⟩ := hl h₁
  obtain ⟨d, g, rfl, rfl, hd, -⟩ := hr h₂
  obtain ⟨code, k, rfl, rfl, hcode, ht⟩ := Gen.binary_yields hop hc hd h
  exact ⟨code, k, rfl, by simp, hcode, ht⟩

mutual

/-- The code of an expression as it is written is derived by the rules. -/
theorem exprCoded (hctx : ctx.missing = []) (henv : Regular ctx.scopes.flatten) :
    ∀ {e : Node} {w v : Workspace} {p : Piece} {t : Node}, e.isExprTree →
      Yields (Gen.expr other ctx e) w (p, t) v → CodedBy ctx.scopes.flatten e w p t v := by
  intro e w v p t he h
  cases e with
  | id n =>
    simp only [Gen.expr, yields_bind] at h
    obtain ⟨r, v', hr, h⟩ := h
    rcases Reads.of_yields hctx hr with ⟨c, u, f, hreads, rfl, rfl⟩ | ⟨rfl, rfl⟩
    · obtain ⟨heq, rfl⟩ := yields_pure.1 h
      cases heq
      exact ⟨c, f, rfl, rfl, .name hreads, hreads.isKnownType henv⟩
    · exact absurd h Act.yields_throw
  | cell a is =>
    simp only [Node.isExprTree, Bool.and_eq_true] at he
    simp only [Gen.expr, yields_bind, Context.yields_needMethod hctx, Gen.yields_join,
      yields_pure, Prod.mk.injEq] at h
    obtain ⟨_, _, rfl, ⟨p₁, t₁⟩, v₁, h₁, ⟨cs, u⟩, v₂, h₂, code, _, ⟨hcode, rfl⟩, ⟨rfl, rfl⟩,
      rfl⟩ := h
    obtain ⟨c, f, rfl, rfl, hc, ht⟩ := exprCoded hctx henv he.1 h₁
    obtain ⟨⟨ds, g, rfl, rfl, hd⟩, hu⟩ := cellsCoded hctx henv he.2 ht h₂
    obtain rfl := Emit.eq_of_join (c :: ds) hcode rfl
    exact ⟨_, g, rfl, by simp, by simpa using Coded.cell hc hd, hu⟩
  | field r n =>
    simp only [Node.isExprTree] at he
    simp only [Gen.expr, yields_bind, Context.yields_needMethod hctx, Gen.yields_require,
      Gen.yields_elementOf, Act.yields_ofExcept, Gen.yields_onFrame, yields_getField,
      Gen.yields_join, yields_pure, Prod.mk.injEq] at h
    obtain ⟨_, _, rfl, ⟨p₁, t₁⟩, v₁, h₁, es, _, ⟨hes, rfl⟩, ft, _, ⟨hft, rfl⟩, u, v₂, h₂, owner,
      _, ⟨howner, rfl⟩, _, _, ⟨_, ⟨d, k, hd, rfl, hk, rfl⟩, rfl⟩, code, _, ⟨hcode, rfl⟩,
      ⟨rfl, rfl⟩, rfl⟩ := h
    obtain ⟨c, f, rfl, rfl, hc, ht⟩ := exprCoded hctx henv he h₁
    obtain ⟨g, rfl, hu, hknown⟩ :=
      TypeOf.of_yields hctx (Node.isTypeTree_of_elements? ht hes hft) h₂
    obtain rfl := Emit.eq_of_join [c, _] hcode rfl
    exact ⟨_, k.pushed, rfl, by simp, by simpa using Coded.field hc hes hft hu howner hd hk,
      hknown⟩
  | binary op l r =>
    simp only [Node.isExprTree, Bool.and_eq_true] at he
    exact .of_binary hctx he.1.1 (exprCoded hctx henv he.1.2) (exprCoded hctx henv he.2) h
  | unary op e =>
    simp only [Node.isExprTree, Bool.and_eq_true, Bool.or_eq_true, beq_iff_eq] at he
    simp [Gen.expr, he.1] at h
  | call n as =>
    simp only [Node.isExprTree] at he
    simp only [Gen.expr, yields_bind, Context.yields_needMethod hctx,
      Context.yields_find hctx, Gen.yields_require, Gen.yields_onFrame, yields_invokeStatic,
      Gen.yields_join, yields_pure, Prod.mk.injEq] at h
    obtain ⟨_, _, rfl, s, _, ⟨hs, rfl⟩, cs, v₁, h₁, owner, _, ⟨howner, rfl⟩, _, _,
      ⟨_, ⟨ps, r, d, g, hparts, hd, rfl, hg, rfl⟩, rfl⟩, code, _, ⟨hcode, rfl⟩, ⟨ps', r'⟩, _,
      ⟨hparts', rfl⟩, ⟨rfl, rfl⟩, rfl⟩ := h
    obtain ⟨cs, f, rfl, rfl, hc⟩ := argsCoded hctx henv he h₁
    rw [hparts] at hparts'
    cases hparts'
    rw [show ∀ x : Code, cs.map some ++ [some x] = (cs ++ [x]).map some by simp,
      Emit.join_map_some] at hcode
    cases hcode
    refine ⟨_, resultFrame g t, rfl, by simp,
      by simpa using Coded.call hs hc howner hparts hd hg, ?_⟩
    exact Node.isKnownType_of_funcParts? (henv.known s (Symbol.mem_of_find? hs)) hparts
  | methodCall r n as =>
    simp only [Gen.expr, Gen.methodCall, yields_bind, Context.yields_needMethod hctx,
      Context.yields_find hctx, Gen.yields_require] at h
    obtain ⟨_, _, rfl, _, v₁, h₁, cs, v₂, h₂, s, _, ⟨hs, rfl⟩, owner, _, ⟨howner, rfl⟩, h⟩ := h
    have hhome := henv.noMethod s (Symbol.mem_of_find? hs) owner
    simp [hhome] at h
  | intLit v' =>
    have hplain : isPlain v' := by
      cases v' with
      | int | text => rfl
      | _ => cases he
    simp only [Gen.expr, yields_bind, Context.yields_need hctx, Gen.yields_onFrame,
      yields_pushInt hplain, yields_pure, Prod.mk.injEq] at h
    obtain ⟨_, _, rfl, _, _, ⟨_, ⟨i, hi, rfl, rfl⟩, rfl⟩, ⟨rfl, rfl⟩, rfl⟩ := h
    exact ⟨_, _, rfl, rfl, .number hi, rfl⟩
  | floatLit v' =>
    simp only [Gen.expr, yields_bind, Act.yields_ofExcept, Context.yields_need hctx,
      Gen.yields_onFrame, yields_pushFloat, yields_pure, Prod.mk.injEq] at h
    obtain ⟨s, _, ⟨hs, rfl⟩, _, _, rfl, _, _, ⟨_, ⟨hread, rfl, rfl⟩, rfl⟩, ⟨rfl, rfl⟩, rfl⟩ := h
    exact ⟨_, _, rfl, rfl, .decimal hs hread, rfl⟩
  | stringLit v' =>
    have hplain : isPlain v' := by
      cases v' with
      | int | text => rfl
      | _ => cases he
    simp only [Gen.expr, yields_bind, Context.yields_need hctx, Gen.yields_onFrame,
      yields_pushInt hplain, yields_pure, Prod.mk.injEq] at h
    obtain ⟨_, _, rfl, _, _, ⟨_, ⟨i, hi, rfl, rfl⟩, rfl⟩, ⟨rfl, rfl⟩, rfl⟩ := h
    exact ⟨_, _, rfl, rfl, .text hi, rfl⟩
  | boolLit v' =>
    simp only [Gen.expr, yields_bind, Act.yields_ofExcept, Context.yields_need hctx,
      Gen.yields_onFrame, yields_pure, Prod.mk.injEq] at h
    obtain ⟨s, _, ⟨hs, rfl⟩, _, _, rfl, _, _, ⟨_, h, rfl⟩, ⟨rfl, rfl⟩, rfl⟩ := h
    obtain ⟨i, hi, rfl, rfl⟩ := (yields_pushInt rfl).1 h
    exact ⟨_, _, rfl, rfl, .truth hs hi, rfl⟩
  | nilLit =>
    simp only [Gen.expr, yields_bind, Context.yields_need hctx, Gen.yields_onFrame,
      yields_pushNull, yields_pure, Prod.mk.injEq] at h
    obtain ⟨_, _, rfl, _, _, ⟨_, ⟨rfl, rfl⟩, rfl⟩, ⟨rfl, rfl⟩, rfl⟩ := h
    exact ⟨_, _, rfl, rfl, .nil, rfl⟩
  | arrayLit ds e value =>
    cases value with
    | list es =>
      simp only [Node.isExprTree, Node.isElementList, Bool.and_eq_true] at he
      simp only [Gen.expr, yields_bind, Context.yields_needMethod hctx] at h
      obtain ⟨_, _, rfl, sizes, v₁, h₁, made, v₂, h₂, h⟩ := h
      obtain ⟨cs, f, rfl, rfl, hc⟩ := argsCoded hctx henv he.1.1 h₁
      split at h₂
      case isFalse => simp at h₂
      next hlength =>
      obtain ⟨d, rfl⟩ := List.length_eq_one_iff.1 hlength
      simp only [Gen.yields_onFrame, yields_newArray] at h₂
      obtain ⟨_, ⟨i, g, hi, rfl, hg, rfl⟩, rfl⟩ := h₂
      cases es with
      | nil =>
        simp only [Node.truthy, List.isEmpty_nil, Bool.not_true, Bool.false_eq_true, if_false,
          yields_bind, Gen.yields_join, yields_pure, Prod.mk.injEq] at h
        obtain ⟨code, _, ⟨hcode, rfl⟩, ⟨rfl, rfl⟩, rfl⟩ := h
        obtain rfl := Emit.eq_of_join (cs ++ [one i]) hcode (by simp)
        exact ⟨_, g.pushed, rfl, by simp, by simpa using Coded.array hc hi hg, he.1.2⟩
      | cons el es =>
        simp only [Node.truthy, List.isEmpty_cons, Bool.not_false, if_true, yields_bind,
          Gen.yields_onFrame, Frame.yields_newIndex, yields_writeVar, yields_readVar,
          Gen.arrayValue, Gen.yields_join, yields_pure, Prod.mk.injEq] at h
        obtain ⟨_, _, ⟨_, ⟨rfl, rfl⟩, rfl⟩, _, _, ⟨k, ⟨b, hb, rfl, hk⟩, rfl⟩, ps, v₃, h₃, _,
          _, ⟨_, ⟨b', hb', rfl, rfl⟩, rfl⟩, code, _, ⟨hcode, rfl⟩, ⟨rfl, rfl⟩, rfl⟩ := h
        cases hb
        cases hb'
        obtain ⟨ds, m, rfl, rfl, hd⟩ := elemsCoded hctx henv he.2 h₃
        rw [show ∀ x y z : Code, cs.map some ++ [some x, some y] ++ ds.map some ++ [some z] =
          (cs ++ [x, y] ++ ds ++ [z]).map some by simp, Emit.join_map_some] at hcode
        cases hcode
        exact ⟨_, m.pushed, rfl, by simp, by simpa using Coded.arrayOf hc hi hg hk hd, he.1.2⟩
    | _ => simp [Node.isExprTree, Node.isElementList] at he
  | structLit n es =>
    simp only [Node.isExprTree] at he
    simp only [Gen.expr, yields_bind, Context.yields_needMethod hctx,
      Context.yields_find hctx, Act.yields_ofExcept, Gen.yields_onFrame, yields_newObject,
      yields_dup, yields_invokeSpecial] at h
    obtain ⟨_, _, rfl, s, _, ⟨hs, rfl⟩, owner, _, ⟨howner, rfl⟩, _, _, ⟨_, ⟨rfl, rfl⟩, rfl⟩, _, _,
      ⟨_, ⟨rfl, rfl⟩, rfl⟩, _, _, ⟨g, ⟨rfl, hg⟩, rfl⟩, h⟩ := h
    have hknown := henv.known s (Symbol.mem_of_find? hs)
    cases es with
    | nil =>
      simp only [List.isEmpty_nil, if_true, yields_bind, Gen.yields_join,
        yields_pure, Prod.mk.injEq] at h
      obtain ⟨code, _, ⟨hcode, rfl⟩, ⟨rfl, rfl⟩, rfl⟩ := h
      obtain rfl := Emit.eq_of_join [_, _, _] hcode rfl
      exact ⟨_, g, rfl, by simp, by simpa using Coded.struct hs howner hg, hknown⟩
    | cons el es =>
      simp only [List.isEmpty_cons, Bool.false_eq_true, if_false, yields_bind,
        Gen.yields_onFrame, Frame.yields_newIndex, yields_writeVar, yields_readVar,
        Gen.yields_join, yields_pure, Prod.mk.injEq] at h
      obtain ⟨_, _, ⟨_, ⟨rfl, rfl⟩, rfl⟩, _, _, ⟨k, ⟨b, hb, rfl, hk⟩, rfl⟩, ps, v₃, h₃, _, _,
        ⟨_, ⟨b', hb', rfl, rfl⟩, rfl⟩, code, _, ⟨hcode, rfl⟩, ⟨rfl, rfl⟩, rfl⟩ := h
      obtain rfl : b = b' := Option.some.inj (hb.symm.trans hb')
      obtain ⟨ds, m, rfl, rfl, hd⟩ := fieldsCoded hctx henv he h₃
      rw [show ∀ x y z u r : Code, [some x, some y, some z] ++ [some u] ++ ds.map some ++
        [some r] = ([x, y, z, u] ++ ds ++ [r]).map some by simp, Emit.join_map_some] at hcode
      cases hcode
      exact ⟨_, m.pushed, rfl, by simp, by simpa using Coded.structOf hs howner hg hb hk hd,
        hknown⟩
  | _ => cases he

theorem argsCoded (hctx : ctx.missing = []) (henv : Regular ctx.scopes.flatten) :
    ∀ {es : List Node} {w v : Workspace} {ps : List Piece}, Node.areExprTrees es →
      Yields (Gen.args other ctx es) w ps v →
      PartCodedBy ctx.scopes.flatten (.args es) w ps .none v
  | [], w, v, ps, _, h => by
    simp only [Gen.args, yields_pure] at h
    obtain ⟨rfl, rfl⟩ := h
    exact ⟨[], v.frame, rfl, by simp, .noArgs⟩
  | e :: es, w, v, ps, hes, h => by
    simp only [Node.areExprTrees, Bool.and_eq_true] at hes
    simp only [Gen.args, yields_bind, yields_pure] at h
    obtain ⟨⟨p, t⟩, v₁, h₁, qs, _, h₂, rfl, rfl⟩ := h
    obtain ⟨c, f, rfl, rfl, hc, -⟩ := exprCoded hctx henv hes.1 h₁
    obtain ⟨cs, g, rfl, rfl, hcs⟩ := argsCoded hctx henv hes.2 h₂
    exact ⟨c :: cs, g, rfl, by simp, .arg hc hcs⟩
termination_by structural es => es

theorem cellsCoded (hctx : ctx.missing = []) (henv : Regular ctx.scopes.flatten) :
    ∀ {is : List Node} {w v : Workspace} {ps : List Piece} {t u : Node}, Node.areExprTrees is →
      t.isKnownType → Yields (Gen.cells other ctx t is) w (ps, u) v →
      PartCodedBy ctx.scopes.flatten (.cells t is) w ps u v ∧ u.isKnownType
  | [], w, v, ps, t, u, _, ht, h => by
    simp only [Gen.cells, yields_pure, Prod.mk.injEq] at h
    obtain ⟨⟨rfl, rfl⟩, rfl⟩ := h
    exact ⟨⟨[], v.frame, rfl, by simp, .noCells⟩, ht⟩
  | i :: is, w, v, ps, t, u, his, ht, h => by
    simp only [Node.areExprTrees, Bool.and_eq_true] at his
    simp only [Gen.cells, yields_bind, Gen.yields_require, Gen.yields_onFrame,
      yields_loadCell, yields_pure, Prod.mk.injEq] at h
    obtain ⟨⟨p, r⟩, v₁, h₁, e, _, ⟨he, rfl⟩, _, _, ⟨_, ⟨b, k, hb, rfl, hk, rfl⟩, rfl⟩, ⟨qs, r'⟩,
      _, h₂, ⟨rfl, rfl⟩, rfl⟩ := h
    obtain ⟨c, f, rfl, rfl, hc, -⟩ := exprCoded hctx henv his.1 h₁
    obtain ⟨⟨cs, g, rfl, rfl, hcs⟩, hu⟩ :=
      cellsCoded hctx henv his.2
        (Node.isTypeTree.isKnownType (Node.isTypeTree_of_element? ht he)) h₂
    refine ⟨⟨c :: one (.arrayLoad (cellOf b)) :: cs, g, rfl, by simp, ?_⟩, hu⟩
    simpa using Coded.index hc he hb hk hcs
termination_by structural is => is

theorem elemsCoded (hctx : ctx.missing = []) (henv : Regular ctx.scopes.flatten) :
    ∀ {es : List Node} {w v : Workspace} {ps : List Piece} {t e : Node} {slot : Int} {i : Nat},
      Node.areExprTrees es → Yields (Gen.arrayValues other ctx t e slot i es) w ps v →
      PartCodedBy ctx.scopes.flatten (.elems t e slot i es) w ps .none v
  | [], w, v, ps, t, e, slot, i, _, h => by
    simp only [Gen.arrayValues, yields_pure] at h
    obtain ⟨rfl, rfl⟩ := h
    exact ⟨[], v.frame, rfl, by simp, .noElems⟩
  | el :: es, w, v, ps, t, e, slot, i, hes, h => by
    simp only [Node.areExprTrees, Bool.and_eq_true] at hes
    simp only [Gen.arrayValues, yields_bind, Gen.yields_onFrame, yields_readVar,
      yields_pushInteger, yields_storeCell, yields_pure] at h
    obtain ⟨_, _, ⟨_, ⟨b, hb, rfl, rfl⟩, rfl⟩, _, _, ⟨_, ⟨rfl, rfl⟩, rfl⟩, ⟨p, u⟩, v₁, h₁, _, _,
      ⟨k, ⟨b', hb', rfl, hk⟩, rfl⟩, qs, _, h₂, rfl, rfl⟩ := h
    obtain ⟨c, f, rfl, rfl, hc, -⟩ := exprCoded hctx henv hes.1 h₁
    obtain ⟨cs, g, rfl, rfl, hcs⟩ := elemsCoded hctx henv hes.2 h₂
    refine ⟨one (.load b slot) :: one (intConstant i) :: c :: one (.arrayStore (cellOf b')) :: cs,
      g, rfl, by simp, ?_⟩
    simpa using Coded.elem hb hc hb' hk hcs
termination_by structural es => es

theorem fieldsCoded (hctx : ctx.missing = []) (henv : Regular ctx.scopes.flatten) :
    ∀ {es : List Node} {w v : Workspace} {ps : List Piece} {t : Node} {owner : String} {slot : Int},
      Node.areFieldTrees es → Yields (Gen.structValues other ctx t owner slot es) w ps v →
      PartCodedBy ctx.scopes.flatten (.fields t owner slot es) w ps .none v
  | [], w, v, ps, t, owner, slot, _, h => by
    simp only [Gen.structValues, yields_pure] at h
    obtain ⟨rfl, rfl⟩ := h
    exact ⟨[], v.frame, rfl, by simp, .noFields⟩
  | e :: es, w, v, ps, t, owner, slot, hes, h => by
    cases e with
    | pair n el =>
      simp only [Node.areFieldTrees, Bool.and_eq_true] at hes
      simp only [Gen.structValues, yields_bind, Gen.yields_onFrame, yields_readVar,
        Gen.yields_require, Gen.yields_elementOf, yields_putField, yields_pure] at h
      obtain ⟨_, _, ⟨_, ⟨b, hb, rfl, rfl⟩, rfl⟩, ⟨p, u⟩, v₁, h₁, ts, _, ⟨hts, rfl⟩, ft, _,
        ⟨hft, rfl⟩, _, _, ⟨k, ⟨d, hd, rfl, hk⟩, rfl⟩, qs, _, h₂, rfl, rfl⟩ := h
      obtain ⟨c, f, rfl, rfl, hc, -⟩ := exprCoded hctx henv hes.1 h₁
      obtain ⟨cs, g, rfl, rfl, hcs⟩ := fieldsCoded hctx henv hes.2 h₂
      refine ⟨one (.load b slot) :: c :: one (.putField (owner ++ "/" ++ n) d) :: cs, g, rfl,
        by simp, ?_⟩
      simpa using Coded.fieldOf hb hc hts hft hd hk hcs
    | _ => cases hes
termination_by structural es => es

end

end Generator

end MiniGoc
