import MiniGoc.Proofs.Code
import MiniGoc.Proofs.Types

/-!
# What a source asks for, and what its code does

The *effects* of a listing are the loads and stores of variables and the calls of functions
in it, in order.  The *demands* of a piece of source are the places where it asks for one:
a name that is read or written (`Demand.use`), a function that is called (`Demand.call`),
and the array or struct that is being filled (`Demand.temp`).

A name is looked up twice.  One place is where the generator finds it: its environment
holds all names of the enclosing blocks.  The other is the one that block scoping selects:
the scope holds the names whose declarations have been passed, the latest first.

The generator leaves some demands out (`Demand.lost`): those of a call that stands as a
statement, and those of the operands of an operator of arithmetic that do not go together.
All others have an effect, in the same order, and there are no other effects
(`Printed.answers`).
-/

namespace MiniGoc

open Emit

/-! ## Effects -/

/-- Where a value is kept. -/
inductive Address where
  | slot (i : Int)
  /-- A member of a class, by the name of the class and its own. -/
  | member (name : String)
deriving DecidableEq, Repr

/-- Whether a value is read or written. -/
inductive Access where
  | load
  | store
deriving DecidableEq, Repr

/-- What an instruction does to a variable, or the function that it calls. -/
inductive Effect where
  | access (k : Access) (a : Address)
  | invoke (method : String)
deriving DecidableEq, Repr

def Instr.effect? : Instr → Option Effect
  | load _ i => some (.access .load (.slot i))
  | store _ i => some (.access .store (.slot i))
  | getStatic m _ => some (.access .load (.member m))
  | putStatic m _ => some (.access .store (.member m))
  | invokeStatic m _ => some (.invoke m)
  | _ => none

def Line.effect? : Line → Option Effect
  | instr i => i.effect?
  | _ => none

namespace Code

/-- The effects of a listing, in order. -/
def effects (c : Code) : List Effect := c.filterMap Line.effect?

@[simp] theorem effects_nil : effects [] = [] := rfl

@[simp] theorem effects_append (c d : Code) : effects (c ++ d) = effects c ++ effects d :=
  List.filterMap_append

@[simp] theorem effects_one (i : Instr) : effects (one i) = i.effect?.toList := by
  cases h : i.effect? <;> simp [effects, one, Line.effect?, h]

@[simp] theorem effects_jump (l : Operand) : effects (jump l) = [] := rfl

@[simp] theorem effects_label (l : Operand) : effects (label l) = [] := rfl

end Code

/-! ### Instructions without an effect -/

@[simp] theorem effect?_intConstant (i : Int) : (intConstant i).effect? = none := by
  unfold intConstant
  split_ifs <;> rfl

variable {i : Instr} {t : Node} {c : Code} {f g : Frame} {E env : List Symbol}

theorem effect?_intInstr {v : Node} (h : intInstr? v = some i) : i.effect? = none := by
  cases v with
  | int i =>
    cases h
    exact effect?_intConstant i
  | bool =>
    cases h
    rfl
  | text s =>
    simp only [intInstr?] at h
    split_ifs at h
    · cases h
      simp
    · cases h
      simp
    · obtain ⟨j, -, rfl⟩ := Option.map_eq_some_iff.1 h
      simp
  | _ => cases h

theorem effect?_arrayInstr (h : arrayInstr? t = some i) : i.effect? = none := by
  cases t <;> simp [arrayInstr?] at h <;> subst h <;> rfl

theorem effect?_zeroInstr (h : zeroInstr? t = some i) : i.effect? = none := by
  cases t <;> simp [zeroInstr?] at h <;> subst h <;> rfl

@[simp] theorem effect?_arithmeticInstr (op : String) (t : Node) :
    (arithmeticInstr op t).effect? = none := by
  unfold arithmeticInstr
  split_ifs <;> first | rfl | (split <;> rfl)

theorem effects_retPiece (h : retPiece t = some c) : c.effects = [] := by
  cases t <;> simp [retPiece] at h <;> subst h <;> rfl

theorem Emit.Compares.effects_eq_nil {op : String} {l : Nat} (h : Compares op l t f c g) :
    c.effects = [] := by
  have ints : (failJump .ifInts op (.ofNat l)).effects = [] := by
    unfold failJump
    split <;> rfl
  have zeros : (failJump .ifZero op (.ofNat l)).effects = [] := by
    unfold failJump
    split <;> rfl
  have ends : (outcomes l (l + 1)).effects = [] := rfl
  cases h with
  | ints => simp [ints, ends]
  | floats => simp [zeros, ends, Instr.effect?]
  | texts => simp [zeros, ends, Instr.effect?, compareTexts]
  | other => rfl

theorem Declared.effects_eq_nil {outer ls : List Symbol} {p : Gen.Pass} {ms : List Node}
    (h : Declared outer p ms f c ls g) : c.effects = [] := by
  induction h with
  | done => rfl
  | take _ _ _ _ ih | known _ _ _ _ _ _ ih => exact ih
  | skip _ _ ih => exact ih

/-! ## Demands -/

/-- A place where a source asks for an effect. -/
inductive Demand where
  /-- A name that is read or written, with the places where the generator finds it and where
  block scoping does. -/
  | use (k : Access) (x : String) (found selected : Option Address)
  /-- A slot for an array or a struct that is being filled. -/
  | temp
  /-- A function that is called, with the class that it is looked for in. -/
  | call (f : String) (owner : Option String)
  /-- A demand that the generator leaves out. -/
  | lost (d : Demand)
deriving DecidableEq, Repr

namespace Demand

def isKept : Demand → Bool
  | lost _ => false
  | _ => true

/-- The effect is what was asked for, where a variable is the one that the generator finds. -/
inductive Emits : Demand → Effect → Prop where
  | use {k x a s} : Emits (.use k x (some a) s) (.access k a)
  | temp {k i} : Emits .temp (.access k (.slot i))
  | call {f o} : Emits (.call f (some o)) (.invoke (o ++ "/" ++ f))

end Demand

/-- The demands that are not left out. -/
def kept (ds : List Demand) : List Demand := ds.filter Demand.isKept

@[simp] theorem kept_append (ds es : List Demand) : kept (ds ++ es) = kept ds ++ kept es :=
  List.filter_append ..

@[simp] theorem kept_lost (ds : List Demand) : kept (ds.map .lost) = [] := by
  simp [kept, Demand.isKept]

/-- The place of a name in an environment. -/
def addressIn (env : List Symbol) (x : String) : Option Address :=
  match (Symbol.find? x env).map Symbol.home with
  | some (.slot i) => some (.slot i)
  | some (.member owner _) => some (.member (owner ++ "/" ++ x))
  | _ => none

/-- The class that a call of a name goes to. -/
def ownerIn (env : List Symbol) (f : String) : Option String :=
  (Symbol.find? f env).bind fun s => s.home.word?

/-- Whether the generator leaves the operands of an operator out. -/
def dropsOperands (env : List Symbol) (op : String) (l r : Node) : Bool :=
  op ∈ arithmeticOperators && Mixture.of op (typeIn env l) (typeIn env r) = .apart

mutual

/-- The demands of an expression, in the order in which it is evaluated. -/
def exprDemands (env scope : List Symbol) : Node → List Demand
  | .id x => [.use .load x (addressIn env x) (addressIn scope x)]
  | .cell a is => exprDemands env scope a ++ argsDemands env scope is
  | .field r _ | .pair _ r => exprDemands env scope r
  | .binary op l r =>
    let operands := exprDemands env scope l ++ exprDemands env scope r
    if dropsOperands env op l r then operands.map .lost else operands
  | .call f as => argsDemands env scope as ++ [.call f (ownerIn env f)]
  | .arrayLit ds _ v => argsDemands env scope ds ++ exprDemands env scope v
  | .structLit _ es | .list es =>
    if es.isEmpty then [] else .temp :: elemsDemands env scope es ++ [.temp]
  | _ => []

/-- The demands of expressions in a row. -/
def argsDemands (env scope : List Symbol) : List Node → List Demand
  | [] => []
  | e :: es => exprDemands env scope e ++ argsDemands env scope es

/-- The demands of the elements that fill an array or a struct. -/
def elemsDemands (env scope : List Symbol) : List Node → List Demand
  | [] => []
  | e :: es => .temp :: exprDemands env scope e ++ elemsDemands env scope es

end

attribute [local simp] exprDemands

/-- The demands of a part of an expression. -/
def Fragment.demands (env scope : List Symbol) : Fragment → List Demand
  | expr e => exprDemands env scope e
  | args es | cells _ es => argsDemands env scope es
  | elems _ _ _ _ es | fields _ _ _ es => elemsDemands env scope es

theorem Alike.addressIn_eq (h : Alike E env) (x : String) : addressIn E x = addressIn env x := by
  rcases h.find? x with ⟨hE, henv⟩ | ⟨s, t, hs, ht, hst⟩
  · simp [addressIn, hE, henv]
  · simp [addressIn, hs, ht, hst.home]

theorem Alike.ownerIn_eq (h : Alike E env) (f : String) : ownerIn E f = ownerIn env f := by
  rcases h.find? f with ⟨hE, henv⟩ | ⟨s, t, hs, ht, hst⟩
  · simp [ownerIn, hE, henv]
  · simp [ownerIn, hs, ht, hst.home]

theorem addressIn_slot {x : String} {s : Symbol} {i : Int} (hs : Symbol.find? x env = some s)
    (hi : s.home = .slot i) : addressIn env x = some (.slot i) := by
  simp [addressIn, hs, hi]

theorem addressIn_member {x owner : String} {s : Symbol} {b : Bool}
    (hs : Symbol.find? x env = some s) (hs' : s.home = .member owner b) :
    addressIn env x = some (.member (owner ++ "/" ++ x)) := by
  simp [addressIn, hs, hs']

/-! ## The effects of an expression -/

/-- Demands in order, each with its effect. -/
def Answers (ds : List Demand) (c : Code) : Prop := List.Forall₂ Demand.Emits (kept ds) c.effects

namespace Answers

variable {ds es : List Demand} {c d : Code}

theorem nil (h : c.effects = []) : Answers [] c := by
  rw [Answers, h]
  exact .nil

theorem lost (h : c.effects = []) : Answers (ds.map .lost) c := by
  rw [Answers, h, kept_lost]
  exact .nil

theorem append (hc : Answers ds c) (hd : Answers es d) : Answers (ds ++ es) (c ++ d) := by
  rw [Answers, kept_append, Code.effects_append]
  exact List.rel_append hc hd

theorem append_nil (hc : Answers ds c) (hd : d.effects = []) : Answers ds (c ++ d) := by
  simpa using hc.append (nil hd)

theorem of_effects_eq (hc : Answers ds c) (h : d.effects = c.effects) : Answers ds d := by
  rwa [Answers, h]

theorem one {a : Demand} {i : Instr} {e : Effect} (hi : i.effect? = some e) (ha : a.isKept)
    (h : a.Emits e) : Answers [a] (Emit.one i) := by
  simp only [Answers, kept, List.filter_cons, ha, if_true, List.filter_nil, Code.effects_one, hi]
  exact .cons h .nil

theorem temp {k : Access} {j : Int} {i : Instr} (hi : i.effect? = some (.access k (.slot j))) :
    Answers [.temp] (Emit.one i) := one hi rfl .temp

theorem use {k : Access} {x : String} {found selected : Option Address} {a : Address} {i : Instr}
    (hi : i.effect? = some (.access k a)) (ha : found = some a) :
    Answers [.use k x found selected] (Emit.one i) := by
  subst ha
  exact one hi rfl .use

end Answers

theorem dropsOperands_iff {op : String} {l r : Node} :
    dropsOperands env op l r ↔
      op ∈ arithmeticOperators ∧ Mixture.of op (typeIn env l) (typeIn env r) = .apart := by
  simp [dropsOperands]

theorem Mixture.effects_operands {x : Mixture} (hx : x ≠ .apart) {d : Code} :
    (x.operands c d).effects = (c ++ d).effects := by
  cases x with
  | apart => contradiction
  | _ => simp [operands, Instr.effect?]

/-- The code of an expression does what the expression asks for. -/
theorem Coded.answers (henv : Alike E env) (scope : List Symbol) {part : Fragment}
    (h : Coded env part f c t g) : Answers (part.demands E scope) c := by
  induction h with
  | @name n f c t g h =>
    cases h with
    | slot hs hi _ => exact .use rfl ((henv.addressIn_eq n).trans (addressIn_slot hs hi))
    | static hs hi _ => exact .use rfl ((henv.addressIn_eq n).trans (addressIn_member hs hi))
  | cell _ _ iha ihis => exact iha.append ihis
  | field _ _ _ _ _ _ _ ih => exact ih.append_nil rfl
  | @arithmetic op l r f c lt g d rt h x k m hop hl hr hx _ _ ihl ihr =>
    have hx' : Mixture.of op (typeIn E l) (typeIn E r) = x := by
      rw [hx]
      exact Mixture.of_congr (hl.outline_eq henv).symm (hr.outline_eq henv).symm
    simp only [Fragment.demands, exprDemands]
    by_cases hapart : x = .apart
    · rw [if_pos (dropsOperands_iff.2 ⟨hop, hx'.trans hapart⟩)]
      exact .lost (by simp [hapart, Mixture.operands])
    · rw [if_neg fun h => hapart (hx'.symm.trans (dropsOperands_iff.1 h).2)]
      have operands := (ihl.append ihr).of_effects_eq (Mixture.effects_operands hapart)
      exact operands.append_nil (by simp)
  | comparison hop _ _ hc ihl ihr =>
    simp only [Fragment.demands, exprDemands]
    rw [if_neg fun h => not_mem_relational (dropsOperands_iff.1 h).1 hop]
    exact (ihl.append ihr).append_nil hc.effects_eq_nil
  | both _ _ _ ihl ihr | either _ _ _ ihl ihr => exact (ihl.append ihr).append_nil rfl
  | @call n as s f c g owner ps r d h hs _ howner _ _ _ ih =>
    have howner : ownerIn E n = some owner := by
      rw [henv.ownerIn_eq]
      simp [ownerIn, hs, howner]
    refine ih.append ?_
    rw [howner]
    exact .one rfl rfl .call
  | number hi | text hi | truth _ hi => exact .nil (by simp [effect?_intInstr hi])
  | decimal | nil => exact .nil rfl
  | array _ hi _ ih => exact ih.append (.nil (by simp [effect?_arrayInstr hi]))
  | @arrayOf d e el es f c g i h k d' m _ hi _ _ _ ih ih' =>
    have made : Answers (argsDemands E scope [d]) (c ++ one i) :=
      ih.append_nil (by simp [effect?_arrayInstr hi])
    have stored : Answers [.temp] (one (.store .ref h.index)) := .temp rfl
    have loaded : Answers [.temp] (one (.load .ref h.index)) := .temp rfl
    simpa [Fragment.demands, exprDemands] using ((made.append stored).append ih').append loaded
  | struct => exact .nil rfl
  | structOf _ _ _ _ _ _ ih =>
    exact ((Answers.append (.nil rfl) (.temp rfl)).append ih).append (.temp rfl)
  | noArgs | noCells | noElems | noFields => exact .nil rfl
  | arg _ _ ih ih' => exact ih.append ih'
  | index _ _ _ _ _ ih ih' => exact (ih.append_nil rfl).append ih'
  | elem _ _ _ _ _ ih ih' =>
    exact ((((Answers.temp rfl).append_nil (by simp)).append ih).append_nil rfl).append ih'
  | fieldOf _ _ _ _ _ _ _ ih ih' =>
    exact (((Answers.temp rfl).append ih).append_nil rfl).append ih'

/-! ## The effects of a statement -/

/-- The demands of what is assigned to, before the value is known. -/
def placeDemands (env scope : List Symbol) : Node → List Demand
  | .id _ => []
  | e => exprDemands env scope e

/-- The demands of an assignment once the value is known. -/
def storeDemands (env scope : List Symbol) : Node → List Demand
  | .id x => [.use .store x (addressIn env x) (addressIn scope x)]
  | _ => []

/-- The scope after a member of a block, which got a symbol of its own or none.  An
assignment declares a name only if no other declaration has been passed. -/
def passed (scope : List Symbol) (own : Option Symbol) : Node → List Symbol
  | .assign .. => scope ++ own.toList
  | _ => own.toList ++ scope

mutual

/-- The demands of a statement, where `i` is the first slot that is free. -/
def stmtDemands (env scope : List Symbol) (own : Option Symbol) (i : Int) : Node → List Demand
  | .var n _ e | .const n _ e =>
    exprDemands env scope e ++ [.use .store n (addressIn env n) (addressIn own.toList n)]
  | .assign t e =>
    placeDemands env scope t ++ exprDemands env scope e ++
      storeDemands env (scope ++ own.toList) t
  | .block ms =>
    let first := takes env [] i ms
    membersDemands (first.1.reduceOption ++ env) scope first.1 first.2 ms
  | .ifElse c y n =>
    exprDemands env scope c ++ stmtDemands env scope none (i + temps c) y ++
      stmtDemands env scope none (i + temps c + stmtTemps y) n
  | .ret e => exprDemands env scope e
  | .call f as => (exprDemands env scope (.call f as)).map .lost
  | _ => []

/-- The demands of the members of a block, with the symbols that the members got. -/
def membersDemands (env scope : List Symbol) (owns : List (Option Symbol)) (i : Int) :
    List Node → List Demand
  | [] => []
  | m :: ms =>
    stmtDemands env scope owns.head?.join i m ++
      membersDemands env (passed scope owns.head?.join m) owns.tail (i + stmtTemps m) ms

end

attribute [local simp] stmtDemands

def Stage.demands (env scope : List Symbol) (owns : List (Option Symbol)) (i : Int) :
    Stage → List Demand
  | stmt m => stmtDemands env scope owns.head?.join i m
  | members ms => membersDemands env scope owns i ms

/-- The code of a statement does what the statement asks for. -/
theorem Printed.answers {stage : Stage} (h : Printed env stage f c g) (henv : Alike E env)
    (scope : List Symbol) (owns : List (Option Symbol)) :
    Answers (stage.demands E scope owns f.index) c := by
  induction h generalizing E scope owns with
  | @var env n t i s j f c u g b h hs hj hc _ _ | @const env n t i s j f c u g b h hs hj hc _ _ =>
    exact (hc.answers henv scope).append
      (.use rfl ((henv.addressIn_eq n).trans (addressIn_slot hs hj)))
  | @zero env n t s j f i b h hs hj hi _ _ =>
    exact Answers.append (.nil (by simp [effect?_zeroInstr hi]))
      (.use rfl ((henv.addressIn_eq n).trans (addressIn_slot hs hj)))
  | @assignSlot env n e s j f c u g b h hs hj hc _ _ =>
    exact (hc.answers henv scope).append
      (.use rfl ((henv.addressIn_eq n).trans (addressIn_slot hs hj)))
  | @assignStatic env n e s owner x f c u g d h hs hj hc _ _ =>
    exact (hc.answers henv scope).append
      (.use rfl ((henv.addressIn_eq n).trans (addressIn_member hs hj)))
  | assignCell ha his _ _ _ _ he =>
    have target := (ha.answers henv scope).append (his.answers henv scope)
    exact (target.append (he.answers henv scope)).append (.nil rfl)
  | assignField ha _ _ _ _ _ _ he =>
    exact ((ha.answers henv scope).append (he.answers henv scope)).append (.nil rfl)
  | @block env ms f c ls g d h hls _ ih =>
    obtain ⟨hlocals, hindex⟩ := hls.takes henv (Alike.refl [])
    have inner := ih (hlocals.append henv) scope (takes E [] f.index ms).1
    rw [hindex] at inner
    refine inner.of_effects_eq ?_
    simp [hls.effects_eq_nil]
  | @ifOnly env e y f c t g h d k hc hd _ ih =>
    have hindex : h.index = f.index + temps e := hd.sameCounters.index.trans hc.index_eq
    have yes := ih henv scope []
    rw [hindex] at yes
    refine (((hc.answers henv scope).append yes).append (.nil Code.effects_nil)).of_effects_eq ?_
    simp [Instr.effect?]
  | @ifElse env e y n f c t g h d k d' m hc hd _ hy _ ih ih' =>
    have hindex : h.index = f.index + temps e := hd.sameCounters.index.trans hc.index_eq
    have hindex' : k.index = f.index + temps e + stmtTemps y := by
      rw [hy.index_eq, hindex]
      rfl
    have yes := ih henv scope []
    have no := ih' henv scope []
    rw [hindex] at yes
    rw [hindex'] at no
    refine (((hc.answers henv scope).append yes).append no).of_effects_eq ?_
    simp [Instr.effect?]
  | breakLoop | continueLoop | leave | noMembers => exact .nil rfl
  | ret hc hr _ => exact (hc.answers henv scope).append_nil (effects_retPiece hr)
  | call _ => exact .lost rfl
  | @member env m ms f c g d h hm _ ih ih' =>
    have rest := ih' henv (passed scope owns.head?.join m) owns.tail
    rw [hm.index_eq] at rest
    exact (ih henv scope owns).append rest

/-! ## The methods of a program -/

/-- The slots of parameters, from one on. -/
def paramSymbols : Int → List (String × Node) → List Symbol
  | _, [] => []
  | i, (n, t) :: ps => .localVar n t i :: paramSymbols (i + 1) ps

theorem Params.eq_paramSymbols {ps : List (String × Node)} {ss : List Symbol}
    (h : Params ps f c ss g) :
    ss = paramSymbols f.index ps ∧ g.index = f.index + ps.length ∧ c.effects = [] := by
  induction h with
  | nil => simp [paramSymbols]
  | @cons n t ps f s d c ss g _ _ _ ih =>
    obtain ⟨hss, hindex, hc⟩ := ih
    refine ⟨?_, ?_, hc⟩
    · rw [hss]
      rfl
    · rw [hindex]
      simp only [Frame.indexed, List.length_cons]
      omega

theorem FuncBody.answers {globals : List Symbol} {params : List (String × Node)} {r b : Node}
    {body : Code} (h : FuncBody globals params r b body) (scope : List Symbol) :
    Answers (stmtDemands (paramSymbols 0 params ++ globals) scope none params.length b) body := by
  cases h with
  | @intro c ss f d g rc h hparams hb hr _ =>
    obtain ⟨hss, hindex, hc⟩ := hparams.eq_paramSymbols
    have hindex : f.index = params.length := hindex.trans (Int.zero_add _)
    have hlimits : (limitLines h).effects = [] := rfl
    have main := hb.answers (Alike.refl _) scope []
    rw [hss, hindex] at main
    refine main.of_effects_eq ?_
    simp [hc, effects_retPiece hr, hlimits]

/-- The demands of a function of a program.  The names that block scoping selects from are
its parameters, the names that the program declares, and those that every program has. -/
def funcDemands (ds : List Node) : Node → List Demand
  | .func n ps _ b =>
    stmtDemands (paramSymbols 0 (methodParams n ps) ++ globalSymbols ds)
      (paramSymbols 0 (ps.map Node.paramParts) ++ ds.flatMap declSymbols ++ Symbol.builtins)
      none (methodParams n ps).length b
  | _ => []

theorem BodyOf.answers {ds : List Node} {d : Node} {m : String × Code}
    (h : BodyOf (globalSymbols ds) d m) : Answers (funcDemands ds d) m.2 := by
  cases h with
  | intro hbody => exact hbody.answers _

end MiniGoc
