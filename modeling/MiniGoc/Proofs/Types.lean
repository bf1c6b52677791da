import Mathlib.Data.List.Forall2
import Mathlib.Data.List.ReduceOption
import MiniGoc.Proofs.Printed

/-!
# Types and slots, computed

What the code of an expression looks like depends on the types of its parts, and what a
name stands for depends on the slots that the first pass over a block gives out.  Both can
be computed from the source alone: `typeIn` is the type of an expression, `temps` the
number of slots that its code takes for itself, and `takes` the symbols that the members of
a block get.

A name in the place of a type stands for nothing that has a value.  The generator then
goes on with a list or with nothing in the place of the type; nothing depends on which of
the two it is, so types are compared after `outline`, which makes them the same.
-/

namespace MiniGoc

open Emit

/-! ## Types up to their outline -/

/-- A type, where nothing stands for a list. -/
def Node.outline : Node → Node
  | list _ => none
  | t => t

theorem Node.element?_outline (t : Node) : t.outline.element? = t.element? := by
  cases t <;> rfl

theorem Node.elements?_outline (t : Node) : t.outline.elements? = t.elements? := by
  cases t <;> rfl

theorem Node.funcParts?_outline (t : Node) : t.outline.funcParts? = t.funcParts? := by
  cases t <;> rfl

variable {t u : Node} {E env : List Symbol} {f g : Frame} {c : Code}

theorem Mixture.of_congr {op : String} {t' u' : Node} (ht : t.outline = t'.outline)
    (hu : u.outline = u'.outline) : Mixture.of op t u = Mixture.of op t' u' := by
  have of_outline (t u : Node) : Mixture.of op t.outline u.outline = Mixture.of op t u := by
    cases t <;> cases u <;> rfl
  rw [← of_outline t, ← of_outline t', ht, hu]

/-- Symbols with the same name, the same place, and types of the same outline. -/
structure Symbol.Alike (s t : Symbol) : Prop where
  name : s.name = t.name
  home : s.home = t.home
  type : s.type.outline = t.type.outline

/-- Environments that answer alike. -/
def Alike (E env : List Symbol) : Prop := List.Forall₂ Symbol.Alike E env

theorem Alike.refl (env : List Symbol) : Alike env env :=
  List.forall₂_same.2 fun _ _ => ⟨rfl, rfl, rfl⟩

theorem Alike.append {E' env' : List Symbol} (h : Alike E env) (h' : Alike E' env') :
    Alike (E ++ E') (env ++ env') := List.rel_append h h'

/-- A name is found in both environments or in none. -/
theorem Alike.find? (h : Alike E env) (x : String) :
    (Symbol.find? x E = none ∧ Symbol.find? x env = none) ∨
      ∃ s t, Symbol.find? x E = some s ∧ Symbol.find? x env = some t ∧ s.Alike t := by
  induction h with
  | nil => exact .inl ⟨rfl, rfl⟩
  | @cons s t E env hst _ ih =>
    by_cases hx : s.name = x
    · refine .inr ⟨s, t, ?_, ?_, hst⟩
      · simp [Symbol.find?, hx]
      · simp [Symbol.find?, ← hst.name, hx]
    · have hs : (s.name == x) = false := by simpa using hx
      have ht : (t.name == x) = false := by rwa [← hst.name]
      simpa [Symbol.find?, hs, ht] using ih

theorem Alike.find?_some (h : Alike E env) {x : String} {t : Symbol}
    (ht : Symbol.find? x env = some t) : ∃ s, Symbol.find? x E = some s ∧ s.Alike t := by
  rcases h.find? x with ⟨-, hnone⟩ | ⟨s, t', hs, ht', hst⟩
  · rw [ht] at hnone
    cases hnone
  · rw [ht] at ht'
    cases ht'
    exact ⟨s, hs, hst⟩

theorem Alike.find?_none (h : Alike E env) {x : String} (hx : Symbol.find? x env = none) :
    Symbol.find? x E = none := by
  rcases h.find? x with ⟨hnone, -⟩ | ⟨s, t, -, ht, -⟩
  · exact hnone
  · rw [hx] at ht
    cases ht

/-! ## The type of an expression -/

/-- The type that is written somewhere, where a name stands for nothing. -/
def writtenType : Node → Node
  | .id _ => .none
  | t => t

/-- The type of an element that some indices lead to. -/
def cellType (t : Node) : Nat → Node
  | 0 => t
  | k + 1 =>
    match t.element? with
    | some e => cellType e k
    | none => .none

/-- The type of an expression in an environment. -/
def typeIn (env : List Symbol) : Node → Node
  | .id x | .structLit x _ =>
    match Symbol.find? x env with
    | some s => s.type
    | none => .none
  | .cell a is => cellType (typeIn env a) is.length
  | .field r n =>
    match (typeIn env r).elements?.bind (fieldType? n) with
    | some t => writtenType t
    | none => .none
  | .binary op l r =>
    if op ∈ arithmeticOperators then (Mixture.of op (typeIn env l) (typeIn env r)).type
    else .boolType
  | .call f _ =>
    match (Symbol.find? f env).bind fun s => s.type.funcParts? with
    | some (_, r) => r
    | none => .none
  | .intLit _ => .intType
  | .floatLit _ => .floatType
  | .stringLit _ => .stringType
  | .boolLit _ => .boolType
  | .arrayLit ds e _ => .arrayType ds e
  | _ => .none

attribute [local simp] typeIn

theorem TypeOf.outline_eq (h : TypeOf env t f u g) : u.outline = (writtenType t).outline := by
  cases h with
  | type _ hname =>
    cases t <;> first | rfl | cases hname
  | value => rfl
  | nothing => rfl

/-- The type that a part is expected to have, if it has one. -/
def Fragment.typeIn (env : List Symbol) : Fragment → Node
  | expr e => MiniGoc.typeIn env e
  | cells t is => cellType t is.length
  | _ => .none

theorem cellType_outline (t : Node) (k : Nat) :
    (cellType t.outline k).outline = (cellType t k).outline := by
  cases k with
  | zero => cases t <;> rfl
  | succ k => simp only [cellType, Node.element?_outline]

/-- The type of the code is the one that was computed. -/
theorem Coded.outline_eq (henv : Alike E env) {part : Fragment} (h : Coded env part f c t g) :
    t.outline = (part.typeIn E).outline := by
  induction h with
  | name h =>
    cases h with
    | slot hs _ _ | static hs _ _ =>
      obtain ⟨s, hs, hst⟩ := henv.find?_some hs
      simp [Fragment.typeIn, typeIn, hs, hst.type]
  | @cell a is f c t g d u h _ _ iha ihis =>
    rw [ihis]
    simp only [Fragment.typeIn, typeIn] at iha ⊢
    rw [← cellType_outline t, iha, cellType_outline]
  | @field r n f c rt g es ft t h owner d k _ hes hft ht _ _ _ ih =>
    have hes' : (typeIn E r).elements? = some es := by
      rw [← Node.elements?_outline, ← Fragment.typeIn, ← ih, Node.elements?_outline, hes]
    simp only [Fragment.typeIn, typeIn, hes', Option.bind_some, hft, ht.outline_eq]
  | arithmetic hop _ _ hx _ _ ihl ihr =>
    simp only [Fragment.typeIn, typeIn, hop, if_true]
    rw [hx, Mixture.of_congr ihl ihr]
    rfl
  | comparison hop =>
    simp only [Fragment.typeIn, typeIn]
    rw [if_neg fun h => not_mem_relational h hop]
  | both | either => rfl
  | call hs _ _ hparts _ _ _ =>
    obtain ⟨s, hs, hst⟩ := henv.find?_some hs
    rw [← Node.funcParts?_outline, ← hst.type, Node.funcParts?_outline] at hparts
    simp [Fragment.typeIn, typeIn, hs, hparts]
  | number | decimal | text | truth | nil | array | arrayOf => rfl
  | struct hs | structOf hs =>
    obtain ⟨s, hs, hst⟩ := henv.find?_some hs
    simp [Fragment.typeIn, typeIn, hs, hst.type]
  | noArgs | arg | noCells | noElems | elem | noFields | fieldOf => rfl
  | @index t i is f c u g e b h d v k _ he _ _ _ _ ih =>
    simpa [Fragment.typeIn, cellType, he] using ih

/-! ## The slots that code takes for itself -/

mutual

/-- The number of slots that the code of an expression takes: one for each array and each
struct that is filled. -/
def temps : Node → Nat
  | .cell a is => temps a + tempsAll is
  | .field r _ | .pair _ r => temps r
  | .binary _ l r => temps l + temps r
  | .call _ as => tempsAll as
  | .arrayLit ds _ v => tempsAll ds + temps v
  | .structLit _ es | .list es => if es.isEmpty then 0 else 1 + tempsAll es
  | _ => 0

/-- The number of slots that expressions in a row take. -/
def tempsAll : List Node → Nat
  | [] => 0
  | e :: es => temps e + tempsAll es

end

attribute [local simp] temps tempsAll

/-- The number of slots that the code of a part takes. -/
def Fragment.temps : Fragment → Nat
  | expr e => MiniGoc.temps e
  | args es | cells _ es | elems _ _ _ _ es | fields _ _ _ es => tempsAll es

theorem Coded.index_eq {part : Fragment} (h : Coded env part f c t g) :
    g.index = f.index + part.temps := by
  induction h with
  | name h => simpa [Fragment.temps, temps] using h.sameCounters.index
  | cell _ _ iha ihis =>
    simp only [Fragment.temps, temps] at *
    omega
  | field _ _ _ ht _ _ hd ih =>
    simpa [Fragment.temps, temps, hd.sameCounters.index, ht.sameCounters.index] using ih
  | arithmetic _ _ _ _ hw hd ihl ihr =>
    have hindex := hd.sameCounters.index.trans hw.sameCounters.index
    simp only [Fragment.temps, temps, Frame.pushed_index] at *
    omega
  | comparison _ _ _ hc ihl ihr =>
    have hindex := hc.sameCounters.index
    simp only [Fragment.temps, temps, Frame.labelled] at *
    omega
  | both _ _ hd ihl ihr | either _ _ hd ihl ihr =>
    have hindex := hd.sameCounters.index
    simp only [Fragment.temps, temps, Frame.pushed_index] at *
    omega
  | call _ _ _ _ _ hd ih =>
    exact (sameCounters_resultFrame _ _).index.trans (hd.sameCounters.index.trans ih)
  | number | decimal | text | truth | nil => simp [Fragment.temps, temps]
  | array _ _ hd ih =>
    simpa [Fragment.temps, temps, tempsAll, hd.sameCounters.index] using ih
  | arrayOf _ _ hd hd' _ ih ih' =>
    have hindex := hd.sameCounters.index
    have hindex' := hd'.sameCounters.index
    simp only [Fragment.temps, temps, Frame.pushed_index, Frame.indexed, List.isEmpty_cons,
      Bool.false_eq_true, if_false] at *
    omega
  | struct _ _ hd => simpa [Fragment.temps, temps] using hd.sameCounters.index
  | structOf _ _ hd _ hd' _ ih =>
    have hindex := hd.sameCounters.index
    have hindex' := hd'.sameCounters.index
    simp only [Fragment.temps, temps, Frame.pushed_index, Frame.indexed, List.isEmpty_cons,
      Bool.false_eq_true, if_false] at *
    omega
  | noArgs | noCells | noElems | noFields => simp [Fragment.temps, tempsAll]
  | arg _ _ ih ih' =>
    simp only [Fragment.temps, tempsAll] at *
    omega
  | index _ _ _ hd _ ih ih' | elem _ _ _ hd _ ih ih' | fieldOf _ _ _ _ _ hd _ ih ih' =>
    have hindex := hd.sameCounters.index
    simp only [Fragment.temps, temps, tempsAll, Frame.pushed_index] at *
    omega

/-- The number of slots that are in use after a statement and were not before it.  A block
gives all of its slots back. -/
def stmtTemps : Node → Nat
  | .var _ _ e | .const _ _ e | .ret e => temps e
  | .assign t e => temps t + temps e
  | .ifElse c y n => temps c + stmtTemps y + stmtTemps n
  | .call _ as => tempsAll as
  | _ => 0

/-- The number of slots that are in use after statements in a row and were not before. -/
def membersTemps : List Node → Nat
  | [] => 0
  | m :: ms => stmtTemps m + membersTemps ms

def Stage.temps : Stage → Nat
  | stmt m => stmtTemps m
  | members ms => membersTemps ms

theorem Printed.index_eq {stage : Stage} (h : Printed env stage f c g) :
    g.index = f.index + stage.temps := by
  induction h with
  | var _ _ h _ hd | const _ _ h _ hd => exact hd.sameCounters.index.trans h.index_eq
  | zero _ _ _ _ hd => simpa [Stage.temps, stmtTemps, MiniGoc.temps] using hd.sameCounters.index
  | assignSlot _ _ h _ hd | assignStatic _ _ h _ hd =>
    have hindex := hd.sameCounters.index.trans h.index_eq
    simpa [Stage.temps, stmtTemps, Fragment.temps, MiniGoc.temps] using hindex
  | assignCell ha his _ ht _ hd he =>
    have ha := ha.index_eq
    have his := his.index_eq
    have he := he.index_eq
    have hindex := hd.sameCounters.index.trans ht.sameCounters.index
    simp only [Stage.temps, stmtTemps, Fragment.temps, MiniGoc.temps] at *
    omega
  | assignField ha _ _ ht _ _ hd he =>
    have ha := ha.index_eq
    have he := he.index_eq
    have hindex := hd.sameCounters.index.trans ht.sameCounters.index
    simp only [Stage.temps, stmtTemps, Fragment.temps, MiniGoc.temps] at *
    omega
  | block | breakLoop | continueLoop | leave | noMembers =>
    simp [Stage.temps, stmtTemps, membersTemps, MiniGoc.temps, Frame.left]
  | ifOnly hc hd _ ih =>
    have hc := hc.index_eq
    have hindex := hd.sameCounters.index
    simp only [Stage.temps, stmtTemps, Fragment.temps, Frame.labelled] at *
    omega
  | ifElse hc hd _ _ _ ih ih' =>
    have hc := hc.index_eq
    have hindex := hd.sameCounters.index
    simp only [Stage.temps, stmtTemps, Fragment.temps, Frame.labelled] at *
    omega
  | ret h _ hd => exact hd.sameCounters.index.trans h.index_eq
  | call h => exact h.index_eq
  | member _ _ ih ih' =>
    simp only [Stage.temps, membersTemps] at *
    omega

/-! ## The first pass over a block -/

/-- The name, the type and the slot of the symbol that a member of a block gets, if it gets
one, where `i` is the first slot that is free. -/
def taken (outer locals : List Symbol) (i : Int) : Node → Option (String × Node × Int)
  | .var n t e =>
    if t.truthy then some (n, writtenType t, i)
    else some (n, typeIn (locals ++ outer) e, i + temps e)
  | .const n _ e => some (n, typeIn (locals ++ outer) e, i + temps e)
  | .assign (.id n) e =>
    if (Symbol.find? n outer).isSome then none
    else some (n, typeIn (locals ++ outer) e, i + temps e)
  | _ => none

/-- The symbols that the members of a block get, one place for each member, and the first
slot that is free after the first pass. -/
def takes (outer : List Symbol) : List Symbol → Int → List Node → List (Option Symbol) × Int
  | _, i, [] => ([], i)
  | locals, i, m :: ms =>
    match taken outer locals i m with
    | some (n, t, j) =>
      let rest := takes outer (locals ++ [.localVar n t j]) (j + 1) ms
      (some (.localVar n t j) :: rest.1, rest.2)
    | none =>
      let rest := takes outer locals i ms
      (none :: rest.1, rest.2)

section Takes

variable {outer locals : List Symbol} {i j : Int} {m t : Node} {ms : List Node} {n : String}

theorem takes_cons_none (h : taken outer locals i m = none) :
    takes outer locals i (m :: ms) =
      (none :: (takes outer locals i ms).1, (takes outer locals i ms).2) := by
  simp only [takes, h]

theorem takes_cons_some (h : taken outer locals i m = some (n, t, j)) :
    takes outer locals i (m :: ms) =
      (some (.localVar n t j) :: (takes outer (locals ++ [Symbol.localVar n t j]) (j + 1) ms).1,
        (takes outer (locals ++ [Symbol.localVar n t j]) (j + 1) ms).2) := by
  simp only [takes, h]

end Takes

theorem taken_eq_none {outer locals : List Symbol} {i : Int} {m : Node}
    (h : m.introduced? = none) : taken outer locals i m = none := by
  cases m with
  | var | const => cases h
  | assign t e =>
    cases t with
    | id => cases h
    | _ => rfl
  | _ => rfl

theorem Introduces.taken {L outer locals : List Symbol} (houter : Alike E outer)
    (hlocals : Alike L locals) {m : Node} {n : String} (h : Introduces outer locals m f n u g) :
    ∃ t, taken E L f.index m = some (n, t, g.index) ∧ t.outline = u.outline := by
  have henv := hlocals.append houter
  cases h with
  | @typed n t i f u g ht hu =>
    exact ⟨writtenType t, by simp [MiniGoc.taken, ht, hu.sameCounters.index], hu.outline_eq.symm⟩
  | @untyped n i f c u g hc =>
    exact ⟨typeIn (L ++ E) i, by rw [hc.index_eq]; rfl, (hc.outline_eq henv).symm⟩
  | @constant n t i f c u g _ hc =>
    exact ⟨typeIn (L ++ E) i, by rw [hc.index_eq]; rfl, (hc.outline_eq henv).symm⟩
  | @assigned n e f c u g hn hc =>
    refine ⟨typeIn (L ++ E) e, ?_, (hc.outline_eq henv).symm⟩
    rw [hc.index_eq]
    simp [MiniGoc.taken, houter.find?_none hn, Fragment.temps]

/-- The names of a block are those that were computed. -/
theorem Declared.takes {outer ls : List Symbol} (houter : Alike E outer) {p : Gen.Pass}
    {ms : List Node} (h : Declared outer p ms f c ls g) {L : List Symbol}
    (hlocals : Alike L p.locals) :
    Alike (L ++ (takes E L f.index ms).1.reduceOption) ls ∧
      g.index = (takes E L f.index ms).2 := by
  induction h generalizing L with
  | done => simpa [MiniGoc.takes] using hlocals
  | @take p m ms f n u g s d c ls h hm _ _ _ ih =>
    obtain ⟨t, htaken, ht⟩ := hm.taken houter hlocals
    have hnext : Alike (L ++ [Symbol.localVar n t g.index]) (p.noting m n u g.index).locals :=
      hlocals.append (.cons ⟨rfl, rfl, ht⟩ .nil)
    simpa [takes_cons_some htaken, Frame.indexed] using ih hnext
  | @known p n e ms f x slot u s d c ls h hx _ _ _ _ _ ih =>
    obtain ⟨s, hs, -⟩ := houter.find?_some hx
    have htaken : MiniGoc.taken E L f.index (.assign (.id n) e) = none := by
      simp [MiniGoc.taken, hs]
    simpa [takes_cons_none htaken] using ih hlocals
  | skip hm _ ih => simpa [takes_cons_none (taken_eq_none hm)] using ih hlocals

end MiniGoc
