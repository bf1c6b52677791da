import MiniGoc.Proofs.Demands

/-!
# Block scoping

A block is read twice, and the second time all names that it introduces are known.  So a
name that is used before its declaration is found in the block, where block scoping selects
a variable outside of it.  The load or store of a name is that of the selected variable
exactly if the two lookups agree (`scoping_iff`).

They agree in a function that is *orderly*: between the start of a block and the declaration
of one of its names, the name is not used.  `orderly` checks this on the source alone, and
keeps the list of the names that are *late*: those that the generator already finds, and
block scoping does not yet.
-/

namespace MiniGoc

open Emit

/-! ## The variable that block scoping selects -/

namespace Demand

/-- The demand with the place that block scoping selects as the one where it is found. -/
def lexical : Demand → Demand
  | use k x _ selected => use k x selected selected
  | d => d

/-- The effect is what was asked for, where a variable is the one that block scoping selects. -/
def Selects (d : Demand) (e : Effect) : Prop := d.lexical.Emits e

theorem lexical_use {k : Access} {x : String} {a b : Option Address} (h : a = b) :
    (use k x a b).lexical = use k x a b := by
  subst h
  rfl

/-- An effect that was asked for goes to the selected variable if the lookups agree. -/
theorem Emits.selects_iff {d : Demand} {e : Effect} (h : d.Emits e) :
    d.Selects e ↔ d.lexical = d := by
  cases h with
  | @use k x a b =>
    simp only [Selects, lexical, Demand.use.injEq, true_and, and_true]
    constructor
    · intro h
      cases h
      rfl
    · rintro rfl
      exact .use
  | temp => exact ⟨fun _ => rfl, fun _ => .temp⟩
  | call => exact ⟨fun _ => rfl, fun _ => .call⟩

end Demand

/-- All lookups agree. -/
def Lexical (ds : List Demand) : Prop := ∀ d ∈ ds, d.lexical = d

namespace Lexical

variable {ds es : List Demand}

theorem nil : Lexical [] := by simp [Lexical]

theorem append (hds : Lexical ds) (hes : Lexical es) : Lexical (ds ++ es) :=
  fun d hd => (List.mem_append.1 hd).elim (hds d) (hes d)

theorem use {k : Access} {x : String} {a b : Option Address} (h : a = b) :
    Lexical [.use k x a b] := by
  simp [Lexical, Demand.lexical_use h]

theorem temp : Lexical [.temp] := by simp [Lexical, Demand.lexical]

theorem call {f : String} {o : Option String} : Lexical [.call f o] := by
  simp [Lexical, Demand.lexical]

theorem lost : Lexical (ds.map .lost) := by simp [Lexical, Demand.lexical]

theorem kept (hds : Lexical ds) : Lexical (kept ds) := fun d hd => hds d (List.mem_filter.1 hd).1

end Lexical

variable {c : Code} {env scope ss : List Symbol} {x : String}

/-- Code that does what is asked for goes to the variables that block scoping selects exactly
if all lookups agree. -/
theorem Answers.selects_iff {ds : List Demand} (h : Answers ds c) :
    List.Forall₂ Demand.Selects (kept ds) c.effects ↔ Lexical (kept ds) := by
  unfold Answers at h
  generalize kept ds = demands at h ⊢
  generalize c.effects = effects at h ⊢
  induction h with
  | nil => exact ⟨fun _ => .nil, fun _ => .nil⟩
  | cons hd _ ih =>
    rw [List.forall₂_cons, hd.selects_iff, ih]
    simp only [Lexical, List.forall_mem_cons]

/-! ## Names that are used before their declaration -/

mutual

/-- The names that an expression reads. -/
def readNames : Node → List String
  | .id x => [x]
  | .cell a is => readNames a ++ readNamesAll is
  | .field e _ | .pair _ e => readNames e
  | .binary _ l r => readNames l ++ readNames r
  | .call _ as => readNamesAll as
  | .arrayLit ds _ v => readNamesAll ds ++ readNames v
  | .structLit _ es | .list es => readNamesAll es
  | _ => []

/-- The names that expressions in a row read. -/
def readNamesAll : List Node → List String
  | [] => []
  | e :: es => readNames e ++ readNamesAll es

end

def Fragment.readNames : Fragment → List String
  | expr e => MiniGoc.readNames e
  | args es | cells _ es | elems _ _ _ _ es | fields _ _ _ es => readNamesAll es

/-- The two lookups of a name agree. -/
def AgreeOn (env scope : List Symbol) (xs : List String) : Prop :=
  ∀ x ∈ xs, addressIn env x = addressIn scope x

theorem agreeOn_append {xs ys : List String} :
    AgreeOn env scope (xs ++ ys) ↔ AgreeOn env scope xs ∧ AgreeOn env scope ys :=
  List.forall_mem_append

/-- The lookups of an expression agree if those of the names that it reads do. -/
theorem Coded.lexical {E : List Symbol} {part : Fragment} {f g : Frame} {t : Node}
    (h : Coded env part f c t g) (hread : AgreeOn E scope part.readNames) :
    Lexical (part.demands E scope) := by
  induction h with
  | name => exact .use (hread _ (List.mem_singleton_self _))
  | cell _ _ iha ihis | arg _ _ iha ihis =>
    obtain ⟨ha, his⟩ := agreeOn_append.1 hread
    exact (iha ha).append (ihis his)
  | field _ _ _ _ _ _ _ ih => exact ih hread
  | arithmetic _ _ _ _ _ _ ihl ihr | comparison _ _ _ _ ihl ihr | both _ _ _ ihl ihr
  | either _ _ _ ihl ihr =>
    obtain ⟨hl, hr⟩ := agreeOn_append.1 hread
    simp only [Fragment.demands, exprDemands]
    split
    · exact .lost
    · exact (ihl hl).append (ihr hr)
  | call _ _ _ _ _ _ ih => exact (ih hread).append .call
  | number | decimal | text | truth | nil | struct => exact .nil
  | noArgs | noCells | noElems | noFields => exact .nil
  | array _ _ _ ih =>
    obtain ⟨hd, -⟩ := agreeOn_append.1 hread
    exact (ih hd).append .nil
  | arrayOf _ _ _ _ _ ih ih' =>
    obtain ⟨hd, hes⟩ := agreeOn_append.1 hread
    exact (ih hd).append ((Lexical.temp.append (ih' hes)).append .temp)
  | structOf _ _ _ _ _ _ ih => exact (Lexical.temp.append (ih hread)).append .temp
  | index _ _ _ _ _ ih ih' =>
    obtain ⟨he, hes⟩ := agreeOn_append.1 hread
    exact (ih he).append (ih' hes)
  | elem _ _ _ _ _ ih ih' | fieldOf _ _ _ _ _ _ _ ih ih' =>
    obtain ⟨he, hes⟩ := agreeOn_append.1 hread
    exact (Lexical.temp.append (ih he)).append (ih' hes)

/-- The name that a member introduces into a block, where some names are known outside. -/
def introducedName (outer : List String) : Node → Option String
  | .var n _ _ | .const n _ _ => some n
  | .assign (.id n) _ => if n ∈ outer then none else some n
  | _ => none

/-- Whether no name of a list is late. -/
def clear (late xs : List String) : Bool := xs.all (· ∉ late)

mutual

/-- Whether a statement, which introduces a name into a block or does not, uses no name that
is late, and declares only names that are. -/
def orderly (known late : List String) (introduces : Bool) : Node → Bool
  | .var n _ e | .const n _ e => clear late (readNames e) && introduces && n ∈ late
  | .assign t e => clear late (readNames e) && (introduces || clear late (readNames t))
  | .block ms =>
    let names := ms.filterMap (introducedName known)
    orderlyMembers known (names ++ known) (names ++ late) ms
  | .ifElse c y n =>
    clear late (readNames c) && orderly known late false y && orderly known late false n
  | .ret e => clear late (readNames e)
  | _ => true

/-- Whether the members of a block are orderly, where the names in `outer` are known outside
of the block.  A name that has been introduced is no longer late. -/
def orderlyMembers (outer known late : List String) : List Node → Bool
  | [] => true
  | m :: ms =>
    orderly known late (introducedName outer m).isSome m &&
      orderlyMembers outer known (late.filter (introducedName outer m ≠ some ·)) ms

end

attribute [local simp] orderly

/-! ### Lookups in longer environments -/

def symbolNames (ss : List Symbol) : List String := ss.map Symbol.name

@[simp] theorem symbolNames_append (ss ts : List Symbol) :
    symbolNames (ss ++ ts) = symbolNames ss ++ symbolNames ts := List.map_append

theorem find?_eq_none_iff : Symbol.find? x ss = none ↔ x ∉ symbolNames ss := by
  simp [Symbol.find?_eq_none, symbolNames]

theorem addressIn_append_of_mem (h : x ∈ symbolNames ss) (ts : List Symbol) :
    addressIn (ss ++ ts) x = addressIn ss x := by
  cases hs : Symbol.find? x ss with
  | none => exact absurd h (find?_eq_none_iff.1 hs)
  | some s => simp [addressIn, Symbol.find?_append, hs]

theorem addressIn_append_of_not_mem (h : x ∉ symbolNames ss) (ts : List Symbol) :
    addressIn (ss ++ ts) x = addressIn ts x := by
  simp [addressIn, Symbol.find?_append, find?_eq_none_iff.2 h]

theorem addressIn_append_left {ts : List Symbol} (h : x ∉ symbolNames ts) (ss : List Symbol) :
    addressIn (ss ++ ts) x = addressIn ss x := by
  simp [addressIn, Symbol.find?_append, find?_eq_none_iff.2 h]

theorem map_taken (outer L : List Symbol) (i : Int) (m : Node) :
    (taken outer L i m).map Prod.fst = introducedName (symbolNames outer) m := by
  cases m with
  | var n t e =>
    simp only [taken, introducedName]
    split <;> rfl
  | assign t e =>
    cases t with
    | id n =>
      simp only [taken, introducedName, Option.isSome_iff_ne_none, ne_eq, find?_eq_none_iff,
        not_not]
      split <;> rfl
    | _ => rfl
  | _ => rfl

theorem symbolNames_takes (outer L : List Symbol) (i : Int) (ms : List Node) :
    symbolNames (takes outer L i ms).1.reduceOption =
      ms.filterMap (introducedName (symbolNames outer)) := by
  induction ms generalizing L i with
  | nil => rfl
  | cons m ms ih =>
    have hname := map_taken outer L i m
    cases htaken : taken outer L i m with
    | none =>
      rw [htaken] at hname
      rw [takes_cons_none htaken, List.filterMap_cons_none hname.symm]
      exact ih L i
    | some p =>
      obtain ⟨n, t, j⟩ := p
      rw [htaken] at hname
      rw [takes_cons_some htaken, List.filterMap_cons_some hname.symm]
      exact congrArg (n :: ·) (ih _ _)

/-! ### Orderly statements -/

/-- The names that the generator finds and those that block scoping selects from, where some
names are late. -/
structure Agree (env scope : List Symbol) (late : List String) : Prop where
  address : ∀ x ∉ late, addressIn env x = addressIn scope x
  found : ∀ x ∈ symbolNames env, x ∉ late → x ∈ symbolNames scope
  known : ∀ x ∈ symbolNames scope, x ∈ symbolNames env

/-- The symbol that a member of a block got, if it got one, is the one that is found. -/
def Settled (env scope : List Symbol) (late : List String) (own : Option Symbol) : Node → Prop
  | .var n _ _ | .const n _ _ => own.isSome → n ∈ late → addressIn env n = addressIn own.toList n
  | .assign (.id n) _ => own.isSome → addressIn env n = addressIn (scope ++ own.toList) n
  | _ => own = none

theorem settled_none (env scope : List Symbol) (late : List String) (m : Node) :
    Settled env scope late none m := by
  cases m with
  | var | const => nofun
  | assign t e =>
    cases t with
    | id => nofun
    | _ => rfl
  | _ => rfl

theorem Agree.agreeOn {late xs : List String} (h : Agree env scope late) (hxs : clear late xs) :
    AgreeOn env scope xs := by
  intro x hx
  apply h.address
  simpa using List.all_eq_true.1 hxs x hx

/-- In the middle of a block: the symbols of the members before, which are passed, and of
those to come, in an environment around the block. -/
structure Midway (outer before after scope : List Symbol) (late : List String) : Prop extends
    Agree (before ++ after ++ outer) scope late where
  passed : ∀ x ∈ symbolNames before, x ∉ late
  seen : ∀ x ∈ symbolNames scope, x ∈ symbolNames (before ++ outer)

namespace Midway

variable {outer before after scope scope' : List Symbol} {late : List String} {s : Symbol}

/-- A name that is late is that of the next symbol of this name. -/
theorem addressIn_late (h : Midway outer before (s :: after) scope late) (hs : s.name ∈ late) :
    addressIn (before ++ s :: after ++ outer) s.name = addressIn [s] s.name := by
  have hbefore : s.name ∉ symbolNames before := fun hx => h.passed _ hx hs
  have hself : s.name ∈ symbolNames [s] := List.mem_singleton_self _
  rw [List.append_assoc, addressIn_append_of_not_mem hbefore]
  exact addressIn_append_of_mem hself (after ++ outer)

theorem addressIn_assigned (h : Midway outer before (s :: after) scope late)
    (hs : s.name ∉ symbolNames outer) :
    addressIn (before ++ s :: after ++ outer) s.name = addressIn (scope ++ [s]) s.name := by
  by_cases hlate : s.name ∈ late
  · have hscope : s.name ∉ symbolNames scope := by
      intro hx
      rcases List.mem_append.1 (symbolNames_append .. ▸ h.seen _ hx) with hx | hx
      · exact h.passed _ hx hlate
      · exact hs hx
    rw [h.addressIn_late hlate, addressIn_append_of_not_mem hscope]
  · have hscope : s.name ∈ symbolNames scope := h.found _ (by simp [symbolNames]) hlate
    rw [h.address _ hlate, addressIn_append_of_mem hscope]

/-- After a member the name of its symbol is in scope, and no longer late. -/
theorem next (h : Midway outer before (s :: after) scope late)
    (hself : addressIn (before ++ s :: after ++ outer) s.name = addressIn scope' s.name)
    (hother : ∀ x, s.name ≠ x → addressIn scope' x = addressIn scope x)
    (hnames : ∀ x, x ∈ symbolNames scope' ↔ s.name = x ∨ x ∈ symbolNames scope) :
    Midway outer (before ++ [s]) after scope' (late.filter (some s.name ≠ some ·)) := by
  have hlate (x : String) : x ∉ late.filter (some s.name ≠ some ·) ↔ x ∉ late ∨ s.name = x := by
    simp [or_iff_not_imp_left]
  have henv : before ++ [s] ++ after ++ outer = before ++ s :: after ++ outer := by simp
  refine ⟨⟨?_, ?_, ?_⟩, ?_, ?_⟩
  · intro x hx
    rw [henv]
    by_cases hsx : s.name = x
    · subst hsx
      exact hself
    · rw [hother x hsx]
      exact h.address x (((hlate x).1 hx).resolve_right hsx)
  · intro x hx hx'
    rw [henv] at hx
    rw [hnames]
    exact ((hlate x).1 hx').elim (fun hx' => .inr (h.found x hx hx')) .inl
  · intro x hx
    rw [henv]
    rcases (hnames x).1 hx with rfl | hx
    · simp [symbolNames]
    · exact h.known x hx
  · intro x hx
    rw [hlate]
    rcases List.mem_append.1 (symbolNames_append .. ▸ hx) with hx | hx
    · exact .inl (h.passed x hx)
    · exact .inr (List.mem_singleton.1 hx).symm
  · intro x hx
    rcases (hnames x).1 hx with rfl | hx
    · simp [symbolNames]
    · have := h.seen x hx
      simp only [symbolNames_append, List.mem_append] at this ⊢
      exact this.imp_left .inl

theorem declare (h : Midway outer before (s :: after) scope late) (hs : s.name ∈ late) :
    Midway outer (before ++ [s]) after ([s] ++ scope) (late.filter (some s.name ≠ some ·)) := by
  refine h.next ?_ ?_ ?_
  · rw [h.addressIn_late hs, addressIn_append_of_mem (List.mem_singleton_self _)]
  · intro x hx
    exact addressIn_append_of_not_mem (fun hx' => hx (List.mem_singleton.1 hx').symm) scope
  · intro x
    simp [symbolNames, eq_comm]

theorem assign (h : Midway outer before (s :: after) scope late)
    (hs : s.name ∉ symbolNames outer) :
    Midway outer (before ++ [s]) after (scope ++ [s]) (late.filter (some s.name ≠ some ·)) := by
  refine h.next (h.addressIn_assigned hs) ?_ ?_
  · intro x hx
    exact addressIn_append_left (fun hx' => hx (List.mem_singleton.1 hx').symm) scope
  · intro x
    simp [symbolNames, eq_comm, or_comm]

/-- The symbol that a member introduces is the one that is found. -/
theorem settled (h : Midway outer before (s :: after) scope late) {m : Node}
    (hm : introducedName (symbolNames outer) m = some s.name) :
    Settled (before ++ s :: after ++ outer) scope late (some s) m := by
  cases m with
  | var | const =>
    cases hm
    exact fun _ => h.addressIn_late
  | assign t e =>
    cases t with
    | id n =>
      simp only [introducedName] at hm
      split at hm
      · cases hm
      · next hn =>
        cases hm
        exact fun _ => h.addressIn_assigned hn
    | _ => cases hm
  | _ => cases hm

/-- After a member that introduces a symbol. -/
theorem member (h : Midway outer before (s :: after) scope late) {m : Node}
    (hm : introducedName (symbolNames outer) m = some s.name) {known : List String}
    (horderly : orderly known late true m) :
    Midway outer (before ++ [s]) after (MiniGoc.passed scope (some s) m)
      (late.filter (some s.name ≠ some ·)) := by
  cases m with
  | var | const =>
    cases hm
    simp only [orderly, Bool.and_eq_true, decide_eq_true_eq] at horderly
    exact h.declare horderly.2
  | assign t e =>
    cases t with
    | id n =>
      simp only [introducedName] at hm
      split at hm
      · cases hm
      · next hn =>
        cases hm
        exact h.assign hn
    | _ => cases hm
  | _ => cases hm

end Midway

/-- At the start of a block all its names are late. -/
theorem Agree.enter {env scope : List Symbol} {late : List String} (h : Agree env scope late)
    (names : List Symbol) : Midway env [] names scope (symbolNames names ++ late) := by
  refine ⟨⟨?_, ?_, ?_⟩, by simp [symbolNames], h.known⟩
  · intro x hx
    simp only [List.mem_append, not_or] at hx
    rw [List.nil_append, addressIn_append_of_not_mem hx.1]
    exact h.address x hx.2
  · intro x hx hx'
    simp only [List.nil_append, symbolNames_append, List.mem_append, not_or] at hx hx'
    exact h.found x (hx.resolve_left hx'.1) hx'.2
  · intro x hx
    simp only [List.nil_append, symbolNames_append, List.mem_append]
    exact .inr (h.known x hx)

/-- All lookups of what is printed agree, where it is orderly. -/
def Stage.Agrees : Stage → Prop
  | stmt m => ∀ {env scope late own}, Agree env scope late → Settled env scope late own m →
      orderly (symbolNames env) late own.isSome m → ∀ i, Lexical (stmtDemands env scope own i m)
  | members ms => ∀ {outer before i scope late owns}, (takes outer before i ms).1 = owns →
      Midway outer before owns.reduceOption scope late →
      orderlyMembers (symbolNames outer) (symbolNames (before ++ owns.reduceOption ++ outer)) late
        ms →
      ∀ j, Lexical (membersDemands (before ++ owns.reduceOption ++ outer) scope owns j ms)

theorem passed_none (scope : List Symbol) (m : Node) : passed scope none m = scope := by
  cases m with
  | assign => exact List.append_nil scope
  | _ => rfl

/-- The lookups of an orderly statement agree. -/
theorem Printed.agrees {stage : Stage} {f g : Frame} (h : Printed env stage f c g) :
    stage.Agrees := by
  induction h with
  | var _ _ h _ _ | const _ _ h _ _ =>
    intro env scope late own hagree hown horderly i
    simp only [orderly, Bool.and_eq_true, decide_eq_true_eq] at horderly
    obtain ⟨⟨he, hsome⟩, hn⟩ := horderly
    exact (h.lexical (hagree.agreeOn he)).append (.use (hown hsome hn))
  | zero =>
    intro env scope late own hagree hown horderly i
    simp only [orderly, Bool.and_eq_true, decide_eq_true_eq] at horderly
    exact Lexical.nil.append (.use (hown horderly.1.2 horderly.2))
  | @assignSlot _ n _ _ _ _ _ _ _ _ _ _ _ h _ _ | @assignStatic _ n _ _ _ _ _ _ _ _ _ _ _ _ h _ _ =>
    intro env scope late own hagree hown horderly i
    simp only [orderly, Bool.and_eq_true, Bool.or_eq_true] at horderly
    have hn : addressIn env n = addressIn (scope ++ own.toList) n := by
      rcases horderly.2 with hsome | hclear
      · exact hown hsome
      · cases own with
        | none =>
          rw [Option.toList_none, List.append_nil]
          exact hagree.agreeOn hclear n (List.mem_singleton_self _)
        | some s => exact hown rfl
    exact (h.lexical (hagree.agreeOn horderly.1)).append (.use hn)
  | assignCell ha his _ _ _ _ he =>
    intro env scope late own hagree hown horderly i
    cases hown
    simp only [orderly, Bool.and_eq_true, Option.isSome_none, Bool.false_or] at horderly
    obtain ⟨ha', his'⟩ := agreeOn_append.1 (hagree.agreeOn horderly.2)
    have place := (ha.lexical ha').append (his.lexical his')
    exact (place.append (he.lexical (hagree.agreeOn horderly.1))).append .nil
  | assignField ha _ _ _ _ _ _ he =>
    intro env scope late own hagree hown horderly i
    cases hown
    simp only [orderly, Bool.and_eq_true, Option.isSome_none, Bool.false_or] at horderly
    have place := ha.lexical (hagree.agreeOn horderly.2)
    exact (place.append (he.lexical (hagree.agreeOn horderly.1))).append .nil
  | @block _ ms _ _ _ _ _ _ _ _ ih =>
    intro env scope late own hagree hown horderly i
    have hnames := symbolNames_takes env [] i ms
    refine ih rfl (hagree.enter _) ?_ _
    rw [List.nil_append, symbolNames_append, hnames]
    exact horderly
  | ifOnly hc _ _ ih =>
    intro env scope late own hagree hown horderly i
    simp only [orderly, Bool.and_eq_true] at horderly
    obtain ⟨⟨hcond, hyes⟩, -⟩ := horderly
    exact ((hc.lexical (hagree.agreeOn hcond)).append
      (ih hagree (settled_none ..) hyes _)).append .nil
  | ifElse hc _ _ _ _ ih ih' =>
    intro env scope late own hagree hown horderly i
    simp only [orderly, Bool.and_eq_true] at horderly
    obtain ⟨⟨hcond, hyes⟩, hno⟩ := horderly
    exact ((hc.lexical (hagree.agreeOn hcond)).append
      (ih hagree (settled_none ..) hyes _)).append (ih' hagree (settled_none ..) hno _)
  | breakLoop | continueLoop | leave => exact fun _ _ _ _ => .nil
  | ret h _ _ => exact fun hagree _ horderly _ => h.lexical (hagree.agreeOn horderly)
  | call => exact fun _ _ _ _ => .lost
  | noMembers => exact fun _ _ _ _ => .nil
  | @member _ m ms _ _ _ _ _ _ _ ih ih' =>
    intro outer before i scope late owns howns hmid horderly j
    have hname := map_taken outer before i m
    simp only [orderlyMembers, Bool.and_eq_true] at horderly
    obtain ⟨hm, hms⟩ := horderly
    cases htaken : taken outer before i m with
    | none =>
      rw [takes_cons_none htaken] at howns
      rw [htaken] at hname
      rw [← hname] at hm hms
      subst howns
      have hpassed : passed scope none m = scope := passed_none scope m
      have rest := ih' rfl hmid (by simpa using hms) (j + stmtTemps m)
      refine (ih hmid.toAgree (settled_none ..) hm j).append ?_
      rw [← hpassed] at rest
      exact rest
    | some p =>
      obtain ⟨n, t, k⟩ := p
      rw [takes_cons_some htaken] at howns
      rw [htaken] at hname
      rw [← hname] at hm hms
      subst howns
      have henv (after : List Symbol) : before ++ [Symbol.localVar n t k] ++ after ++ outer =
          before ++ .localVar n t k :: after ++ outer := by
        simp
      have rest := ih' rfl (hmid.member hname.symm hm) (by rw [henv]; exact hms)
        (j + stmtTemps m)
      rw [henv] at rest
      exact (ih hmid.toAgree (hmid.settled hname.symm) hm j).append rest

/-! ## Functions -/

/-- The names that the generator finds elsewhere than block scoping at the start of a function:
the arguments of the command line, which the main function does not declare, and the names
that every program has, where the program declares them too. -/
def lateNames (ds : List Node) (n : String) : List String :=
  (if n = "main" then ["args"] else []) ++
    (symbolNames Symbol.builtins).filter (· ∈ symbolNames (ds.flatMap declSymbols))

/-- Whether a function of a program is orderly.  The main function has no parameters. -/
def orderlyFunc (ds : List Node) : Node → Bool
  | .func n ps _ b =>
    (n ≠ "main" || ps.isEmpty) &&
      orderly (symbolNames (paramSymbols 0 (methodParams n ps) ++ globalSymbols ds))
        (lateNames ds n) false b
  | _ => true

theorem agree_globals (ds : List Node) :
    Agree (globalSymbols ds) (ds.flatMap declSymbols ++ Symbol.builtins)
      ((symbolNames Symbol.builtins).filter (· ∈ symbolNames (ds.flatMap declSymbols))) := by
  have hlate {x : String} (hx : x ∉ (symbolNames Symbol.builtins).filter
      (· ∈ symbolNames (ds.flatMap declSymbols))) (hx' : x ∈ symbolNames Symbol.builtins) :
      x ∉ symbolNames (ds.flatMap declSymbols) := by
    intro h
    exact hx (List.mem_filter.2 ⟨hx', by simpa using h⟩)
  refine ⟨?_, ?_, ?_⟩
  · intro x hx
    by_cases hbuiltin : x ∈ symbolNames Symbol.builtins
    · rw [globalSymbols, addressIn_append_of_mem hbuiltin,
        addressIn_append_of_not_mem (hlate hx hbuiltin)]
    · rw [globalSymbols, addressIn_append_of_not_mem hbuiltin, addressIn_append_left hbuiltin]
  · intro x hx _
    simp only [globalSymbols, symbolNames_append, List.mem_append] at hx ⊢
    exact hx.symm
  · intro x hx
    simp only [globalSymbols, symbolNames_append, List.mem_append] at hx ⊢
    exact hx.symm

theorem Agree.cover {late : List String} (h : Agree env scope late) (ss : List Symbol) :
    Agree (ss ++ env) (ss ++ scope) late := by
  refine ⟨?_, ?_, ?_⟩
  · intro x hx
    by_cases hss : x ∈ symbolNames ss
    · rw [addressIn_append_of_mem hss, addressIn_append_of_mem hss]
    · rw [addressIn_append_of_not_mem hss, addressIn_append_of_not_mem hss]
      exact h.address x hx
  · intro x hx hx'
    simp only [symbolNames_append, List.mem_append] at hx ⊢
    exact hx.imp_right fun hx => h.found x hx hx'
  · intro x hx
    simp only [symbolNames_append, List.mem_append] at hx ⊢
    exact hx.imp_right (h.known x)

theorem agree_start {ds : List Node} {n : String} {ps : List Node}
    (hmain : n ≠ "main" ∨ ps = []) :
    Agree (paramSymbols 0 (methodParams n ps) ++ globalSymbols ds)
      (paramSymbols 0 (ps.map Node.paramParts) ++ ds.flatMap declSymbols ++ Symbol.builtins)
      (lateNames ds n) := by
  by_cases hn : n = "main"
  · obtain rfl := hmain.resolve_left (not_not_intro hn)
    subst hn
    exact ((agree_globals ds).enter [.localVar "args" Gen.commandLine 0]).toAgree
  · simp only [methodParams, lateNames, hn, if_false, List.nil_append, List.append_assoc]
    exact (agree_globals ds).cover _

theorem BodyOf.agrees {ds : List Node} {d : Node} {m : String × Code}
    (h : BodyOf (globalSymbols ds) d m) (horderly : orderlyFunc ds d) :
    Lexical (funcDemands ds d) := by
  cases h with
  | @intro n ps r b body hbody =>
    cases hbody with
    | intro _ hb _ _ =>
      simp only [orderlyFunc, Bool.and_eq_true, Bool.or_eq_true, decide_eq_true_eq,
        List.isEmpty_iff] at horderly
      exact hb.agrees (agree_start horderly.1) (settled_none ..) horderly.2 _

/-- In the method of a function, the loads and stores are those of the names that the function
uses, as the generator finds them.  They are those of the variables that block scoping selects
exactly if the two agree for every name, as they do if the function is orderly. -/
theorem scoping_iff {ds : List Node} {w : Workspace} (hds : (Node.program ds).isProgram)
    (hgen : Gen.run (.program ds) = (.ok (), w)) :
    ∃ code init bodies, w.files.lookup (Listing.fileName mainClass) = some (Code.render code) ∧
      code.methods = ("<clinit>", init) :: bodies ∧
      List.Forall₂ (fun d (m : String × Code) => d.name? = some m.1 ∧
        List.Forall₂ Demand.Emits (kept (funcDemands ds d)) m.2.effects ∧
        (List.Forall₂ Demand.Selects (kept (funcDemands ds d)) m.2.effects ↔
          Lexical (kept (funcDemands ds d))) ∧
        (orderlyFunc ds d →
          List.Forall₂ Demand.Selects (kept (funcDemands ds d)) m.2.effects))
        (ds.filter Node.isFunc) bodies := by
  obtain ⟨code, init, bodies, hfile, hmethods, hbodies⟩ := Gen.run_methods hds hgen
  refine ⟨code, init, bodies, hfile, hmethods, hbodies.imp fun d m hm => ?_⟩
  have hiff := hm.answers.selects_iff
  exact ⟨hm.name?_eq, hm.answers, hiff, fun horderly => hiff.2 (hm.agrees horderly).kept⟩

/-- A variable of an inner block that hides one of the program. -/
def hidingBody : List Node :=
  [.var "y" .intType (.id "x"),
   .ifElse (.binary ">" (.id "y") (.intLit (.int 0)))
     (.block [.var "x" .intType (.id "y"), .var "z" .intType (.id "x")]) .none,
   .var "z" .intType (.id "x")]

/-- A variable of the program that is read before one of the same name is declared. -/
def earlyBody : List Node :=
  [.var "y" .intType (.id "x"), .var "x" .intType (.intLit (.int 2))]

/-- A program with a variable and a main function. -/
def withGlobal (ms : List Node) : List Node :=
  [.var "x" .intType (.intLit (.int 1)), .func "main" [] .voidType (.block ms)]

theorem scoping_samples :
    (∃ code init body, (Gen.run (.program (withGlobal hidingBody))).2.files.lookup
        (Listing.fileName mainClass) = some (Code.render code) ∧
      code.methods = [("<clinit>", init), ("main", body)] ∧
      List.Forall₂ Demand.Selects
        [.use .load "x" (some (.member "MiniGoClass/x")) (some (.member "MiniGoClass/x")),
          .use .store "y" (some (.slot 1)) (some (.slot 1)),
          .use .load "y" (some (.slot 1)) (some (.slot 1)),
          .use .load "y" (some (.slot 1)) (some (.slot 1)),
          .use .store "x" (some (.slot 3)) (some (.slot 3)),
          .use .load "x" (some (.slot 3)) (some (.slot 3)),
          .use .store "z" (some (.slot 4)) (some (.slot 4)),
          .use .load "x" (some (.member "MiniGoClass/x")) (some (.member "MiniGoClass/x")),
          .use .store "z" (some (.slot 2)) (some (.slot 2))] body.effects) ∧
    (∃ code init body, (Gen.run (.program (withGlobal earlyBody))).2.files.lookup
        (Listing.fileName mainClass) = some (Code.render code) ∧
      code.methods = [("<clinit>", init), ("main", body)] ∧
      ¬ List.Forall₂ Demand.Selects
        [.use .load "x" (some (.slot 2)) (some (.member "MiniGoClass/x")),
          .use .store "y" (some (.slot 1)) (some (.slot 1)),
          .use .store "x" (some (.slot 2)) (some (.slot 2))] body.effects) := by
  constructor
  · obtain ⟨code, init, bodies, hfile, hmethods, hbodies⟩ :=
      @scoping_iff (withGlobal hidingBody) _ (by decide) (Gen.run_eq_of_isOk (by decide +kernel))
    have hfuncs : (withGlobal hidingBody).filter Node.isFunc =
        [.func "main" [] .voidType (.block hidingBody)] := rfl
    rw [hfuncs] at hbodies
    cases hbodies with
    | @cons _ main _ _ hmain hnil =>
        cases hnil
        obtain ⟨_, body⟩ := main
        obtain ⟨hname, -, -, hselects⟩ := hmain
        cases hname
        exact ⟨code, init, body, hfile, hmethods, hselects (by decide +kernel)⟩
  · obtain ⟨code, init, bodies, hfile, hmethods, hbodies⟩ :=
      @scoping_iff (withGlobal earlyBody) _ (by decide) (Gen.run_eq_of_isOk (by decide +kernel))
    have hfuncs : (withGlobal earlyBody).filter Node.isFunc =
        [.func "main" [] .voidType (.block earlyBody)] := rfl
    rw [hfuncs] at hbodies
    cases hbodies with
    | @cons _ main _ _ hmain hnil =>
        cases hnil
        obtain ⟨_, body⟩ := main
        obtain ⟨hname, -, hiff, -⟩ := hmain
        cases hname
        refine ⟨code, init, body, hfile, hmethods, fun h => ?_⟩
        have hread := hiff.1 h (.use .load "x" (some (.slot 2)) (some (.member "MiniGoClass/x")))
          (by decide +kernel)
        cases hread

end MiniGoc
