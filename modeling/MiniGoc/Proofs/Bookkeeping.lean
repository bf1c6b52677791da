import MiniGoc.Frame

/-!
# Runs of calls on a frame

A frame is only changed by calls of its operations, in any order and any number.  A call that
fails leaves what it has changed by then, and the next call goes on from there
(`Frame.Call.next`).

The operations use five stacks, and each call pushes and pops them one by one (`Frame.Stacks`).
That they never go out of step is a fact about runs: a call does to the stacks what it does to the
scopes and the loops of a frame (`Frame.act_spread`), and so does every run from a fresh frame
(`Frame.run_spread`).

What a call does to the labels and to the open scopes is said once for all calls
(`Frame.Stacks.made_eq`, `Frame.Call.next_cases`).  Over a whole run from a fresh frame the labels
are then given out in order, each once (`Frame.Stacks.made_run`), the open scopes keep labels that
grow from the outer to the inner (`Frame.Stacked`), and calls that open and close scopes in pairs
leave the scopes as they were (`Frame.Balanced.scopes_eq`).  So a scope that is closed gives back
the slots that were taken since it was opened (`Frame.bookkeeping`).
-/

namespace MiniGoc

namespace Frame

/-- A call of an operation on a frame. -/
inductive Call where
  /-- One of the counters is looked at. -/
  | look
  | newLabel
  | newIndex
  | setIndex (i : Int)
  | push
  | pop
  | checkEmpty
  | enterScope (whole : Bool)
  | exitScope
  | startLabel
  | endLabel
  | enterLoop
  | exitLoop
  | continueLabel
  | breakLabel
deriving DecidableEq, Repr

namespace Call

/-- What a call does, and the number that it gives back. -/
def act : Call → Act Frame (Option Int)
  | look => return none
  | newLabel => do return some (← Frame.newLabel)
  | newIndex => do return some (← Frame.newIndex)
  | setIndex i => do Frame.setIndex i; return none
  | push => do Frame.push; return none
  | pop => do Frame.pop; return none
  | checkEmpty => do Frame.checkEmpty; return none
  | enterScope whole => do Frame.enterScope whole; return none
  | exitScope => do Frame.exitScope; return none
  | startLabel => do return some (← Frame.startLabel)
  | endLabel => do return some (← Frame.endLabel)
  | enterLoop => do Frame.enterLoop; return none
  | exitLoop => do Frame.exitLoop; return none
  | continueLabel => do return some (← Frame.continueLabel)
  | breakLabel => do return some (← Frame.breakLabel)

/-- The frame that a call leaves, whether it fails or not. -/
def next (f : Frame) (c : Call) : Frame := (c.act.start f).2

/-- How many labels a call makes. -/
def count : Call → Nat
  | newLabel => 1
  | enterScope _ | enterLoop => 2
  | _ => 0

end Call

/-- The frame after some calls. -/
def run (f : Frame) (cs : List Call) : Frame := cs.foldl Call.next f

/-! ## Five stacks -/

/-- The counters of a method with five stacks, each with the innermost scope or loop first.
Nothing ties one stack to another. -/
structure Stacks where
  label : Nat := 0
  depth : Int := 0
  maxDepth : Int := 0
  index : Int := 0
  maxIndex : Int := 0
  /-- The labels at the starts of the open scopes. -/
  starts : List Nat := []
  /-- The labels at the ends of the open scopes. -/
  stops : List Nat := []
  /-- The slots to which the open scopes go back. -/
  saves : List Int := []
  /-- The labels where the next rounds of the open loops start. -/
  nexts : List Nat := []
  /-- The labels behind the open loops. -/
  exits : List Nat := []

namespace Stacks

def newLabel : Act Stacks Nat := do
  let s ← get
  set { s with label := s.label + 1 }
  return s.label

def pop : Act Stacks Unit := do
  modify fun s => { s with depth := s.depth - 1 }
  if (← get).depth < 0 then throw .emptyStack

def checkEmpty : Act Stacks Unit := do
  if (← get).depth ≠ 0 then throw .stackNotEmpty

/-- Opens a scope: something new goes on each of three stacks. -/
def enterScope (whole : Bool) : Act Stacks Unit := do
  let start ← newLabel
  let stop ← newLabel
  modify fun s => { s with starts := start :: s.starts }
  modify fun s => { s with stops := stop :: s.stops }
  modify fun s => { s with saves := s.index :: s.saves }
  if whole then modify fun s => { s with maxDepth := 0, maxIndex := 0 }

/-- Leaves a scope.  It is a fault if one of the three stacks is empty. -/
def exitScope : Act Stacks Unit := do
  let s ← get
  match s.starts, s.stops, s.saves with
  | _ :: starts, _ :: stops, i :: saves =>
      set { s with starts := starts, stops := stops, saves := saves, index := i }
  | _, _, _ => throw .noScope

/-- Opens a loop: a new label goes on each of two stacks. -/
def enterLoop : Act Stacks Unit := do
  let next ← newLabel
  let exit ← newLabel
  modify fun s => { s with nexts := next :: s.nexts }
  modify fun s => { s with exits := exit :: s.exits }

/-- Leaves a loop.  It is a fault if one of the two stacks is empty. -/
def exitLoop : Act Stacks Unit := do
  let s ← get
  match s.nexts, s.exits with
  | _ :: nexts, _ :: exits => set { s with nexts := nexts, exits := exits }
  | _, _ => throw .noLoop

/-- What is on top of a stack of labels. -/
def top (stack : Stacks → List Nat) (e : Fault) : Act Stacks (Option Int) := do
  let l ← Act.ofOption e (stack (← get)).head?
  return some l

/-- What a call does to the stacks, and the number that it gives back. -/
def act : Call → Act Stacks (Option Int)
  | .look => return none
  | .newLabel => do return some (← newLabel)
  | .newIndex => do
      let s ← get
      set { s with index := s.index + 1, maxIndex := max s.maxIndex (s.index + 1) }
      return some s.index
  | .setIndex i => do modify fun s => { s with index := i }; return none
  | .push => do
      modify fun s => { s with depth := s.depth + 1, maxDepth := max s.maxDepth (s.depth + 1) }
      return none
  | .pop => do pop; return none
  | .checkEmpty => do checkEmpty; return none
  | .enterScope whole => do enterScope whole; return none
  | .exitScope => do exitScope; return none
  | .startLabel => top starts .noScope
  | .endLabel => top stops .noScope
  | .enterLoop => do enterLoop; return none
  | .exitLoop => do exitLoop; return none
  | .continueLabel => top nexts .noLoop
  | .breakLabel => top exits .noLoop

/-- The stacks that a call leaves, whether it fails or not. -/
def next (s : Stacks) (c : Call) : Stacks := ((act c).start s).2

/-- The stacks after some calls. -/
def run (s : Stacks) (cs : List Call) : Stacks := cs.foldl next s

/-- The labels that a call makes: the one that it gives back, or those that it pushes. -/
def made (s : Stacks) : Call → List Nat
  | .newLabel => (newLabel.start s).1.toOption.toList
  | .enterScope whole =>
      let t := s.next (.enterScope whole)
      t.starts.head?.toList ++ t.stops.head?.toList
  | .enterLoop =>
      let t := s.next .enterLoop
      t.nexts.head?.toList ++ t.exits.head?.toList
  | _ => []

/-- The labels that are made by some calls, in order. -/
def madeBy : Stacks → List Call → List Nat
  | _, [] => []
  | s, c :: cs => s.made c ++ madeBy (s.next c) cs

end Stacks

/-- The stacks of a frame. -/
def spread (f : Frame) : Stacks where
  label := f.label
  depth := f.depth
  maxDepth := f.maxDepth
  index := f.index
  maxIndex := f.maxIndex
  starts := f.scopes.map Scope.start
  stops := f.scopes.map Scope.stop
  saves := f.scopes.map Scope.saved
  nexts := f.loops.map Loop.next
  exits := f.loops.map Loop.exit

/-! ## One call -/

theorem start_test {σ : Type} {p : Prop} [Decidable p] (e : Fault) (s : σ) :
    Act.start ((if p then throw e else pure ()) >>= fun _ => pure none : Act σ (Option Int)) s =
      (if p then .error e else .ok none, s) := by
  split <;> rfl

theorem Call.start_pop (f : Frame) : (act .pop).start f =
    (if f.depth - 1 < 0 then .error .emptyStack else .ok none, { f with depth := f.depth - 1 }) :=
  start_test ..

theorem Call.start_checkEmpty (f : Frame) : (act .checkEmpty).start f =
    (if f.depth ≠ 0 then .error .stackNotEmpty else .ok none, f) := start_test ..

theorem Stacks.start_pop (s : Stacks) : (act .pop).start s =
    (if s.depth - 1 < 0 then .error .emptyStack else .ok none, { s with depth := s.depth - 1 }) :=
  start_test ..

theorem Stacks.start_checkEmpty (s : Stacks) : (act .checkEmpty).start s =
    (if s.depth ≠ 0 then .error .stackNotEmpty else .ok none, s) := start_test ..

/-- A call does to the stacks of a frame what it does to the frame, with the same result. -/
theorem act_spread (f : Frame) (c : Call) :
    (Stacks.act c).start f.spread = ((c.act.start f).1, (c.act.start f).2.spread) := by
  obtain ⟨label, depth, maxDepth, index, maxIndex, scopes, loops⟩ := f
  cases c with
  | enterScope whole => cases whole <;> rfl
  | exitScope | startLabel | endLabel => cases scopes <;> rfl
  | exitLoop | continueLabel | breakLabel => cases loops <;> rfl
  | pop => rw [Stacks.start_pop, Call.start_pop]; rfl
  | checkEmpty => rw [Stacks.start_checkEmpty, Call.start_checkEmpty]; rfl
  | _ => rfl

theorem run_spread (f : Frame) (cs : List Call) : f.spread.run cs = (f.run cs).spread := by
  induction cs generalizing f with
  | nil => rfl
  | cons c cs ih =>
    have hnext : f.spread.next c = (c.next f).spread := congrArg Prod.snd (act_spread f c)
    show (f.spread.next c).run cs = ((c.next f).run cs).spread
    rw [hnext, ih]

/-- Calls that close the scopes that they open, and no others. -/
inductive Balanced : List Call → Prop where
  | nil : Balanced []
  | one {c : Call} : (∀ whole, c ≠ .enterScope whole) → c ≠ .exitScope → Balanced [c]
  | append {cs ds : List Call} : Balanced cs → Balanced ds → Balanced (cs ++ ds)
  | scope {whole : Bool} {cs : List Call} : Balanced cs →
      Balanced (.enterScope whole :: (cs ++ [Call.exitScope]))

variable {f : Frame} {cs ds : List Call}

theorem Call.next_pop (f : Frame) : Call.next f .pop = { f with depth := f.depth - 1 } :=
  congrArg Prod.snd (start_pop f)

theorem Call.next_checkEmpty (f : Frame) : Call.next f .checkEmpty = f :=
  congrArg Prod.snd (start_checkEmpty f)

/-- What a call does to the labels and to the open scopes. -/
theorem Call.next_cases (f : Frame) (c : Call) : (c.next f).label = f.label + c.count ∧
    (c.next f).scopes = match c with
      | .enterScope _ => ⟨f.label, f.label + 1, f.index⟩ :: f.scopes
      | .exitScope => f.scopes.tail
      | _ => f.scopes := by
  obtain ⟨label, depth, maxDepth, index, maxIndex, scopes, loops⟩ := f
  cases c with
  | enterScope whole => cases whole <;> exact ⟨rfl, rfl⟩
  | exitScope | startLabel | endLabel => cases scopes <;> exact ⟨rfl, rfl⟩
  | exitLoop | continueLabel | breakLabel => cases loops <;> exact ⟨rfl, rfl⟩
  | pop =>
    rw [next_pop]
    exact ⟨rfl, rfl⟩
  | checkEmpty =>
    rw [next_checkEmpty]
    exact ⟨rfl, rfl⟩
  | _ => exact ⟨rfl, rfl⟩

/-- Labels are given out in order. -/
theorem Stacks.made_eq (s : Stacks) (c : Call) : s.made c = List.range' s.label c.count := by
  cases c with
  | enterScope whole => cases whole <;> rfl
  | _ => rfl

/-! ## Whole runs -/

theorem run_append (f : Frame) (cs ds : List Call) : f.run (cs ++ ds) = (f.run cs).run ds :=
  List.foldl_append

/-- The labels that are made follow those that there were. -/
theorem Stacks.made_run (f : Frame) (cs : List Call) :
    List.range f.label ++ f.spread.madeBy cs = List.range (f.run cs).label := by
  induction cs generalizing f with
  | nil => simp [madeBy, Frame.run]
  | cons c cs ih =>
    have hnext : f.spread.next c = (c.next f).spread := congrArg Prod.snd (act_spread f c)
    have hlabel : f.spread.label = f.label := rfl
    have first : List.range f.label ++ f.spread.made c = List.range (c.next f).label := by
      rw [made_eq, hlabel, (c.next_cases f).1, List.range_eq_range', List.range_eq_range']
      simpa using List.range'_append_1 (s := 0) (m := f.label) (n := c.count)
    rw [madeBy, ← List.append_assoc, first, hnext, ih]
    rfl

/-- The labels of the open scopes grow from the outer to the inner. -/
structure Stacked (f : Frame) : Prop where
  order : f.scopes.Pairwise fun inner outer => outer.stop < inner.start
  stop : ∀ s ∈ f.scopes, s.stop = s.start + 1
  label : ∀ s ∈ f.scopes, s.stop < f.label

/-- A call keeps the labels of the open scopes in order. -/
theorem Stacked.next (h : f.Stacked) (c : Call) : (c.next f).Stacked := by
  obtain ⟨hlabel, hscopes⟩ := c.next_cases f
  -- Scopes that stay open keep their labels, and the next label does not go down.
  have kept (ss : List Scope) (hss : ss.Sublist f.scopes) (heq : (c.next f).scopes = ss) :
      (c.next f).Stacked := by
    refine ⟨heq ▸ h.order.sublist hss, fun s hs => h.stop s (hss.subset (heq ▸ hs)), ?_⟩
    intro s hs
    have := h.label s (hss.subset (heq ▸ hs))
    omega
  cases c with
  | enterScope whole =>
    have hcount : (Call.enterScope whole).count = 2 := rfl
    constructor
    · rw [hscopes]
      exact List.pairwise_cons.2 ⟨h.label, h.order⟩
    · rw [hscopes]
      exact List.forall_mem_cons.2 ⟨rfl, h.stop⟩
    · rw [hscopes, hlabel, hcount]
      refine List.forall_mem_cons.2 ⟨by simp, fun s hs => ?_⟩
      have := h.label s hs
      omega
  | exitScope => exact kept _ (List.tail_sublist _) hscopes
  | _ => exact kept _ (List.Sublist.refl _) hscopes

theorem Stacked.run (h : f.Stacked) (cs : List Call) : (f.run cs).Stacked := by
  induction cs generalizing f with
  | nil => exact h
  | cons c cs ih => exact ih (h.next c)

theorem Stacked.starts_lt (h : f.Stacked) : f.spread.starts.reverse.Pairwise (· < ·) := by
  rw [spread, List.pairwise_reverse, List.pairwise_map]
  refine h.order.imp_of_mem fun hinner houter hlt => ?_
  have := h.stop _ houter
  omega

theorem Stacked.stops_eq (h : f.Stacked) : f.spread.stops = f.spread.starts.map (· + 1) := by
  rw [spread, List.map_map]
  exact List.map_congr_left h.stop

/-- Calls that close the scopes that they open leave the scopes as they were. -/
theorem Balanced.scopes_eq (h : Balanced cs) (f : Frame) : (f.run cs).scopes = f.scopes := by
  induction h generalizing f with
  | nil => rfl
  | @one c henter hexit =>
    have hscopes := (c.next_cases f).2
    cases c with
    | enterScope whole => exact absurd rfl (henter whole)
    | exitScope => exact absurd rfl hexit
    | _ => exact hscopes
  | append _ _ ihcs ihds => rw [run_append, ihds, ihcs]
  | @scope whole cs _ ih =>
    have hinner := ih (Call.next f (.enterScope whole))
    have hexit := (Call.exitScope.next_cases ((Call.next f (.enterScope whole)).run cs)).2
    rw [show f.run (.enterScope whole :: (cs ++ [.exitScope])) =
      ((Call.next f (.enterScope whole)).run cs).run [.exitScope] from run_append _ cs _]
    show (Call.exitScope.next _).scopes = _
    rw [hexit, hinner, (Call.next_cases f (.enterScope whole)).2]
    rfl

/-- The calls up to one that opens a scope, and those behind it, which leave that scope open. -/
def OpensIn (cs before : List Call) (whole : Bool) (between : List Call) : Prop :=
  cs = before ++ .enterScope whole :: between ∧ Balanced between

/-- The innermost open scope is the one that has been opened by the matching call. -/
theorem OpensIn.scopes_eq {before between : List Call} {whole : Bool}
    (h : OpensIn cs before whole between) :
    (f.run cs).scopes = ⟨(f.run before).label, (f.run before).label + 1, (f.run before).index⟩ ::
      (f.run before).scopes := by
  obtain ⟨rfl, hbetween⟩ := h
  rw [run_append]
  exact (hbetween.scopes_eq _).trans ((Call.enterScope whole).next_cases (f.run before)).2

/-- A scope that is open has been opened by some call. -/
theorem exists_opensIn (hf : f.scopes = []) : ∀ {n : Nat} {cs : List Call}, cs.length = n →
    (f.run cs).scopes ≠ [] → ∃ before whole between, OpensIn cs before whole between := by
  intro n
  induction n using Nat.strongRecOn with
  | ind n ih =>
    intro cs hn hopen
    rcases List.eq_nil_or_concat cs with rfl | ⟨cs, c, rfl⟩
    · exact absurd hf hopen
    rw [List.concat_eq_append] at hn hopen ⊢
    have hlt : cs.length < n := by
      rw [← hn]
      simp
    have hnext : (f.run (cs ++ [c])).scopes = _ :=
      (congrArg Frame.scopes (run_append f cs [c])).trans (c.next_cases (f.run cs)).2
    rw [hnext] at hopen
    -- Other calls stand behind the call that has opened the innermost scope.
    have behind (hc : Balanced [c]) (hopen : (f.run cs).scopes ≠ []) :
        ∃ before whole between, OpensIn (cs ++ [c]) before whole between := by
      obtain ⟨before, whole, between, rfl, hbetween⟩ := ih _ hlt rfl hopen
      exact ⟨before, whole, between ++ [c], by simp, hbetween.append hc⟩
    cases c with
    | enterScope whole => exact ⟨cs, whole, [], rfl, .nil⟩
    | exitScope =>
      have houter : (f.run cs).scopes ≠ [] := fun h => hopen (by rw [h]; rfl)
      obtain ⟨before, whole, between, hopens⟩ := ih _ hlt rfl houter
      -- The scope around the one that is closed has been opened before it.
      rw [hopens.scopes_eq] at hopen
      obtain ⟨rfl, hbetween⟩ := hopens
      have hshorter : before.length < n := by
        simp only [List.length_append, List.length_cons] at hlt
        omega
      obtain ⟨before', whole', between', rfl, hbetween'⟩ := ih _ hshorter rfl hopen
      exact ⟨before', whole', between' ++ .enterScope whole :: (between ++ [Call.exitScope]),
        by simp, hbetween'.append (.scope hbetween)⟩
    | _ => exact behind (.one nofun nofun) hopen

theorem Stacks.exitScope_start (f : Frame) : exitScope.start f.spread = match f.scopes with
    | [] => (.error .noScope, f.spread)
    | s :: ss => (.ok (), { f with scopes := ss, index := s.saved }.spread) := by
  obtain ⟨label, depth, maxDepth, index, maxIndex, scopes, loops⟩ := f
  cases scopes <;> rfl

/-- Over every run of calls on a fresh frame, with those that fail: the five stacks are those of
the frame that the generator keeps; the stacks of scopes have the same height, and so do those of
loops; the labels that have been made are pairwise distinct and below the next one; the labels at
the starts and at the ends of the open scopes grow strictly, and each end is next to its start; and
a scope can be closed just if the run has opened one and has closed since then what it opened, and
the next slot is then again the one that it was at the call that opened the scope. -/
theorem bookkeeping (cs : List Call) :
    let s := Stacks.run {} cs
    s = (Frame.run {} cs).spread ∧
      (s.starts.length = s.stops.length ∧ s.stops.length = s.saves.length) ∧
      s.nexts.length = s.exits.length ∧
      ((Stacks.madeBy {} cs).Nodup ∧ ∀ l ∈ Stacks.madeBy {} cs, l < s.label) ∧
      (s.starts.reverse.Pairwise (· < ·) ∧ s.stops.reverse.Pairwise (· < ·) ∧
        s.stops = s.starts.map (· + 1)) ∧
      ((Stacks.exitScope.start s).1 = .ok () ↔
        ∃ before whole between, OpensIn cs before whole between) ∧
      ∀ before whole between, OpensIn cs before whole between →
        (Stacks.exitScope.start s).2.index = (Stacks.run {} before).index := by
  intro s
  have hspread (cs : List Call) : Stacks.run {} cs = (Frame.run {} cs).spread := run_spread {} cs
  have hs : s = (Frame.run {} cs).spread := hspread cs
  have hmade : Stacks.madeBy {} cs = List.range (Frame.run {} cs).label := Stacks.made_run {} cs
  have hstacked : (Frame.run {} cs).Stacked := Stacked.run ⟨.nil, by simp, by simp⟩ cs
  have hexit := Stacks.exitScope_start (Frame.run {} cs)
  rw [hs]
  refine ⟨rfl, by simp [spread], by simp [spread], ?_,
    ⟨hstacked.starts_lt, ?_, hstacked.stops_eq⟩, ⟨fun hok => ?_, ?_⟩, ?_⟩
  · rw [hmade]
    exact ⟨List.nodup_range, fun l hl => List.mem_range.1 hl⟩
  · rw [hstacked.stops_eq, ← List.map_reverse, List.pairwise_map]
    exact hstacked.starts_lt.imp Nat.succ_lt_succ
  · refine exists_opensIn (f := {}) rfl rfl fun hnone => ?_
    rw [hexit, hnone] at hok
    cases hok
  · rintro ⟨before, whole, between, hopens⟩
    rw [hexit, hopens.scopes_eq]
  · intro before whole between hopens
    rw [hexit, hopens.scopes_eq, hspread]
    rfl

/-- An inner scope has taken two slots and a loop has been left open; the outer scope has taken
one. -/
example : (Stacks.run {} [.enterScope true, .newIndex, .exitLoop, .enterScope false, .newIndex,
    .enterLoop, .newIndex, .exitScope]).index = 1 := by decide

end Frame

end MiniGoc
