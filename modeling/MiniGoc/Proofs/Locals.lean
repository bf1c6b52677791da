import MiniGoc.Proofs.Simulation
import Mathlib.Data.List.Forall2
import Mathlib.Tactic.Tauto

/-!
# Local variables in their slots

The lines of a method say which slot holds which variable.  The slot of a variable is
the one in the first line with its name (`Code.vars`): a later line may repeat the name
with the slot of another variable, namely where a known name is assigned.

A block gives slots to all its names before any of its members is run.  What keeps this
in order is that a variable is introduced only once: then a name is found in the same slot
before and after the block, in the block, and in the lines (`Bound`), and two names that
can be seen at the same time have different slots (`Spread`).

The main result is `Checked.simulated`: the code of checked statements does to the slots
what the statements do to the store, and writes the same values in the same order.
-/

namespace MiniGoc

open Emit

/-! ## The lines for slots -/

/-- The name and the slot in a line for a slot. -/
def Line.var? : Line → Option (String × Int)
  | var (.number i) n _ _ _ => some (n, i)
  | _ => none

/-- The names in the lines for slots, with their slots. -/
def Code.vars (c : Code) : List (String × Int) := c.filterMap Line.var?

/-- The names in the lines for slots. -/
def Code.varNames (c : Code) : List String := c.vars.map Prod.fst

namespace Code

@[simp] theorem vars_append (c d : Code) : (c ++ d).vars = c.vars ++ d.vars :=
  List.filterMap_append

@[simp] theorem varNames_append (c d : Code) : (c ++ d).varNames = c.varNames ++ d.varNames := by
  simp [varNames]

@[simp] theorem vars_one (i : Instr) : (one i : Code).vars = [] := rfl

@[simp] theorem vars_jump (l : Operand) : (jump l : Code).vars = [] := rfl

@[simp] theorem vars_label (l : Operand) : (label l : Code).vars = [] := rfl

@[simp] theorem vars_slotLine (s : Frame.Scope) (i : Int) (n d : String) (c : Code) :
    vars (slotLine s i n d :: c) = (n, i) :: c.vars := rfl

@[simp] theorem vars_failJump (make : Cond → Operand → Instr) (op : String) (l : Operand) :
    (failJump make op l).vars = [] := by
  unfold failJump
  split <;> rfl

@[simp] theorem vars_outcomes (lf lo : Nat) : (outcomes lf lo).vars = [] := rfl

end Code

variable {f g : Frame} {c : Code} {outer ls : List Symbol} {p : Gen.Pass} {ms : List Node}

theorem Emit.Compares.vars_eq_nil {op : String} {l : Nat} {t : Node} (h : Compares op l t f c g) :
    c.vars = [] := by
  cases h with
  | other => rfl
  | _ => simp [compareTexts]

theorem Mixture.vars_operands {d : Code} (hc : c.vars = []) (hd : d.vars = []) (x : Mixture) :
    (x.operands c d).vars = [] := by
  cases x <;> simp [operands, hc, hd]
  rfl

theorem Coded.vars_eq_nil {env : List Symbol} {part : Fragment} {t : Node}
    (h : Coded env part f c t g) : c.vars = [] := by
  induction h with
  | name h => cases h <;> rfl
  | arithmetic _ _ _ _ _ _ ihl ihr => simp [Mixture.vars_operands ihl ihr]
  | comparison _ _ _ hc ihl ihr => simp [ihl, ihr, hc.vars_eq_nil]
  | number | decimal | text | truth | nil | struct => rfl
  | noArgs | noCells | noElems | noFields => rfl
  | _ => simp [*]

theorem Declared.varNames_eq (h : Declared outer p ms f c ls g) :
    c.varNames = ms.filterMap Node.introduced? := by
  induction h with
  | done => rfl
  | take hm _ _ _ ih =>
    simp only [Code.varNames, Code.vars_slotLine, List.map_cons] at ih ⊢
    rw [List.filterMap_cons_some hm.introduced?, ih]
  | known _ _ _ _ _ _ ih =>
    simp only [Code.varNames, Code.vars_slotLine, List.map_cons] at ih ⊢
    rw [ih]
    rfl
  | skip hnone _ ih => rw [List.filterMap_cons_none hnone, ih]

/-- Every name of a block has a line. -/
theorem Declared.name_mem (h : Declared outer p ms f c ls g) :
    ∀ s ∈ ls, s ∈ p.locals ∨ s.name ∈ c.varNames := by
  induction h with
  | done => exact fun s hs => .inl hs
  | take _ _ _ _ ih =>
    intro s hs
    simp only [Code.varNames, Code.vars_slotLine, List.map_cons, List.mem_cons] at ih ⊢
    rcases ih s hs with hs | hs
    · simp only [Gen.Pass.noting, List.mem_append, List.mem_singleton] at hs
      rcases hs with hs | rfl
      · exact .inl hs
      · exact .inr (.inl rfl)
    · exact .inr (.inr hs)
  | known _ _ _ _ _ _ ih =>
    intro s hs
    simp only [Code.varNames, Code.vars_slotLine, List.map_cons, List.mem_cons] at ih ⊢
    rcases ih s hs with hs | hs
    · exact .inl hs
    · exact .inr (.inr hs)
  | skip _ _ ih => exact ih

theorem Declared.lines (h : Declared outer p ms f c ls g) :
    ∀ line ∈ c, ∃ i n d l l', line = .var i n d l l' := by
  induction h with
  | done => simp
  | take _ _ _ _ ih | known _ _ _ _ _ _ ih =>
    intro line hline
    rcases List.mem_cons.1 hline with rfl | hline
    · exact ⟨_, _, _, _, _, rfl⟩
    · exact ih line hline
  | skip _ _ ih => exact ih

/-! ## Names that are introduced once -/

/-- The names that a stage introduces or assigns outside of inner blocks. -/
def Stage.names : Stage → List String
  | stmt m => m.introduced?.toList
  | members ms => ms.filterMap Node.introduced?

@[simp] theorem Stage.mem_names_members {m : Node} {x : String} :
    x ∈ (members (m :: ms)).names ↔ x ∈ (stmt m).names ∨ x ∈ (members ms).names := by
  cases h : m.introduced? <;> simp [names, h, eq_comm]

section Names

variable {tops : List String} {Γ Γ' : Vars} {used used' : List String} {stage : Stage}

/-- A variable that is known after a stage was known before, or is one of its names. -/
theorem Checked.lookup_cases (h : Checked tops Γ used stage Γ' used') {x : String} {τ : Ty}
    (hx : Γ'.lookup x = some τ) : Γ.lookup x = some τ ∨ x ∈ stage.names := by
  induction h with
  | @var Γ used y e σ | @introduce Γ used y e σ =>
    by_cases hxy : x = y
    · exact .inr (by simp [Stage.names, Node.introduced?, hxy])
    · have hne : (x == y) = false := by simpa using hxy
      simp only [List.lookup_cons, hne] at hx
      exact .inl hx
  | assign | block | ifElse | none | noMembers => exact .inl hx
  | member _ _ ih ih' =>
    rw [Stage.mem_names_members]
    rcases ih' hx with hx | hx
    · rcases ih hx with hx | hx
      · exact .inl hx
      · exact .inr (.inl hx)
    · exact .inr (.inr hx)

/-- A name that a stage meets, and that was used before, is a variable. -/
theorem Checked.lookup_of_mem_names (h : Checked tops Γ used stage Γ' used') {x : String}
    (hx : x ∈ stage.names) (hused : x ∈ used) : ∃ τ, Γ.lookup x = some τ := by
  induction h with
  | var hy | introduce hy =>
    obtain rfl : x = _ := by simpa [Stage.names, Node.introduced?] using hx
    exact absurd hused hy
  | @assign Γ used y e τ hy =>
    obtain rfl : x = y := by simpa [Stage.names, Node.introduced?] using hx
    exact ⟨τ, hy⟩
  | block | ifElse | none | noMembers => simp [Stage.names, Node.introduced?] at hx
  | member hm _ ih ih' =>
    rcases Stage.mem_names_members.1 hx with hx | hx
    · exact ih hx hused
    · obtain ⟨τ, hτ⟩ := ih' hx (hm.used_subset hused)
      rcases hm.lookup_cases hτ with hτ | hx
      · exact ⟨τ, hτ⟩
      · exact ih hx hused

/-- The names that a stage meets are used after it. -/
theorem Checked.names_subset (h : Checked tops Γ used stage Γ' used') (hΓ : Within Γ used) :
    stage.names ⊆ used' := by
  intro x hx
  induction h with
  | var | introduce =>
    obtain rfl : x = _ := by simpa [Stage.names, Node.introduced?] using hx
    simp
  | @assign Γ used y e τ hy =>
    obtain rfl : x = y := by simpa [Stage.names, Node.introduced?] using hx
    exact hΓ x τ hy
  | block | ifElse | none | noMembers => simp [Stage.names, Node.introduced?] at hx
  | member hm hms ih ih' =>
    rcases Stage.mem_names_members.1 hx with hx | hx
    · exact hms.used_subset (ih hΓ hx)
    · exact ih' (hm.within hΓ) hx

/-- The names in the lines of checked statements are used after them. -/
theorem Checked.varNames_subset (h : Checked tops Γ used stage Γ' used') (hΓ : Within Γ used)
    {env : List Symbol} {f g : Frame} {c : Code} (hc : Printed env stage f c g) :
    c.varNames ⊆ used' := by
  induction h generalizing env f g c with
  | var =>
    cases hc with
    | var _ _ he => simp [Code.varNames, he.vars_eq_nil]
    | zero => simp [Code.varNames]
  | introduce | assign =>
    cases hc with
    | assignSlot _ _ he | assignStatic _ _ he => simp [Code.varNames, he.vars_eq_nil]
  | block h ih =>
    cases hc with
    | block hls hms =>
      have hlines := h.names_subset hΓ
      rw [Stage.names, ← hls.varNames_eq] at hlines
      simpa [Code.varNames, hlines] using ⟨hlines, ih hΓ hms⟩
  | ifElse _ hy hn ihy ihn =>
    cases hc with
    | ifOnly he _ hd =>
      have := List.Subset.trans (ihy hΓ hd) hn.used_subset
      simpa [Code.varNames, he.vars_eq_nil] using this
    | ifElse he _ _ hd hd' =>
      have := List.Subset.trans (ihy hΓ hd) hn.used_subset
      have := ihn (hy.within hΓ) hd'
      simp_all [Code.varNames, he.vars_eq_nil]
  | none => cases hc
  | noMembers =>
    cases hc
    simp [Code.varNames, Code.vars]
  | member hm hms ih ih' =>
    cases hc with
    | member hc hd =>
      have := List.Subset.trans (ih hΓ hc) hms.used_subset
      have := ih' (hm.within hΓ) hd
      simp_all

end Names

/-! ## The layout of a block -/

/-- Names that are seen at the same time have different slots, all below the next one. -/
structure Spread (env : List Symbol) (next : Int) : Prop where
  below : ∀ s ∈ env, ∀ i, s.home = .slot i → i < next
  apart : ∀ s ∈ env, ∀ t ∈ env, ∀ i, s.home = .slot i → t.home = .slot i → s.name = t.name

theorem Spread.mono {env : List Symbol} {i j : Int} (h : Spread env i) (hij : i ≤ j) :
    Spread env j where
  below s hs k hk := Int.lt_of_lt_of_le (h.below s hs k hk) hij
  apart := h.apart

/-- The next slot goes to one more name. -/
theorem Spread.take {env env' : List Symbol} {i : Int} {n : String} {u : Node}
    (h : Spread env i) (henv : ∀ s ∈ env', s ∈ env ∨ s = .localVar n u i) :
    Spread env' (i + 1) where
  below s hs j hj := by
    rcases henv s hs with hs | rfl
    · have := h.below s hs j hj
      omega
    · cases hj
      omega
  apart s hs t ht j hj hj' := by
    rcases henv s hs with hs | rfl <;> rcases henv t ht with ht | rfl
    · exact h.apart s hs t ht j hj hj'
    · cases hj'
      exact absurd (h.below s hs i hj) (Int.lt_irrefl i)
    · cases hj
      exact absurd (h.below t ht i hj') (Int.lt_irrefl i)
    · rfl

theorem Declared.spread (h : Declared outer p ms f c ls g)
    (hp : Spread (p.locals ++ outer) f.index) : Spread (ls ++ outer) g.index := by
  induction h with
  | done => exact hp
  | @take p m ms f n u g _ _ _ _ _ hm _ _ _ ih =>
    have held : ∀ s ∈ (p.noting m n u g.index).locals ++ outer,
        s ∈ p.locals ++ outer ∨ s = .localVar n u g.index := by
      intro s hs
      simp only [Gen.Pass.noting, List.mem_append, List.mem_singleton] at hs ⊢
      tauto
    exact ih ((hp.mono hm.advances.index).take held)
  | known _ _ _ _ _ _ ih => exact ih hp
  | skip _ _ ih => exact ih hp

/-- Each variable is found in the slot that the first line with its name gives to it. -/
def Bound (prog : Code) (env : List Symbol) (Γ : Vars) : Prop :=
  ∀ x τ, Γ.lookup x = some τ →
    ∃ j, Symbol.find? x env = some (.localVar x τ.node j) ∧ prog.vars.lookup x = some j

section Bound

variable {prog : Code} {env env' outer locals more : List Symbol} {Γ Γ' : Vars} {ρ : Store}
  {m : StackMachine}

theorem Bound.typed (h : Bound prog env Γ) : Typed env Γ := by
  intro x τ hx
  obtain ⟨j, hj, -⟩ := h x τ hx
  exact ⟨_, hj, rfl⟩

theorem Bound.mono (h : Bound prog env Γ') (hΓ : Extends Γ Γ') : Bound prog env Γ :=
  fun x τ hx => h x τ (hΓ x τ hx)

theorem Holds.mono (h : Holds env Γ' ρ m) (hΓ : Extends Γ Γ') : Holds env Γ ρ m :=
  fun x τ hx => h x τ (hΓ x τ hx)

theorem Holds.of_bound (h : Holds env Γ ρ m) (henv : Bound prog env Γ)
    (henv' : Bound prog env' Γ) : Holds env' Γ ρ m := by
  intro x τ hx
  obtain ⟨s, v, hs, ht, hv, hty, hw⟩ := h x τ hx
  obtain ⟨j, hj, hline⟩ := henv x τ hx
  obtain ⟨j', hj', hline'⟩ := henv' x τ hx
  rw [hs] at hj
  cases hj
  rw [hline] at hline'
  cases hline'
  exact ⟨_, v, hj', rfl, hv, hty, hw⟩

variable {x : String} {u : Node} {j : Int} {used used' : List String}

theorem Symbol.find?_localVar {y : String} (h : x ≠ y) :
    Symbol.find? y [.localVar x u j] = none := by
  simpa [Symbol.find?, Symbol.localVar] using h

/-- A new name gets the next slot. -/
theorem Bound.take_new {τ : Ty} (h : Bound prog (locals ++ outer) Γ)
    (hx : ∀ s ∈ locals, s.name ≠ x) (hj : prog.vars.lookup x = some j) :
    Bound prog (locals ++ [Symbol.localVar x τ.node j] ++ outer) ((x, τ) :: Γ) := by
  intro y σ hy
  by_cases hxy : y = x
  · subst hxy
    simp only [List.lookup_cons_self, Option.some.injEq] at hy
    subst hy
    refine ⟨j, ?_, hj⟩
    rw [Symbol.find?_append, Symbol.find?_append, Symbol.find?_eq_none.2 hx]
    simp [Symbol.find?, Symbol.localVar]
  · have hne : (y == x) = false := by simpa using hxy
    simp only [List.lookup_cons, hne] at hy
    obtain ⟨i, hi, hline⟩ := h y σ hy
    refine ⟨i, ?_, hline⟩
    rw [Symbol.find?_append] at hi
    rw [Symbol.find?_append, Symbol.find?_append, Symbol.find?_localVar (Ne.symm hxy),
      Option.or_none, hi]

/-- A slot for a name of the block that has one already is not used. -/
theorem Bound.take_again {τ : Ty} (h : Bound prog (locals ++ outer) Γ) (hx : Γ.lookup x = some τ)
    (houter : Symbol.find? x outer = none) :
    Bound prog (locals ++ [Symbol.localVar x u j] ++ outer) Γ := by
  intro y σ hy
  obtain ⟨i, hi, hline⟩ := h y σ hy
  refine ⟨i, ?_, hline⟩
  by_cases hxy : y = x
  · subst hxy
    rw [Symbol.find?_append, houter, Option.or_none] at hi
    rw [Symbol.find?_append, Symbol.find?_append, hi]
    rfl
  · rw [Symbol.find?_append] at hi
    rw [Symbol.find?_append, Symbol.find?_append, Symbol.find?_localVar (Ne.symm hxy),
      Option.or_none, hi]

/-- A member that takes a slot introduces a variable, or assigns one of the block again. -/
theorem Introduces.checked {tops : List String} {m : Node} {f g : Frame} {n : String}
    (hm : Introduces outer locals m f n u g) (h : Checked tops Γ used (.stmt m) Γ' used')
    (henv : Typed (locals ++ outer) Γ) :
    (∃ τ, n ∉ used ∧ u = τ.node ∧ Γ' = (n, τ) :: Γ ∧ used' = n :: used) ∨
      ((∃ τ, Γ.lookup n = some τ) ∧ Symbol.find? n outer = none ∧ Γ' = Γ ∧ used' = used) := by
  cases h with
  | @var _ _ x e τ hx he =>
    refine .inl ⟨τ, ?_⟩
    generalize hm' : Node.var x τ.node e = m at hm
    cases hm with
    | typed _ ht =>
      cases hm'
      refine ⟨hx, ?_, rfl, rfl⟩
      cases τ <;> cases ht <;> rfl
    | untyped =>
      cases τ <;> cases hm'
    | _ => cases hm'
  | introduce hx _ he =>
    cases hm with
    | assigned _ hc => exact .inl ⟨_, hx, he.type_eq henv hc, rfl, rfl⟩
  | assign hx he =>
    cases hm with
    | assigned hnone _ => exact .inr ⟨⟨_, hx⟩, hnone, rfl, rfl⟩
  | block | ifElse | none => cases hm

theorem old_snoc {used₁ : List String} {pre : Code} {s : Frame.Scope} {i : Int} {n d : String}
    (hold : ∀ x ∈ pre.varNames, x ∈ used' → x ∈ used) (hused : used ⊆ used₁) (hn : n ∈ used₁) :
    ∀ x ∈ Code.varNames (pre ++ [slotLine s i n d]), x ∈ used' → x ∈ used₁ := by
  intro x hx hx'
  simp only [Code.varNames_append, List.mem_append] at hx
  rcases hx with hx | hx
  · exact hused (hold x hx hx')
  · obtain rfl : x = n := List.mem_singleton.1 hx
    exact hn

/-- In a block, each variable is found in the slot that its first line gives to it, and the
variables from outside are found where they were. -/
theorem Declared.bound {tops : List String} {p : Gen.Pass} {ms : List Node} {f g : Frame}
    {c pre post : Code} {ls : List Symbol} (hls : Declared outer p ms f c ls g)
    (hms : Checked tops Γ used (.members ms) Γ' used') (hΓ : Within Γ used)
    (hprog : prog = pre ++ c ++ post) (hold : ∀ x ∈ pre.varNames, x ∈ used' → x ∈ used)
    (hlocals : ∀ s ∈ p.locals, s.name ∈ pre.varNames)
    (houter : ∀ s ∈ outer, s.name ∈ pre.varNames ∨ s.name ∈ tops)
    (hbound : Bound prog (p.locals ++ outer) Γ) : Bound prog (ls ++ outer) Γ' := by
  have grown {pre d : Code} (houter : ∀ s ∈ outer, s.name ∈ pre.varNames ∨ s.name ∈ tops) :
      ∀ s ∈ outer, s.name ∈ Code.varNames (pre ++ d) ∨ s.name ∈ tops := by
    intro s hs
    have := houter s hs
    simp only [Code.varNames_append, List.mem_append]
    tauto
  induction hls generalizing Γ used pre with
  | done =>
    cases hms
    exact hbound
  | @take p m ms f n u g s d c ls h hm _ _ _ ih =>
    cases hms with
    | @member _ _ _ _ Γ₁ used₁ _ _ hm' hms =>
      have hused := hms.used_subset
      have hΓ₁ := hm'.within hΓ
      have hlocals' : ∀ t ∈ (p.noting m n u g.index).locals,
          t.name ∈ Code.varNames (pre ++ [slotLine s g.index n d]) := by
        intro t ht
        simp only [Gen.Pass.noting, List.mem_append, List.mem_singleton] at ht
        rw [Code.varNames_append, List.mem_append]
        rcases ht with ht | rfl
        · exact .inl (hlocals t ht)
        · exact .inr (List.mem_singleton.2 rfl)
      rcases hm.checked hm' hbound.typed with
        ⟨τ, hn, rfl, rfl, rfl⟩ | ⟨⟨τ, hn⟩, hnone, rfl, rfl⟩
      · have hnew : n ∉ pre.varNames := fun h => hn (hold n h (hused (List.mem_cons_self ..)))
        refine ih hms hΓ₁ (by simpa using hprog)
          (old_snoc hold (List.subset_cons_self ..) (List.mem_cons_self ..)) hlocals'
          (grown houter) (hbound.take_new ?_ ?_)
        · rintro t ht rfl
          exact hnew (hlocals t ht)
        · have hnone : pre.vars.lookup n = none := by
            rw [List.lookup_eq_none_iff]
            rintro ⟨y, i⟩ hy
            simp only [bne_iff_ne, ne_eq]
            rintro rfl
            exact hnew (List.mem_map_of_mem hy)
          simp [hprog, List.lookup_append, hnone]
      · exact ih hms hΓ₁ (by simpa using hprog)
          (old_snoc hold (List.Subset.refl _) (hΓ n τ hn)) hlocals' (grown houter)
          (hbound.take_again hn hnone)
  | @known p n e ms f x slot u s d c ls h hx _ _ _ _ _ ih =>
    cases hms with
    | member hm' hms =>
      have hlocals' :
          ∀ t ∈ p.locals, t.name ∈ Code.varNames (pre ++ [slotLine s slot n d]) := by
        intro t ht
        rw [Code.varNames_append]
        exact List.mem_append_left _ (hlocals t ht)
      cases hm' with
      | introduce hn htops _ =>
        exfalso
        have hused := hms.used_subset (List.mem_cons_self ..)
        rcases houter x (Symbol.mem_of_find? hx) with hname | hname
        · rw [Symbol.name_of_find? hx] at hname
          exact hn (hold n hname hused)
        · rw [Symbol.name_of_find? hx] at hname
          exact htops hname
      | assign hn _ =>
        exact ih hms hΓ (by simpa using hprog)
          (old_snoc hold (List.Subset.refl _) (hΓ n _ hn)) hlocals' (grown houter) hbound
  | @skip p m ms f c ls h hnone _ ih =>
    cases hms with
    | member hm' hms =>
      have hused := hm'.used_subset
      have hΓ₁ := hm'.within hΓ
      cases hm' with
      | var | introduce | assign => cases hnone
      | block | ifElse | none =>
        exact ih hms hΓ₁ hprog (fun x hx hx' => hused (hold x hx hx')) hlocals houter hbound

end Bound

/-! ## Statements on the machine -/

/-- A variable is written to its slot. -/
def Stores (prog : Code) (event : String × Value) (w : Write) : Prop :=
  ∃ j, prog.vars.lookup event.1 = some j ∧ w = .slot j event.2.word

/-- From a machine that holds the store before, the code leads to one that holds the store
after, with the same stack, and writes what is written.  It is stuck if `this` is read. -/
def Simulated (prog : Code) (env : List Symbol) (Γ : Vars) (c k : Code) (m : StackMachine)
    (ρ : Store) (es : List Event) : Prop :=
  ∃ m' ws, Outcome prog (c ++ k, m) (.read "this" ∈ es) (k, m') ∧ Holds env Γ ρ m' ∧
    m'.stack = m.stack ∧ m'.writes = m.writes ++ ws ∧
    List.Forall₂ (Stores prog) (Event.writes es) ws

section Simulated

variable {tops used used' : List String} {prog : Code} {env : List Symbol} {Γ Γ₁ Γ₂ Γ' : Vars}
  {c d k : Code} {m : StackMachine} {ρ ρ₁ ρ₂ ρ' : Store} {es es₁ es₂ : List Event}

theorem Simulated.nothing (h : Holds env Γ ρ m) : Simulated prog env Γ [] k m ρ [] :=
  ⟨m, [], by simpa using Outcome.of_runs Runs.refl, h, rfl, by simp, .nil⟩

theorem Simulated.seq (h : Simulated prog env Γ₁ c (d ++ k) m ρ₁ es₁)
    (h' : ∀ m₁, Holds env Γ₁ ρ₁ m₁ → Simulated prog env Γ₂ d k m₁ ρ₂ es₂) :
    Simulated prog env Γ₂ (c ++ d) k m ρ₂ (es₁ ++ es₂) := by
  obtain ⟨m₁, ws₁, hrun₁, hm₁, hstack₁, hwrites₁, hall₁⟩ := h
  obtain ⟨m₂, ws₂, hrun₂, hm₂, hstack₂, hwrites₂, hall₂⟩ := h' m₁ hm₁
  refine ⟨m₂, ws₁ ++ ws₂, ?_, hm₂, hstack₂.trans hstack₁, by simp [hwrites₂, hwrites₁], ?_⟩
  · simpa using hrun₁.seq hrun₂
  · simpa using List.rel_append hall₁ hall₂

variable {xs : List String} {e : Node} {f g : Frame} {pre : Code}

theorem Simulated.within {c' k' start : Code}
    (hfirst : Outcome prog (start, m) ("this" ∈ xs) (c ++ k, m))
    (h : Simulated prog env Γ c k m ρ es) (hlast : ∀ m', Runs prog (k, m') (k', m'))
    (hstart : c' ++ k' = start) : Simulated prog env Γ c' k' m ρ (xs.map .read ++ es) := by
  obtain ⟨m', ws, hrun, hm, hstack, hwrites, hall⟩ := h
  refine ⟨m', ws, ?_, hm, hstack, hwrites, by simpa using hall⟩
  rw [hstart]
  simpa using (hfirst.seq hrun).andThen (hlast m')

/-- The store after a variable has been written to its slot. -/
theorem Holds.setSlot {x : String} {v : Value} {j : Int} {next : Int} (h : Holds env Γ ρ m)
    (hbound : Bound prog env ((x, v.ty) :: Γ)) (hspread : Spread env next)
    (hj : Symbol.find? x env = some (.localVar x v.ty.node j)) :
    Holds env ((x, v.ty) :: Γ) ((x, v) :: ρ) (m.setSlot j v.word) := by
  intro y τ hy
  by_cases hxy : y = x
  · subst hxy
    simp only [List.lookup_cons_self, Option.some.injEq] at hy
    subst hy
    exact ⟨_, v, hj, rfl, List.lookup_cons_self, rfl,
      by simp [StackMachine.word?, Symbol.localVar, StackMachine.setSlot]⟩
  · have hne : (y == x) = false := by simpa using hxy
    obtain ⟨i, hi, -⟩ := hbound y τ hy
    simp only [List.lookup_cons, hne] at hy ⊢
    obtain ⟨s, w, hs, ht, hw, hty, hword⟩ := h y τ hy
    rw [hs] at hi
    cases hi
    refine ⟨_, w, hs, rfl, hw, hty, ?_⟩
    have hij : i ≠ j := by
      rintro rfl
      exact hxy (hspread.apart _ (Symbol.mem_of_find? hs) _ (Symbol.mem_of_find? hj) i rfl rfl)
    simpa [StackMachine.word?, Symbol.localVar, StackMachine.setSlot, Function.update_of_ne hij]
      using hword

/-- The code of an expression over variables in slots pushes its value, unless `this` is
read. -/
theorem HasType.runs_local (hprog : prog.labels.Nodup) {t : Node} {τ : Ty} {v : Value}
    (he : HasType Γ e τ) (hbound : Bound prog env Γ) (hm : Holds env Γ ρ m)
    (hc : Coded env (.expr e) f c t g) (hv : eval false ρ e = .ok (v, xs)) (hk : c ++ k <:+ prog) :
    Outcome prog (c ++ k, m) ("this" ∈ xs) (k, m.push v.word) := by
  have hslot : "this" ∈ xs → HasSlot env "this" := by
    intro hthis
    obtain ⟨σ, hσ⟩ := he.reads hv _ hthis
    obtain ⟨i, hi, -⟩ := hbound _ σ hσ
    exact ⟨_, i, hi, rfl⟩
  rw [← and_iff_left_of_imp hslot]
  exact he.runs hprog hm hc hv hk

/-- A value is written to the slot of a variable. -/
theorem store_simulated (hprog : prog.labels.Nodup) {x : String} {u : Node} {τ : Ty} {s : Symbol}
    {j next : Int} {b : Bank} (he : HasType Γ e τ) (hc : Coded env (.expr e) f c u g)
    (hs : Symbol.find? x env = some s) (hj : s.home = .slot j) (hb : s.type.bank? = some b)
    (hk : c ++ (one (.store b j) ++ k) <:+ prog) (hbound : Bound prog env ((x, τ) :: Γ))
    (hΓ : Extends Γ ((x, τ) :: Γ)) (hspread : Spread env next) (hm : Holds env Γ ρ m)
    (hes : store false ρ x e = .ok (ρ', es)) :
    Simulated prog env ((x, τ) :: Γ) (c ++ one (.store b j)) k m ρ' es := by
  obtain ⟨v, xs, hv, rfl, rfl⟩ := store_eq_ok.1 hes
  obtain rfl := he.ty_eq hm.fits hv
  obtain ⟨j', hj', hline⟩ := hbound x v.ty List.lookup_cons_self
  rw [hs] at hj'
  cases hj'
  cases hj
  have hb' : b = .int := by
    cases v <;> exact (Option.some.inj hb).symm
  subst hb'
  refine ⟨m.setSlot j v.word, [.slot j v.word], ?_, hm.setSlot hbound hspread hs, rfl, rfl, ?_⟩
  · have hrun := (he.runs_local hprog (hbound.mono hΓ) hm hc hv hk).andThen .store
    simpa using hrun
  · simpa [Event.writes] using ⟨j, hline, rfl⟩

theorem Simulated.of_bound {env' : List Symbol} (h : Simulated prog env' Γ' c k m ρ es)
    (hΓ : Extends Γ Γ') (henv' : Bound prog env' Γ) (henv : Bound prog env Γ) :
    Simulated prog env Γ c k m ρ es := by
  obtain ⟨m', ws, hrun, hm, h⟩ := h
  exact ⟨m', ws, hrun, (hm.mono hΓ).of_bound henv' henv, h⟩

theorem condition_runs (hprog : prog.labels.Nodup) {t : Node} {b : Bool} {l : Operand} {r : Code}
    (he : HasType Γ e .bool) (hbound : Bound prog env Γ) (hm : Holds env Γ ρ m)
    (hc : Coded env (.expr e) f c t g) (hv : eval false ρ e = .ok (.bool b, xs))
    (hk : c ++ (one (.ifZero .le l) ++ k) <:+ prog) (hl : label l ++ r <:+ prog) :
    Outcome prog (c ++ (one (.ifZero .le l) ++ k), m) ("this" ∈ xs) (if b then k else r, m) := by
  have htest : Cond.le.test (Value.bool b).word 0 = !b := by cases b <;> decide
  have hjump := Runs.ifZero (k := k) (m := m) (a := (Value.bool b).word) (c := .le) hprog hl
  rw [htest] at hjump
  have := (he.runs_local hprog hbound hm hc hv hk).andThen hjump
  cases b <;> exact this

/-- Where a stage stands: the names that can be seen there are those of the lines before it
and those at the top level, and of the former it can only introduce its own. -/
structure Site (tops : List String) (prog : Code) (env : List Symbol)
    (used used' names : List String) (pre rest : Code) : Prop where
  whole : prog = pre ++ rest
  env : ∀ s ∈ env, s.name ∈ pre.varNames ∨ s.name ∈ tops
  old : ∀ x ∈ pre.varNames, x ∈ used' → x ∈ used ∨ x ∈ names

theorem Site.suffix {names : List String} {rest : Code}
    (h : Site tops prog env used used' names pre rest) : rest <:+ prog := ⟨pre, h.whole.symm⟩

theorem Site.move {used₁ used₂ names names' : List String} {rest : Code}
    (h : Site tops prog env used used' names pre (c ++ rest))
    (hold : ∀ x ∈ Code.varNames (pre ++ c), x ∈ used₂ → x ∈ used₁ ∨ x ∈ names') :
    Site tops prog env used₁ used₂ names' (pre ++ c) rest where
  whole := by rw [h.whole, List.append_assoc]
  env s hs := by
    have := h.env s hs
    simp only [Code.varNames_append, List.mem_append]
    tauto
  old := hold

theorem Site.inner {used₁ used₂ names : List String} {pre rest : Code} (names' : List String)
    (h : Site tops prog env used used' names pre (c ++ rest))
    (hold : ∀ x ∈ pre.varNames, x ∈ used' → x ∈ used) (hused : used ⊆ used₁)
    (hused' : used₂ ⊆ used') (hc : c.varNames ⊆ used₁) :
    Site tops prog env used₁ used₂ names' (pre ++ c) rest := by
  refine h.move fun x hx hx' => .inl ?_
  rw [Code.varNames_append, List.mem_append] at hx
  rcases hx with hx | hx
  · exact hused (hold x hx (hused' hx'))
  · exact hc hx

/-- The sites of the first of some members and of the others. -/
theorem Site.member {n : Node} {ns : List Node} {pre : Code} {used₁ : List String} {f g : Frame}
    (h : Site tops prog env used used' (Stage.members (n :: ns)).names pre (c ++ (d ++ k)))
    (hn : Checked tops Γ used (.stmt n) Γ₁ used₁)
    (hns : Checked tops Γ₁ used₁ (.members ns) Γ' used') (hΓ : Within Γ used)
    (hc : Printed env (.stmt n) f c g) :
    Site tops prog env used used₁ (Stage.stmt n).names pre (c ++ (d ++ k)) ∧
      Site tops prog env used₁ used' (Stage.members ns).names (pre ++ c) (d ++ k) := by
  constructor
  · refine ⟨h.whole, h.env, fun x hx hx' => ?_⟩
    rcases h.old x hx (hns.used_subset hx') with hold | hold
    · exact .inl hold
    · rcases Stage.mem_names_members.1 hold with hold | hold
      · exact .inr hold
      · obtain ⟨τ, hτ⟩ := hns.lookup_of_mem_names hold hx'
        rcases hn.lookup_cases hτ with hτ | hnames
        · exact .inl (hΓ x τ hτ)
        · exact .inr hnames
  · refine h.move fun x hx hx' => ?_
    rw [Code.varNames_append, List.mem_append] at hx
    rcases hx with hx | hx
    · rcases h.old x hx hx' with hold | hold
      · exact .inl (hn.used_subset hold)
      · rcases Stage.mem_names_members.1 hold with hold | hold
        · exact .inl (hn.names_subset hΓ hold)
        · exact .inr hold
    · exact .inl (hn.varNames_subset hΓ hc hx)

/-- The site of the members of a block, with the names of the block. -/
theorem Site.block {ms : List Node} {ls : List Symbol} {lines pre rest : Code} {l : Operand}
    {f g : Frame} (h : Site tops prog env used used' [] pre (label l ++ (lines ++ rest)))
    (hls : Declared env {} ms f lines ls g) (hms : Checked tops Γ used (.members ms) Γ' used')
    (hΓ : Within Γ used) (hbound : Bound prog env Γ) :
    Bound prog (ls ++ env) Γ' ∧ Site tops prog (ls ++ env) used used' (Stage.members ms).names
      (pre ++ (label l ++ lines)) rest := by
  have hold : ∀ x ∈ pre.varNames, x ∈ used' → x ∈ used := by
    intro x hx hx'
    simpa using h.old x hx hx'
  have hlabel : Code.varNames (pre ++ label l) = pre.varNames := by simp [Code.varNames]
  have hlines : Code.varNames (pre ++ (label l ++ lines)) = pre.varNames ++ lines.varNames := by
    simp [Code.varNames]
  constructor
  · have hwhole : prog = pre ++ label l ++ lines ++ rest := by simp [h.whole]
    exact hls.bound hms hΓ hwhole (by rwa [hlabel]) (by simp) (by rw [hlabel]; exact h.env) hbound
  · refine ⟨by simp [h.whole], ?_, ?_⟩
    · intro s hs
      rw [hlines, List.mem_append]
      rcases List.mem_append.1 hs with hs | hs
      · exact .inl (.inr ((hls.name_mem s hs).resolve_left (List.not_mem_nil)))
      · have := h.env s hs
        tauto
    · intro x hx hx'
      rw [hlines, List.mem_append, hls.varNames_eq] at hx
      rcases hx with hx | hx
      · exact .inl (hold x hx hx')
      · exact .inr hx

/-- The code of checked statements does to the slots what they do to the store. -/
theorem Checked.simulated {stage : Stage} (hprog : prog.labels.Nodup)
    (h : Checked tops Γ used stage Γ' used') (hΓ : Within Γ used) (hc : Printed env stage f c g)
    (hsite : Site tops prog env used used' stage.names pre (c ++ k)) (hbound : Bound prog env Γ')
    (hspread : Spread env f.index) (hm : Holds env Γ ρ m)
    (hes : stage.exec false ρ = .ok (ρ', es)) : Simulated prog env Γ' c k m ρ' es := by
  induction h generalizing env f g c k pre m ρ ρ' es with
  | var hx he =>
    cases hc with
    | zero => cases he
    | var hs hj hcode hb _ =>
      have hk := hsite.suffix
      rw [List.append_assoc] at hk
      exact store_simulated hprog he hcode hs hj hb hk hbound (.set hΓ hx) hspread hm hes
  | introduce hx _ he =>
    cases hc with
    | assignStatic hs hj =>
      obtain ⟨j, hs', -⟩ := hbound _ _ List.lookup_cons_self
      rw [hs] at hs'
      cases hs'
      cases hj
    | assignSlot hs hj hcode hb _ =>
      have hk := hsite.suffix
      rw [List.append_assoc] at hk
      exact store_simulated hprog he hcode hs hj hb hk hbound (.set hΓ hx) hspread hm hes
  | assign hx he =>
    have hsame := Extends.assign hx
    cases hc with
    | assignStatic hs hj =>
      obtain ⟨j, hs', -⟩ := hbound _ _ hx
      rw [hs] at hs'
      cases hs'
      cases hj
    | assignSlot hs hj hcode hb _ =>
      have hk := hsite.suffix
      rw [List.append_assoc] at hk
      exact (store_simulated hprog he hcode hs hj hb hk (hbound.mono hsame.2) hsame.1 hspread
        hm hes).of_bound hsame.1 hbound hbound
  | @block Γ used ms Γ' used' h ih =>
    cases hc with
    | @block _ _ _ lines ls g' d h' hls hd =>
      simp only [List.append_assoc] at hsite ⊢
      obtain ⟨hinner, hsite'⟩ := hsite.block hls h hΓ hbound
      have hΓ' := h.extends hΓ
      have hrun := ih hΓ hd hsite' hinner (hls.spread hspread)
        (hm.of_bound hbound (hinner.mono hΓ')) hes
      have hfirst : Outcome prog
          (label (.ofNat f.label) ++ (lines ++ (d ++ (label (.ofNat (f.label + 1)) ++ k))), m)
          ("this" ∈ ([] : List String)) (d ++ (label (.ofNat (f.label + 1)) ++ k), m) := by
        simpa using Outcome.of_runs (Runs.label.trans (Runs.vars hls.lines))
      exact Simulated.within hfirst (hrun.of_bound hΓ' (hinner.mono hΓ') hbound)
        (fun _ => Runs.label) (by simp)
  | @ifElse Γ used e y n used₁ used₂ he hy hn ihy ihn =>
    obtain ⟨b, xs, es, hv, hb, rfl⟩ := exec_ifElse_eq_ok.1 hes
    have hold : ∀ x ∈ pre.varNames, x ∈ used₂ → x ∈ used := by
      intro x hx hx'
      simpa [Stage.names, Node.introduced?] using hsite.old x hx hx'
    cases hc with
    | @ifOnly _ _ _ _ c t g h d g' hcode hdrop hd =>
      simp only [List.append_assoc] at hsite
      have hk := hsite.suffix
      have hend := suffix_of_append (suffix_of_append (suffix_of_append hk))
      have hrun := condition_runs hprog he hbound hm hcode hv hk hend
      cases b with
      | false =>
        cases hb
        exact Simulated.within hrun (.nothing hm) (fun _ => .refl) (by simp)
      | true =>
        rw [← List.append_assoc] at hsite
        have hsite' := hsite.inner (Stage.stmt y).names hold (List.Subset.refl _)
          hn.used_subset (by simp [Code.varNames, hcode.vars_eq_nil])
        have hindex :=
          ((hcode.advances.trans (Frame.advances_labelled _ 1)).drops hdrop).index
        exact Simulated.within hrun (ihy hΓ hd hsite' hbound (hspread.mono hindex) hm hb)
          (fun _ => .label) (by simp)
    | @ifElse _ _ _ _ _ c t g h d g' d' m' hcode hdrop _ hd hd' =>
      simp only [List.append_assoc] at hsite
      have hk := hsite.suffix
      have hno := suffix_of_append (suffix_of_append (suffix_of_append (suffix_of_append hk)))
      have hend := suffix_of_append (suffix_of_append hno)
      have hrun := condition_runs hprog he hbound hm hcode hv hk hno
      have hindex := ((hcode.advances.trans (Frame.advances_labelled _ 2)).drops hdrop).index
      cases b with
      | false =>
        have hsite' : Site tops prog env used used₂ (Stage.stmt (.ifElse e y n)).names pre
            ((c ++ (one (.ifZero .le (.ofNat (g.label + 1))) ++ (d ++
              (jump (.ofNat g.label) ++ label (.ofNat (g.label + 1)))))) ++
              (d' ++ (label (.ofNat g.label) ++ k))) := by
          simpa using hsite
        have hlines := hy.varNames_subset hΓ hd
        have hsite' := hsite'.inner (Stage.stmt n).names hold hy.used_subset
          (List.Subset.refl _) (by simpa [Code.varNames, hcode.vars_eq_nil] using hlines)
        have hindex := Int.le_trans hindex hd.advances.index
        exact Simulated.within hrun
          (ihn (hy.within hΓ) hd' hsite' hbound (hspread.mono hindex) hm hb)
          (fun _ => .label) (by simp)
      | true =>
        rw [← List.append_assoc] at hsite
        have hsite' := hsite.inner (Stage.stmt y).names hold (List.Subset.refl _)
          hn.used_subset (by simp [Code.varNames, hcode.vars_eq_nil])
        exact Simulated.within hrun (ihy hΓ hd hsite' hbound (hspread.mono hindex) hm hb)
          (fun _ => .jump hprog hend) (by simp)
  | none => cases hc
  | noMembers =>
    cases hc
    cases hes
    exact .nothing hm
  | member hm' hms ih ih' =>
    cases hc with
    | member hc hd =>
      obtain ⟨ρ₁, es₁, es₂, h₁, h₂, rfl⟩ := execAll_cons_eq_ok.1 hes
      rw [List.append_assoc] at hsite
      obtain ⟨hfirst, hothers⟩ := hsite.member hm' hms hΓ hc
      refine Simulated.seq (ih hΓ hc hfirst (hbound.mono (hms.extends (hm'.within hΓ))) hspread
        hm h₁) fun m₁ hm₁ => ?_
      exact ih' (hm'.within hΓ) hd hothers hbound (hspread.mono hc.advances.index) hm₁ h₂

end Simulated

end MiniGoc
