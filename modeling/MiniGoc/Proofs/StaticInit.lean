import MiniGoc.Proofs.MainMethod
import Mathlib.Data.List.Nodup

/-!
# The method that initialises the variables of a program

A program whose variables at the top level are integers and truth values starts with all
of them zero.  The method `<clinit>` then gives each variable that has an initial value
this value, in the order of the declarations.  The value is computed from what the
variables are at that moment, so a variable that is declared later counts as zero.

Here the name `this` is a name as any other, since no variable is kept in a slot.
-/

namespace MiniGoc

open Emit

/-! ## What is initialised -/

/-- A type of variables that are integers or truth values. -/
def Ty.ofNode? : Node → Option Ty
  | .intType => some .int
  | .boolType => some .bool
  | _ => none

/-- The value of a variable before it is initialised. -/
def Ty.zero : Ty → Value
  | int => .int 0
  | bool => .bool false

/-- The name and the type of a variable. -/
def Node.globalVar? : Node → Option (String × Ty)
  | var x t _ => (Ty.ofNode? t).map fun τ => (x, τ)
  | _ => Option.none

/-- The name and the initial value of a variable, if it has one. -/
def Node.initialiser? : Node → Option (String × Node)
  | var x _ e => if e.isNone then Option.none else some (x, e)
  | _ => Option.none

/-- The variables of a program. -/
def globalVars (ds : List Node) : Vars := ds.filterMap Node.globalVar?

/-- The initial values, in the order of the declarations. -/
def initialisers (ds : List Node) : List (String × Node) := ds.filterMap Node.initialiser?

/-- The store in which every variable is zero. -/
def zeroStore (ds : List Node) : Store := (globalVars ds).map fun x => (x.1, x.2.zero)

/-- Gives variables the values of expressions, one after the other. -/
def storeAll (short : Bool) (ρ : Store) :
    List (String × Node) → Except Trap (Store × List Event)
  | [] => .ok (ρ, [])
  | (x, e) :: items => do
    let (ρ', es) ← store short ρ x e
    let (ρ'', es') ← storeAll short ρ' items
    return (ρ'', es ++ es')

/-- All variables are integers or truth values, and so are their initial values. -/
def GlobalsTyped (ds : List Node) : Prop :=
  ∀ x t e, .var x t e ∈ ds → ∃ τ : Ty, t = τ.node ∧ (e = .none ∨ HasType (globalVars ds) e τ)

/-- A variable is written to its field. -/
def fieldWrite (event : String × Value) : Write :=
  .field (mainClass ++ "/" ++ event.1) event.2.word

theorem Ty.eq_node_of_ofNode? {t : Node} {τ : Ty} (h : Ty.ofNode? t = some τ) : t = τ.node := by
  cases t <;> cases h <;> rfl

variable {ρ : Store} {items : List (String × Node)}

theorem storeAll_cons_eq_ok {short : Bool} {ρ' : Store} {x : String} {e : Node} {es : List Event} :
    storeAll short ρ ((x, e) :: items) = .ok (ρ', es) ↔ ∃ ρ₁ es₁ es₂,
      store short ρ x e = .ok (ρ₁, es₁) ∧ storeAll short ρ₁ items = .ok (ρ', es₂) ∧
        es = es₁ ++ es₂ := by
  simp only [storeAll, bind_eq_ok, pure, Except.pure]
  constructor
  · rintro ⟨⟨ρ₁, es₁⟩, hx, ⟨ρ₂, es₂⟩, hitems, h⟩
    cases h
    exact ⟨ρ₁, es₁, es₂, hx, hitems, rfl⟩
  · rintro ⟨ρ₁, es₁, es₂, hx, hitems, rfl⟩
    exact ⟨_, hx, _, hitems, rfl⟩

section Globals

variable {ds : List Node} (hnames : (topNames ds).Nodup)

include hnames

theorem find?_globalSymbols {s : Symbol} (hs : s ∈ globalSymbols ds) :
    Symbol.find? s.name (globalSymbols ds) = some s := by
  rcases hfind : Symbol.find? s.name (globalSymbols ds) with _ | t
  · exact absurd rfl (Symbol.find?_eq_none.1 hfind s hs)
  · have hname := Symbol.name_of_find? hfind
    rw [List.inj_on_of_nodup_map hnames (Symbol.mem_of_find? hfind) hs hname]

variable {x : String} {e : Node}

theorem find?_var {t : Node} (h : .var x t e ∈ ds) :
    Symbol.find? x (globalSymbols ds) = some (.global x t) := by
  have hmem : Symbol.global x t ∈ globalSymbols ds :=
    List.mem_append_right _ (List.mem_flatMap.2 ⟨_, h, List.mem_singleton.2 rfl⟩)
  exact find?_globalSymbols hnames hmem

theorem find?_globalVars {τ : Ty} (h : (globalVars ds).lookup x = some τ) :
    Symbol.find? x (globalSymbols ds) = some (.global x τ.node) := by
  have hmem : (x, τ) ∈ globalVars ds := by
    obtain ⟨_, _, heq, -⟩ := List.lookup_eq_some_iff.1 h
    simp [heq]
  obtain ⟨d, hd, hvar⟩ := List.mem_filterMap.1 hmem
  cases d with
  | var y t e =>
    simp only [Node.globalVar?, Option.map_eq_some_iff, Prod.mk.injEq] at hvar
    obtain ⟨σ, hσ, rfl, rfl⟩ := hvar
    rw [find?_var hnames hd, Ty.eq_node_of_ofNode? hσ]
  | _ => cases hvar

theorem eq_of_lookup_globalVars {τ σ : Ty} (h : (globalVars ds).lookup x = some τ)
    (hx : .var x σ.node e ∈ ds) : τ = σ := by
  have hfind := find?_globalVars hnames h
  rw [find?_var hnames hx] at hfind
  exact Ty.node_inj (congrArg Symbol.type (Option.some.inj hfind)).symm

/-- At first the machine has zero for every variable. -/
theorem holds_zeroStore : Holds (globalSymbols ds) (globalVars ds) (zeroStore ds) {} := by
  have lookup_zero (Γ : Vars) (x : String) :
      (Γ.map fun y => (y.1, y.2.zero)).lookup x = (Γ.lookup x).map Ty.zero := by
    induction Γ with
    | nil => rfl
    | cons y Γ ih =>
      obtain ⟨y, τ⟩ := y
      simp only [List.map_cons, List.lookup_cons, ih]
      cases x == y <;> rfl
  intro x τ hx
  refine ⟨.global x τ.node, τ.zero, find?_globalVars hnames hx, rfl, ?_, ?_, ?_⟩
  · rw [zeroStore, lookup_zero, hx]
    rfl
  · cases τ <;> rfl
  · cases τ <;> rfl

/-- The store after a variable has been written to its field. -/
theorem Holds.setField {ρ : Store} {m : StackMachine} {v : Value}
    (h : Holds (globalSymbols ds) (globalVars ds) ρ m) (hx : .var x v.ty.node e ∈ ds) :
    Holds (globalSymbols ds) (globalVars ds) ((x, v) :: ρ)
      (m.setField (mainClass ++ "/" ++ x) v.word) := by
  intro y τ hy
  have hfind := find?_globalVars hnames hy
  refine ⟨.global y τ.node, ?_⟩
  by_cases hxy : y = x
  · subst hxy
    have hty := eq_of_lookup_globalVars hnames hy hx
    refine ⟨v, hfind, rfl, List.lookup_cons_self, hty.symm, ?_⟩
    simp [StackMachine.word?, Symbol.global, StackMachine.setField]
  · obtain ⟨s, w, hs, -, hw, hty, hword⟩ := h y τ hy
    rw [hfind] at hs
    cases hs
    have hne : (y == x) = false := by simpa using hxy
    have hfield : mainClass ++ "/" ++ y ≠ mainClass ++ "/" ++ x := by
      simpa using hxy
    refine ⟨w, hfind, rfl, by simpa only [List.lookup_cons, hne] using hw, hty, ?_⟩
    simpa [StackMachine.word?, Symbol.global, StackMachine.setField, Function.update_of_ne hfield]
      using hword

/-- The code that initialises fields writes the values of their initialisers. -/
theorem Fields.runs {prog k : Code} (hprog : prog.labels.Nodup) (hvars : GlobalsTyped ds)
    (hconst : ∀ d ∈ ds, d.isConst = false) {ds' : List Node} {fs c : Code}
    {items : List (Symbol × Node)} {f g : Frame} {ρ ρ' : Store} {m : StackMachine} {es : List Event}
    (hfields : Fields (globalSymbols ds) ds' fs items)
    (hds' : ds' ⊆ ds) (hc : Initialised (globalSymbols ds) items f c g) (hk : c ++ k <:+ prog)
    (hm : Holds (globalSymbols ds) (globalVars ds) ρ m)
    (hes : storeAll false ρ (initialisers ds') = .ok (ρ', es)) :
    ∃ m', Runs prog (c ++ k, m) (k, m') ∧ m'.stack = m.stack ∧
      m'.writes = m.writes ++ (Event.writes es).map fieldWrite := by
  induction hfields generalizing f c g ρ m es with
  | nil =>
    cases hc
    cases hes
    exact ⟨m, .refl, rfl, by simp [Event.writes]⟩
  | @field d ds' n s o t fs items hn hs hhome ht _ ih =>
    rw [List.cons_subset] at hds'
    cases d with
    | const => cases hconst _ hds'.1
    | var x u e =>
      cases hn
      obtain ⟨τ, rfl, rfl | he⟩ := hvars _ _ _ hds'.1
      · exact ih hds'.2 hc hk hm hes
      · have hinit : (if (Gen.initOf (.var n τ.node e)).truthy then [(s, .var n τ.node e)]
            else []) = [(s, Node.var n τ.node e)] := by
          cases he <;> rfl
        have hitems : initialisers (.var n τ.node e :: ds') = (n, e) :: initialisers ds' := by
          cases he <;> rfl
        rw [hinit] at hc
        rw [hitems] at hes
        rw [find?_var hnames hds'.1] at hs
        cases hs
        cases hc with
        | cons hcode ht' _ hrest =>
          obtain ⟨ρ₁, es₁, es₂, hstore, hothers, rfl⟩ := storeAll_cons_eq_ok.1 hes
          obtain ⟨v, xs, hv, rfl, rfl⟩ := store_eq_ok.1 hstore
          obtain rfl := he.ty_eq hm.fits hv
          simp only [List.append_assoc] at hk ⊢
          have hnoslot : ¬ ("this" ∈ xs ∧ HasSlot (globalSymbols ds) "this") := by
            rintro ⟨-, s, i, hs, hi⟩
            exact globalSymbols_home (Symbol.mem_of_find? hs) i hi
          have hword := isWord_of_descriptor ht'
          have hfirst := ((he.runs hprog hm hcode hv hk).runs hnoslot).trans
            (Runs.putStatic hword)
          obtain ⟨m', hrun, hstack, hwrites⟩ := ih hds'.2 hrest
            (suffix_of_append (suffix_of_append hk)) (hm.setField hnames hds'.1) hothers
          refine ⟨m', hfirst.trans hrun, hstack, ?_⟩
          rw [hwrites]
          simp [StackMachine.setField, Event.writes, fieldWrite]
    | _ => cases hn
  | @skip d ds' fs items hno _ ih =>
    rw [List.cons_subset] at hds'
    cases d with
    | var x u e =>
      exact absurd rfl (hno x _ true rfl (find?_var hnames hds'.1))
    | _ => exact ih hds'.2 hc hk hm hes

end Globals

/-! ## The initial values -/

/-- Every initial value has the type of its variable. -/
theorem GlobalsTyped.initialiser {ds : List Node} (h : GlobalsTyped ds) {x : String} {e : Node}
    (hx : (x, e) ∈ initialisers ds) :
    ∃ τ : Ty, HasType (globalVars ds) e τ ∧ .var x τ.node e ∈ ds := by
  obtain ⟨d, hd, hinit⟩ := List.mem_filterMap.1 hx
  cases d with
  | var y t e' =>
    simp only [Node.initialiser?] at hinit
    split at hinit
    · cases hinit
    · next hsome =>
      cases hinit
      obtain ⟨τ, rfl, rfl | he⟩ := h _ _ _ hd
      · exact absurd rfl hsome
      · exact ⟨τ, he, hd⟩
  | _ => cases hinit

/-- Typed values can be stored, unless something is divided by zero. -/
theorem storeAll_sound {Γ : Vars}
    (hitems : ∀ x e, (x, e) ∈ items → ∃ τ, HasType Γ e τ ∧ ∀ σ, Γ.lookup x = some σ → σ = τ)
    (hρ : Fits Γ ρ) :
    (∃ ρ' es, storeAll false ρ items = .ok (ρ', es)) ∨
      storeAll false ρ items = .error .zeroDivide := by
  induction items generalizing ρ with
  | nil => exact .inl ⟨ρ, [], rfl⟩
  | cons item items ih =>
    obtain ⟨x, e⟩ := item
    obtain ⟨τ, he, hx⟩ := hitems x e (List.mem_cons_self ..)
    rcases store_sound he hρ with ⟨v, es, hv, rfl⟩ | hv
    · have hρ' : Fits Γ ((x, v) :: ρ) := by
        intro y σ hy
        by_cases hxy : y = x
        · subst hxy
          exact ⟨v, List.lookup_cons_self, (hx σ hy).symm⟩
        · have hne : (y == x) = false := by simpa using hxy
          simpa only [List.lookup_cons, hne] using hρ y σ hy
      rcases ih (fun y e' hy => hitems y e' (List.mem_cons_of_mem _ hy)) hρ' with ⟨ρ', es', h⟩ | h
      · exact .inl ⟨ρ', _, storeAll_cons_eq_ok.2 ⟨_, es, es', hv, h, rfl⟩⟩
      · exact .inr (by simp [storeAll, hv, h, bind, Except.bind])
    · exact .inr (by simp [storeAll, hv, bind, Except.bind])

/-- Leaving operands out does not change what is stored. -/
theorem storeAll_shortened {Γ : Vars} {ρ' : Store} {es : List Event}
    (hitems : ∀ x e, (x, e) ∈ items → ∃ τ, HasType Γ e τ)
    (h : storeAll false ρ items = .ok (ρ', es)) :
    ∃ es', storeAll true ρ items = .ok (ρ', es') ∧ Event.writes es' = Event.writes es := by
  induction items generalizing ρ es with
  | nil =>
    cases h
    exact ⟨[], rfl, rfl⟩
  | cons item items ih =>
    obtain ⟨x, e⟩ := item
    obtain ⟨τ, he⟩ := hitems x e (List.mem_cons_self ..)
    obtain ⟨ρ₁, es₁, es₂, h₁, h₂, rfl⟩ := storeAll_cons_eq_ok.1 h
    obtain ⟨fs₁, h₁, hw₁⟩ := store_shortened he h₁
    obtain ⟨fs₂, h₂, hw₂⟩ := ih (fun y e' hy => hitems y e' (List.mem_cons_of_mem _ hy)) h₂
    exact ⟨_, storeAll_cons_eq_ok.2 ⟨ρ₁, fs₁, fs₂, h₁, h₂, rfl⟩, by simp [hw₁, hw₂]⟩

/-- The method `<clinit>` writes the initial values to the fields of their variables, in the
order of the declarations, and nothing else, and comes to its end with an empty stack. -/
theorem static_init_writes {ds : List Node} {w : Workspace} (hds : (Node.program ds).isProgram)
    (hnames : (topNames ds).Nodup) (hvars : GlobalsTyped ds)
    (hdiv : storeAll false (zeroStore ds) (initialisers ds) ≠ .error .zeroDivide)
    (hgen : Gen.run (.program ds) = (.ok (), w)) :
    ∃ code init bodies stop ρ es m,
      w.files.lookup (Listing.fileName mainClass) = some (Code.render code) ∧
      code.methods = ("<clinit>", init) :: bodies ∧ IsEnd .voidType stop ∧
      storeAll false (zeroStore ds) (initialisers ds) = .ok (ρ, es) ∧
      (∃ es', storeAll true (zeroStore ds) (initialisers ds) = .ok (ρ, es') ∧
        Event.writes es' = Event.writes es) ∧
      Runs init (init, {}) (stop, m) ∧ m.stack = [] ∧
      m.writes = (Event.writes es).map fieldWrite := by
  obtain ⟨code, hcode, hfile⟩ := Gen.run_compiled hds hgen
  obtain ⟨fs, items, init, bodies, hconst, hfields, hinit, hmethods, -⟩ := hcode.methods
  have hlabels := hinit.labels_nodup
  have hzero := holds_zeroStore hnames
  have hitems : ∀ x e, (x, e) ∈ initialisers ds → ∃ τ, HasType (globalVars ds) e τ ∧
      ∀ σ, (globalVars ds).lookup x = some σ → σ = τ := by
    intro x e hx
    obtain ⟨τ, he, hvar⟩ := hvars.initialiser hx
    exact ⟨τ, he, fun σ hσ => eq_of_lookup_globalVars hnames hσ hvar⟩
  obtain ⟨ρ, es, hes⟩ := (storeAll_sound hitems hzero.fits).resolve_right hdiv
  have hshort := storeAll_shortened (fun x e hx => (hitems x e hx).imp fun _ h => h.1) hes
  cases hinit with
  | @intro c f hc =>
      simp only [List.append_assoc] at hlabels
      have hk : c ++ (label (.ofNat 1) ++ (one .ret ++ limitLines f)) <:+
          label (.ofNat 0) ++ (c ++ (label (.ofNat 1) ++ (one .ret ++ limitLines f))) :=
        List.suffix_append _ _
      obtain ⟨m, hrun, hstack, hwrites⟩ := hfields.runs hnames hlabels hvars hconst
        (List.Subset.refl _) hc hk hzero hes
      refine ⟨code, _, bodies, one .ret ++ limitLines f, ρ, es, m, hfile, hmethods,
        ⟨_, f, rfl, rfl⟩, hes, hshort, ?_, hstack, by simpa using hwrites⟩
      simp only [List.append_assoc]
      exact (Runs.label.trans hrun).trans Runs.label

/-- A program in which an initial value refers to a later variable. -/
def forwardProgram : List Node :=
  [.var "a" .intType (.intLit (.int 5)), .var "b" .boolType (.binary ">" (.id "a") (.id "c")),
   .var "c" .intType (.intLit (.int 6)), .var "this" .intType (.binary "-" (.id "a") (.id "c"))]

theorem static_init_writes_forward :
    ∃ code init bodies stop m, (Gen.run (.program forwardProgram)).2.files.lookup
        (Listing.fileName mainClass) = some (Code.render code) ∧
      code.methods = ("<clinit>", init) :: bodies ∧ IsEnd .voidType stop ∧
      Runs init (init, {}) (stop, m) ∧ m.stack = [] ∧
      m.writes = [.field "MiniGoClass/a" 5, .field "MiniGoClass/b" 1, .field "MiniGoClass/c" 6,
        .field "MiniGoClass/this" (-1)] := by
  have hes : ∃ ρ, storeAll false (zeroStore forwardProgram) (initialisers forwardProgram) =
      .ok (ρ, [.write "a" (.int 5), .read "a", .read "c", .write "b" (.bool true),
        .write "c" (.int 6), .read "a", .read "c", .write "this" (.int (-1))]) := ⟨_, rfl⟩
  obtain ⟨ρ, hes⟩ := hes
  have hvars : GlobalsTyped forwardProgram := by
    intro x t e h
    simp only [forwardProgram, List.mem_cons, List.not_mem_nil, or_false, Node.var.injEq] at h
    rcases h with ⟨rfl, rfl, rfl⟩ | ⟨rfl, rfl, rfl⟩ | ⟨rfl, rfl, rfl⟩ | ⟨rfl, rfl, rfl⟩
    · exact ⟨.int, rfl, .inr (.literal rfl (by decide) (by decide))⟩
    · exact ⟨.bool, rfl, .inr (.comparison (by decide) (.name rfl) (.name rfl))⟩
    · exact ⟨.int, rfl, .inr (.literal rfl (by decide) (by decide))⟩
    · exact ⟨.int, rfl, .inr (.arithmetic (by decide) (.name rfl) (.name rfl))⟩
  obtain ⟨code, init, bodies, stop, ρ', es, m, hfile, hmethods, hend, hes', -, hrun, hstack, hw⟩ :=
    static_init_writes (by decide) (by decide) hvars (by rw [hes]; nofun)
      (Gen.run_eq_of_isOk (by decide +kernel))
  rw [hes] at hes'
  cases hes'
  exact ⟨code, init, bodies, stop, m, hfile, hmethods, hend, hrun, hstack, by rw [hw]; decide⟩

end MiniGoc
