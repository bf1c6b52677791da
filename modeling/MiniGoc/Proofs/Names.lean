import MiniGoc.Proofs.Program

/-!
# The names in sight

At the top level a name belongs to every program, or it is declared (`mem_globalSymbols`); one
with the type of a function is a function (`function_of_mem`).  Inside of a function, the
environment has the names of its parameters and blocks in front of those of the top level.
They are kept in slots, so a name is either one of these or found at the top level
(`Nested`).
-/

namespace MiniGoc

theorem Node.funcParts?_of_isTypeTree {t : Node} (h : t.isTypeTree) :
    t.funcParts? = Option.none := by
  cases t <;> simp_all [isTypeTree, funcParts?]

section Globals

variable {ds : List Node} {n : String} {s : Symbol}

theorem mem_globalSymbols (hs : s ∈ globalSymbols ds) :
    s ∈ Symbol.builtins ∨ ∃ d ∈ ds, s ∈ declSymbols d := by
  rcases List.mem_append.1 hs with hs | hs
  · exact .inl hs
  · exact .inr (by simpa using hs)

theorem Symbol.home_of_builtin (hs : s ∈ Symbol.builtins) : s.home = .member "io" true := by
  have all : ∀ s ∈ Symbol.builtins, s.home = .member "io" true := by decide
  exact all s hs

/-- A name at the top level with the type of a function belongs to every program, or it is a
function of this one. -/
theorem function_of_mem (hds : ds.all Node.isDeclTree) (hs : s ∈ globalSymbols ds)
    {ps : List Node} {r : Node} (hparts : s.type.funcParts? = some (ps, r)) :
    r.isTypeTree ∧ (s.home = .member "io" true ∨ (s.home = .member mainClass true ∧
      ∃ qs b, .func s.name qs r b ∈ ds ∧
        s.type = .funcType (qs.map fun p => p.paramParts.2) r)) := by
  rcases mem_globalSymbols hs with hs | ⟨d, hd, hs⟩
  · have results : ∀ s ∈ Symbol.builtins, (s.type.funcParts?.all fun p => p.2.isTypeTree) := by
      decide
    have := results s hs
    rw [hparts] at this
    exact ⟨this, .inl (Symbol.home_of_builtin hs)⟩
  · have hdecl := List.all_eq_true.1 hds d hd
    cases d with
    | func m qs r' b =>
      obtain rfl := List.mem_singleton.1 hs
      cases hparts
      simp only [Node.isDeclTree, Bool.and_eq_true] at hdecl
      exact ⟨hdecl.1.1.2, .inr ⟨rfl, qs, b, hd, rfl⟩⟩
    | structType | interfaceType =>
      obtain rfl := List.mem_singleton.1 hs
      cases hparts
    | var m t i =>
      obtain rfl := List.mem_singleton.1 hs
      simp only [Node.isDeclTree, Bool.and_eq_true, Bool.or_eq_true, Node.isNone_iff] at hdecl
      rcases hdecl.1 with rfl | ht
      · cases hparts
      · cases hparts.symm.trans (Node.funcParts?_of_isTypeTree ht)
    | _ => cases hs

end Globals

/-- The types of the parameters of a method are those that are written, or the type of the
arguments of the command line. -/
theorem isTypeTree_of_mem_methodParams {n : String} {ps : List Node}
    (hps : ps.all Node.isParamTree) {p : String × Node} (hp : p ∈ methodParams n ps) :
    p.2.isTypeTree := by
  simp only [methodParams] at hp
  split at hp
  · obtain rfl := List.mem_singleton.1 hp
    rfl
  · obtain ⟨q, hq, rfl⟩ := List.mem_map.1 hp
    have htree := List.all_eq_true.1 hps q hq
    cases q with
    | param m t => exact htree
    | _ => cases htree

/-- The environments inside of functions: a name has a slot and a type of some sort, or it is
one at the top level. -/
def Nested (sort : Node → Bool) (globals env : List Symbol) : Prop :=
  ∀ n s, Symbol.find? n env = some s →
    ((∃ i, s.home = .slot i) ∧ sort s.type) ∨ Symbol.find? n globals = some s

namespace Nested

variable {sort : Node → Bool} {globals env ls : List Symbol}

theorem outermost : Nested sort globals globals := fun _ _ hs => .inr hs

theorem enter (h : Nested sort globals env)
    (hls : ∀ n s, Symbol.find? n ls = some s → (∃ i, s.home = .slot i) ∧ sort s.type) :
    Nested sort globals (ls ++ env) := by
  intro n s hs
  rw [Symbol.find?_append] at hs
  cases hlocal : Symbol.find? n ls with
  | none =>
    rw [hlocal] at hs
    exact h n s hs
  | some s' =>
    rw [hlocal] at hs
    cases hs
    exact .inl (hls n s hlocal)

end Nested

end MiniGoc
