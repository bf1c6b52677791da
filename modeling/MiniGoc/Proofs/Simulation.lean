import MiniGoc.Proofs.Machine
import MiniGoc.Proofs.Meaning

/-!
# The code of expressions on the machine

The machine, run on the code of a typed expression, pushes its value and changes nothing
else (`HasType.runs`).  The variables may be kept in slots or in static fields; what a
machine has to know of them is `Holds`.

There is one exception.  A variable in a slot that is named `this` is read as if it were
an object, whatever its type.  So the run is stuck as soon as that name is read.
-/

namespace MiniGoc

open Emit

/-! ## The code of operators -/

section Inversion

variable {env : List Symbol} {op : String} {l r t : Node} {f g : Frame} {c : Code}

/-- The rule by which an operator has code. -/
inductive BinaryRule (op : String) (cl : Code) (lt : Node) (cr : Code) (rt : Node) (h : Frame) :
    Code → Node → Prop where
  | arithmetic : op ∈ arithmeticOperators →
      BinaryRule op cl lt cr rt h ((Mixture.of op lt rt).operands cl cr ++
        one (arithmeticInstr op (Mixture.of op lt rt).type)) (Mixture.of op lt rt).type
  | comparison {code g} : op ∈ relationalOperators → Compares op h.label lt (h.labelled 2) code g →
      BinaryRule op cl lt cr rt h (cl ++ cr ++ code) .boolType
  | logical {i} : (op = "&&" ∧ i = .iand) ∨ (op = "||" ∧ i = .ior) →
      BinaryRule op cl lt cr rt h (cl ++ cr ++ one i) .boolType

theorem Coded.of_binary (hc : Coded env (.expr (.binary op l r)) f c t g) :
    ∃ cl lt g₁ cr rt h, Coded env (.expr l) f cl lt g₁ ∧ Coded env (.expr r) g₁ cr rt h ∧
      BinaryRule op cl lt cr rt h c t := by
  generalize he : Fragment.expr (.binary op l r) = part at hc
  cases hc with
  | arithmetic hop hl hr hx _ _ =>
    cases he
    subst hx
    exact ⟨_, _, _, _, _, _, hl, hr, .arithmetic hop⟩
  | comparison hop hl hr hcode =>
    cases he
    exact ⟨_, _, _, _, _, _, hl, hr, .comparison hop hcode⟩
  | both hl hr _ =>
    cases he
    exact ⟨_, _, _, _, _, _, hl, hr, .logical (.inl ⟨rfl, rfl⟩)⟩
  | either hl hr _ =>
    cases he
    exact ⟨_, _, _, _, _, _, hl, hr, .logical (.inr ⟨rfl, rfl⟩)⟩
  | _ => cases he

theorem Coded.of_arithmetic (hop : op ∈ arithmeticOperators)
    (hc : Coded env (.expr (.binary op l r)) f c t g) :
    ∃ cl lt g₁ cr rt h, Coded env (.expr l) f cl lt g₁ ∧ Coded env (.expr r) g₁ cr rt h ∧
      t = (Mixture.of op lt rt).type ∧
      c = (Mixture.of op lt rt).operands cl cr ++ one (arithmeticInstr op t) := by
  obtain ⟨cl, lt, g₁, cr, rt, h, hl, hr, hrule⟩ := hc.of_binary
  refine ⟨cl, lt, g₁, cr, rt, h, hl, hr, ?_⟩
  cases hrule with
  | arithmetic => exact ⟨rfl, rfl⟩
  | comparison hop' => exact absurd hop' (not_mem_relational hop)
  | logical h =>
    rcases h with ⟨rfl, -⟩ | ⟨rfl, -⟩ <;> exact absurd hop (by decide)

theorem Coded.of_comparison (hop : op ∈ relationalOperators)
    (hc : Coded env (.expr (.binary op l r)) f c t g) :
    ∃ cl lt g₁ cr rt h, Coded env (.expr l) f cl lt g₁ ∧ Coded env (.expr r) g₁ cr rt h ∧
      t = .boolType ∧
      ∃ code k, Compares op h.label lt (h.labelled 2) code k ∧ c = cl ++ cr ++ code := by
  obtain ⟨cl, lt, g₁, cr, rt, h, hl, hr, hrule⟩ := hc.of_binary
  refine ⟨cl, lt, g₁, cr, rt, h, hl, hr, ?_⟩
  cases hrule with
  | arithmetic hop' => exact absurd hop (not_mem_relational hop')
  | comparison _ hcode => exact ⟨rfl, _, _, hcode, rfl⟩
  | logical h =>
    rcases h with ⟨rfl, -⟩ | ⟨rfl, -⟩ <;> exact absurd hop (by decide)

theorem Coded.of_logical (hop : op = "&&" ∨ op = "||")
    (hc : Coded env (.expr (.binary op l r)) f c t g) :
    ∃ cl lt g₁ cr rt h, Coded env (.expr l) f cl lt g₁ ∧ Coded env (.expr r) g₁ cr rt h ∧
      t = .boolType ∧ c = cl ++ cr ++ one (if op = "&&" then .iand else .ior) := by
  obtain ⟨cl, lt, g₁, cr, rt, h, hl, hr, hrule⟩ := hc.of_binary
  refine ⟨cl, lt, g₁, cr, rt, h, hl, hr, ?_⟩
  cases hrule with
  | arithmetic hop' | comparison hop' =>
    rcases hop with rfl | rfl <;> exact absurd hop' (by decide)
  | logical h =>
    rcases h with ⟨rfl, rfl⟩ | ⟨rfl, rfl⟩
    · exact ⟨rfl, rfl⟩
    · exact ⟨rfl, rfl⟩

end Inversion

/-! ## Operators on the machine -/

/-- Operators of arithmetic are computed by their instructions. -/
theorem binary?_of_calculate {op : String} {a b w : Int32} (hop : op ∈ arithmeticOperators)
    (h : calculate op a b = .ok w) : (arithmeticInstr op .intType).binary? a b = some w := by
  simp only [arithmeticOperators, List.mem_cons, List.not_mem_nil, or_false] at hop
  rcases hop with rfl | rfl | rfl | rfl | rfl
  · cases h
    rfl
  · cases h
    rfl
  · cases h
    rfl
  · show Instr.idiv.binary? a b = some w
    by_cases hb : b = 0
    · simp [calculate, hb] at h
    · simpa [calculate, hb, Instr.binary?] using h
  · show Instr.irem.binary? a b = some w
    by_cases hb : b = 0
    · simp [calculate, hb] at h
    · simpa [calculate, hb, Instr.binary?] using h

theorem failing?_test {op : String} (hop : op ∈ relationalOperators) :
    ∃ c, failing? op = some c ∧ ∀ a b : Int32, c.test a b = !holds op a b := by
  simp only [relationalOperators, List.mem_cons, List.not_mem_nil, or_false] at hop
  rcases hop with rfl | rfl | rfl | rfl | rfl | rfl
  · exact ⟨.ne, rfl, fun a b => rfl⟩
  · exact ⟨.eq, rfl, fun a b => by simp [Cond.test, holds, bne]⟩
  · exact ⟨.ge, rfl, fun a b => by simp [Cond.test, holds, ← decide_not, Int32.not_lt]⟩
  · exact ⟨.gt, rfl, fun a b => by simp [Cond.test, holds, ← decide_not, Int32.not_le]⟩
  · exact ⟨.le, rfl, fun a b => by simp [Cond.test, holds, ← decide_not, Int32.not_lt]⟩
  · exact ⟨.lt, rfl, fun a b => by simp [Cond.test, holds, ← decide_not, Int32.not_le]⟩

theorem word_and (a b : Bool) :
    Instr.iand.binary? (Value.bool a).word (Value.bool b).word =
      some (Value.bool (a && b)).word := by
  cases a <;> cases b <;> decide

theorem word_or (a b : Bool) :
    Instr.ior.binary? (Value.bool a).word (Value.bool b).word =
      some (Value.bool (a || b)).word := by
  cases a <;> cases b <;> decide

theorem constant?_intConstant {i : Int} (h₀ : 0 ≤ i) (h₁ : i ≤ 2147483647) :
    (intConstant i).constant? = some (.ofInt i) := by
  unfold intConstant
  split
  · next h => simp [Instr.constant?, h]
  · split
    · next h => simp [Instr.constant?, h]
    · split
      · next h => simp [Instr.constant?, h]
      · have hrange : -2147483648 ≤ i ∧ i ≤ 2147483647 := by omega
        simp [Instr.constant?, hrange]

theorem intInstr?_of_numeral? {v : Node} {i : Int} (h : v.numeral? = some i) :
    intInstr? v = some (intConstant i) := by
  cases v with
  | int j =>
    cases h
    rfl
  | text s =>
    have htrue : s ≠ "true" := by
      rintro rfl
      cases (show Numeral.readInt? "true" = none by decide).symm.trans h
    have hfalse : s ≠ "false" := by
      rintro rfl
      cases (show Numeral.readInt? "false" = none by decide).symm.trans h
    simp only [Node.numeral?] at h
    simp [intInstr?, htrue, hfalse, h]
  | _ => cases h

theorem isWord_of_descriptor {τ : Ty} {d : String} (h : τ.node.descriptor = .ok d) : isWord d := by
  cases τ <;> cases h <;> rfl

/-! ## Variables -/

/-- The names of the variables stand for symbols of their types. -/
def Typed (env : List Symbol) (Γ : Vars) : Prop :=
  ∀ x τ, Γ.lookup x = some τ → ∃ s, Symbol.find? x env = some s ∧ s.type = τ.node

def StackMachine.word? (m : StackMachine) (s : Symbol) : Option Int32 :=
  match s.home with
  | .slot i => m.slots i
  | .member owner _ => some (m.fields (owner ++ "/" ++ s.name))
  | .unknown => none

/-- The machine has the values of the store. -/
def Holds (env : List Symbol) (Γ : Vars) (ρ : Store) (m : StackMachine) : Prop :=
  ∀ x τ, Γ.lookup x = some τ → ∃ s v, Symbol.find? x env = some s ∧ s.type = τ.node ∧
    ρ.lookup x = some v ∧ v.ty = τ ∧ m.word? s = some v.word

section

variable {env : List Symbol} {Γ : Vars} {ρ : Store} {m : StackMachine}

theorem Holds.typed (h : Holds env Γ ρ m) : Typed env Γ := by
  intro x τ hx
  obtain ⟨s, v, hs, ht, -⟩ := h x τ hx
  exact ⟨s, hs, ht⟩

theorem Holds.fits (h : Holds env Γ ρ m) : Fits Γ ρ := by
  intro x τ hx
  obtain ⟨s, v, -, -, hv, ht, -⟩ := h x τ hx
  exact ⟨v, hv, ht⟩

@[simp] theorem StackMachine.word?_push (s : Symbol) (w : Int32) :
    (m.push w).word? s = m.word? s := rfl

theorem Holds.push (h : Holds env Γ ρ m) (w : Int32) : Holds env Γ ρ (m.push w) := h

/-- The code of an expression has the type of the expression. -/
theorem HasType.type_eq {e t : Node} {τ : Ty} {f g : Frame} {c : Code} (he : HasType Γ e τ)
    (henv : Typed env Γ) (hc : Coded env (.expr e) f c t g) : t = τ.node := by
  induction he generalizing f c t g with
  | literal =>
    cases hc
    rfl
  | @name x τ hx =>
    obtain ⟨s, hs, ht⟩ := henv x τ hx
    cases hc with
    | name h =>
      cases h with
      | slot hs' _ _ | static hs' _ _ =>
        rw [hs] at hs'
        cases hs'
        exact ht
  | arithmetic hop _ _ ihl ihr =>
    obtain ⟨cl, lt, g₁, cr, rt, h₁, hl, hr, hx, -⟩ := hc.of_arithmetic hop
    rw [hx, ihl hl, ihr hr]
    rfl
  | comparison hop =>
    obtain ⟨cl, lt, g₁, cr, rt, h₁, hl, hr, ht, -⟩ := hc.of_comparison hop
    exact ht
  | both | either =>
    obtain ⟨cl, lt, g₁, cr, rt, h₁, hl, hr, ht, -⟩ := hc.of_logical (by decide)
    exact ht

end

/-! ## Expressions on the machine -/

section Runs

variable {prog k : Code} (hprog : prog.labels.Nodup)

variable {c : Code} {env : List Symbol} {m : StackMachine} {f g : Frame}

theorem suffix_of_append (h : c ++ k <:+ prog) : k <:+ prog :=
  (List.suffix_append c k).trans h

/-- The code of a name pushes its value, unless the name is taken for that of an object. -/
theorem reads_runs {Γ : Vars} {ρ : Store} {x : String} {τ : Ty} {v : Value} {t : Node}
    (hm : Holds env Γ ρ m) (hx : Γ.lookup x = some τ) (hv : ρ.lookup x = some v)
    (hc : Reads env x f c t g) :
    Outcome prog (c ++ k, m) (x = "this" ∧ HasSlot env "this") (k, m.push v.word) := by
  obtain ⟨s, v', hs, ht, hv', -, hw⟩ := hm x τ hx
  rw [hv] at hv'
  cases hv'
  cases hc with
  | @slot s' i b hs' hhome hbank =>
    rw [hs] at hs'
    cases hs'
    simp only [StackMachine.word?, hhome] at hw
    by_cases hthis : x = "this"
    · subst hthis
      cases hbank
      exact ⟨fun hgood => absurd ⟨rfl, s, i, hs, hhome⟩ hgood, fun _ => ⟨i, k, m, .refl⟩⟩
    · simp only [bankFor?, hthis, if_false, ht] at hbank
      have hb : b = .int := by cases τ <;> exact (Option.some.inj hbank).symm
      subst hb
      exact ⟨fun _ => .load hw, fun hbad => absurd hbad.1 hthis⟩
  | @static s' o d hs' hhome hd =>
    rw [hs] at hs'
    cases hs'
    simp only [StackMachine.word?, hhome, Option.some.injEq] at hw
    rw [Symbol.name_of_find? hs] at hw
    rw [ht] at hd
    have hword := isWord_of_descriptor hd
    refine ⟨fun _ => ?_, ?_⟩
    · rw [← hw]
      exact .getStatic hword
    · rintro ⟨rfl, s', i, hs', hhome'⟩
      rw [hs] at hs'
      cases hs'
      cases hhome.symm.trans hhome'

theorem operands_run {cl cr : Code} {m₁ m₂ : StackMachine} {xs ys : List String}
    (hl : Outcome prog (cl ++ (cr ++ k), m) ("this" ∈ xs ∧ HasSlot env "this") (cr ++ k, m₁))
    (hr : Outcome prog (cr ++ k, m₁) ("this" ∈ ys ∧ HasSlot env "this") (k, m₂)) :
    Outcome prog (cl ++ (cr ++ k), m) ("this" ∈ xs ++ ys ∧ HasSlot env "this") (k, m₂) := by
  simpa [or_and_right] using hl.seq hr

include hprog

/-- The code of a comparison takes two integers and pushes whether it holds for them. -/
theorem compares_runs {op : String} {l : Nat} {code : Code} {a b : Int32}
    (hop : op ∈ relationalOperators) (hcode : Compares op l .intType f code g)
    (hk : code ++ k <:+ prog) :
    Runs prog (code ++ k, (m.push a).push b) (k, m.push (Value.bool (holds op a b)).word) := by
  cases hcode with
  | other h => exact absurd rfl h
  | ints _ =>
    obtain ⟨c, hc, htest⟩ := failing?_test hop
    simp only [failJump, hc, outcomes, List.append_assoc] at hk ⊢
    have hno := suffix_of_append (suffix_of_append (suffix_of_append hk))
    have hdone := suffix_of_append (suffix_of_append hno)
    refine (Runs.ifInts hprog hno).trans ?_
    rw [htest]
    cases holds op a b with
    | true => exact (Runs.constant rfl).trans (Runs.jump hprog hdone)
    | false => exact (Runs.constant rfl).trans Runs.label

/-- The code of a typed expression pushes its value, unless a name is taken for that of an
object. -/
theorem HasType.runs {Γ : Vars} {ρ : Store} {e t : Node} {τ : Ty} {v : Value} {xs : List String}
    (he : HasType Γ e τ) (hm : Holds env Γ ρ m) (hc : Coded env (.expr e) f c t g)
    (hv : eval false ρ e = .ok (v, xs)) (hk : c ++ k <:+ prog) :
    Outcome prog (c ++ k, m) ("this" ∈ xs ∧ HasSlot env "this") (k, m.push v.word) := by
  induction he generalizing m v xs f g c t k with
  | @literal n i hi h₀ h₁ =>
    simp only [eval, hi] at hv
    cases hv
    cases hc with
    | number hn =>
      rw [intInstr?_of_numeral? hi] at hn
      cases hn
      simpa [Value.word] using Outcome.of_runs (.constant (constant?_intConstant h₀ h₁))
  | @name x τ hx =>
    simp only [eval] at hv
    split at hv
    · next hlookup =>
      cases hv
      cases hc with
      | name h => simpa [eq_comm] using reads_runs hm hx hlookup h
    · cases hv
  | @arithmetic op l r hop hlt hrt ihl ihr =>
    obtain ⟨cl, lt, g₁, cr, rt, h₁, hl, hr, ht, rfl⟩ := hc.of_arithmetic hop
    obtain rfl := hlt.type_eq hm.typed hl
    obtain rfl := hrt.type_eq hm.typed hr
    obtain rfl : t = .intType := ht
    obtain ⟨a, ys, b, zs, ha, hb, hab, rfl⟩ := eval_binary_inv hv
    obtain ⟨a, rfl⟩ := Value.ty_eq_int (hlt.ty_eq hm.fits ha)
    obtain ⟨b, rfl⟩ := Value.ty_eq_int (hrt.ty_eq hm.fits hb)
    rw [combine_arithmetic hop] at hab
    rcases hw : calculate op a b with t | w
    · rw [hw] at hab
      cases hab
    · rw [hw] at hab
      cases hab
      simp only [Mixture.of, Mixture.operands, Ty.node, List.append_assoc] at hk ⊢
      have hk' := suffix_of_append hk
      exact (operands_run (ihl hm hl ha hk) (ihr (hm.push a) hr hb hk')).andThen
        (.binary (binary?_of_calculate hop hw))
  | @comparison op l r hop hlt hrt ihl ihr =>
    obtain ⟨cl, lt, g₁, cr, rt, h₁, hl, hr, rfl, code, k', hcode, rfl⟩ := hc.of_comparison hop
    obtain rfl := hlt.type_eq hm.typed hl
    obtain ⟨a, ys, b, zs, ha, hb, hab, rfl⟩ := eval_binary_inv hv
    obtain ⟨a, rfl⟩ := Value.ty_eq_int (hlt.ty_eq hm.fits ha)
    obtain ⟨b, rfl⟩ := Value.ty_eq_int (hrt.ty_eq hm.fits hb)
    rw [combine_comparison hop] at hab
    cases hab
    simp only [List.append_assoc] at hk ⊢
    have hk' := suffix_of_append hk
    exact (operands_run (ihl hm hl ha hk) (ihr (hm.push a) hr hb hk')).andThen
      (compares_runs hprog hop hcode (suffix_of_append hk'))
  | @both l r hlt hrt ihl ihr =>
    obtain ⟨cl, lt, g₁, cr, rt, h₁, hl, hr, rfl, rfl⟩ := hc.of_logical (by decide)
    obtain ⟨a, ys, b, zs, ha, hb, hab, rfl⟩ := eval_binary_inv hv
    obtain ⟨a, rfl⟩ := Value.ty_eq_bool (hlt.ty_eq hm.fits ha)
    obtain ⟨b, rfl⟩ := Value.ty_eq_bool (hrt.ty_eq hm.fits hb)
    cases hab
    simp only [List.append_assoc] at hk ⊢
    have hk' := suffix_of_append hk
    exact (operands_run (ihl hm hl ha hk) (ihr (hm.push _) hr hb hk')).andThen
      (.binary (word_and a b))
  | @either l r hlt hrt ihl ihr =>
    obtain ⟨cl, lt, g₁, cr, rt, h₁, hl, hr, rfl, rfl⟩ := hc.of_logical (by decide)
    obtain ⟨a, ys, b, zs, ha, hb, hab, rfl⟩ := eval_binary_inv hv
    obtain ⟨a, rfl⟩ := Value.ty_eq_bool (hlt.ty_eq hm.fits ha)
    obtain ⟨b, rfl⟩ := Value.ty_eq_bool (hrt.ty_eq hm.fits hb)
    cases hab
    simp only [List.append_assoc] at hk ⊢
    have hk' := suffix_of_append hk
    exact (operands_run (ihl hm hl ha hk) (ihr (hm.push _) hr hb hk')).andThen
      (.binary (word_or a b))

end Runs

end MiniGoc
