import MiniGoc.Proofs.CoreFragment
import MiniGoc.Proofs.TypedCode

/-!
# The stacks that wrong code leaves

The effect of sound code is one more value on the stack.  Code that is not sound need not be stuck:
where operands are left out, the operator takes what lies below, if it happens to fit, and the
values of the expressions around are lost.

The stack is then another one than that of sound code, and it stays another one in every larger
expression (`ScalarExpr.after`).  Two shapes carry the induction.  An arithmetic expression of
which no type is known leaves its value on a stack that is at least two shorter (`Falls`).  A
comparison may also leave its operands behind, which are floating point numbers then (`Leaves`),
so the integers below the top are those of a shorter stack and no logical operator closes the gap.
-/

namespace MiniGoc

open Act (Yields)
open Emit

/-! ## Shapes of stacks -/

/-- A value that is no integer on a stack that is at least two shorter than `S`. -/
def Falls (S X : List StackType) : Prop :=
  ∃ t T, X = t :: T ∧ t ≠ .int ∧ T <:+ S ∧ T.length + 2 ≤ S.length

/-- A value on values that are no integers, on an end of `S`. -/
def Leaves (S X : List StackType) : Prop :=
  ∃ t ts T, X = t :: (ts ++ T) ∧ .int ∉ ts ∧ T <:+ S

section Shapes

variable {S T X Y : List StackType} {t u v : StackType}

theorem suffix_of_length_le {α : Type} {a : α} {xs ys : List α} (h : xs <:+ a :: ys)
    (hle : xs.length ≤ ys.length) : xs <:+ ys := by
  rcases List.suffix_cons_iff.1 h with rfl | h
  · exact absurd hle (by simp)
  · exact h

theorem suffix_of_not_mem {α : Type} {a : α} {xs ys zs : List α} (ha : a ∉ ys)
    (h : a :: xs <:+ ys ++ zs) : a :: xs <:+ zs := by
  induction ys with
  | nil => exact h
  | cons y ys ih =>
    rw [List.mem_cons, not_or] at ha
    rcases List.suffix_cons_iff.1 h with heq | h
    · exact absurd (List.cons.inj heq).1 ha.1
    · exact ih ha.2 h

theorem Leaves.of_suffix (h : T <:+ S) : Leaves S (t :: T) :=
  ⟨t, [], T, rfl, List.not_mem_nil, h⟩

namespace Falls

/-- An operator without operands takes two values from below. -/
theorem of_taken (hu : u ≠ .int) : Falls (u :: u :: T) (u :: T) :=
  ⟨u, T, rfl, hu, List.suffix_append [u, u] T, by simp⟩

theorem of_cons (h : Falls S (t :: T)) : t ≠ .int ∧ T <:+ S ∧ T.length + 2 ≤ S.length := by
  obtain ⟨_, _, heq, h⟩ := h
  obtain ⟨rfl, rfl⟩ := List.cons.inj heq
  exact h

theorem ne_int (h : Falls S X) : X ≠ .int :: Y := by
  rintro rfl
  exact h.of_cons.1 rfl

/-- The second operand has fallen, and the first one with it. -/
theorem taken (h : Falls (t :: S) (u :: u :: T)) : Falls S (u :: T) := by
  obtain ⟨hu, hsuffix, hlen⟩ := h.of_cons
  simp only [List.length_cons] at hlen
  have hbehind : u :: T <:+ S := suffix_of_length_le hsuffix (by simp; omega)
  exact ⟨u, T, rfl, hu, (List.suffix_cons u T).trans hbehind, by omega⟩

end Falls

/-- Two numbers that are not compared stay behind, or what is left of them. -/
theorem leaves_uncompared (hX : X = .float :: S ∨ Falls S X) (hY : (∃ v, Y = v :: X) ∨ Falls X Y) :
    Leaves S Y ∧ Y ≠ .int :: S := by
  -- In both cases the first value is no integer, on an end of the stack.
  obtain ⟨t, T, rfl, ht, hT, hne⟩ : ∃ t T, X = t :: T ∧ t ≠ .int ∧ T <:+ S ∧ X ≠ S := by
    rcases hX with rfl | ⟨t, T, rfl, ht, hT, hlen⟩
    · exact ⟨.float, S, rfl, by decide, List.suffix_rfl, by simp⟩
    · refine ⟨t, T, rfl, ht, hT, fun h => ?_⟩
      rw [← h] at hlen
      simp at hlen
  rcases hY with ⟨v, rfl⟩ | hY
  · exact ⟨⟨v, [t], T, rfl, by simpa using ht.symm, hT⟩, fun h => hne (List.cons.inj h).2⟩
  · obtain ⟨u, V, rfl, -, hV, hlen⟩ := id hY
    refine ⟨.of_suffix ((suffix_of_length_le hV ?_).trans hT), hY.ne_int⟩
    simp only [List.length_cons] at hlen
    omega

/-- A logical operator does not bring back what is lost. -/
theorem Leaves.taken (hX : Leaves S X) (hY : Leaves X (.int :: .int :: T))
    (hne : .int :: T ≠ X) : Leaves S (.int :: T) ∧ .int :: T ≠ .int :: S := by
  obtain ⟨_, ts, V, heq, hts, hV⟩ := hY
  obtain ⟨v, us, W, rfl, hus, hW⟩ := hX
  have heq : .int :: T = ts ++ V := (List.cons.inj heq).2
  have hX : .int :: T <:+ v :: (us ++ W) :=
    (suffix_of_not_mem hts (heq ▸ List.suffix_rfl)).trans hV
  have hS : .int :: T <:+ S := by
    rcases List.suffix_cons_iff.1 hX with h | h
    · exact absurd h hne
    · exact (suffix_of_not_mem hus h).trans hW
  refine ⟨.of_suffix ((List.suffix_cons _ T).trans hS), fun h => ?_⟩
  rw [h] at hS
  exact absurd hS.length_le (by simp)

end Shapes

/-! ## What the code of an expression makes of a stack -/

/-- The stacks that may be left by code that is not sound, by the type that is known. -/
def Strays (t : Node) (S X : List StackType) : Prop :=
  match t with
  | .none => Falls S X
  | .boolType => Leaves S X ∧ X ≠ .int :: S
  | _ => False

/-- The code of an expression may leave `X`, where the stack was `S`. -/
def After (env : List Symbol) (e : Node) (τ : Scalar) (S X : List StackType) : Prop :=
  if sound env e then X = τ.stack :: S else Strays (typeIn env e) S X

namespace After

variable {env : List Symbol} {e : Node} {τ σ : Scalar} {S X : List StackType}

theorem of_sound (h : sound env e = true) : After env e τ S (τ.stack :: S) := by
  rw [After, if_pos h]

theorem of_strays (h : sound env e = false) (hX : Strays (typeIn env e) S X) :
    After env e τ S X := by
  rwa [After, if_neg (by simp [h])]

theorem cases_sound (h : After env e τ S X) : sound env e = true ∧ X = τ.stack :: S ∨
    sound env e = false ∧ Strays (typeIn env e) S X := by
  unfold After at h
  split at h
  next hs => exact .inl ⟨hs, h⟩
  next hs => exact .inr ⟨Bool.not_eq_true _ ▸ hs, h⟩

/-- Integers and texts come with sound code. -/
theorem sound_of_known (h : After env e τ S X) (hnone : typeIn env e ≠ .none)
    (hbool : typeIn env e ≠ .boolType) : sound env e = true ∧ X = τ.stack :: S := by
  rcases h.cases_sound with h | ⟨-, h⟩
  · exact h
  · unfold Strays at h
    split at h
    next heq => exact absurd heq hnone
    next heq => exact absurd heq hbool
    next => exact h.elim

theorem of_number (h : After env e σ S X) (he : ScalarExpr env e σ) (hσ : σ.isNumber) :
    σ = .int ∧ typeIn env e = .intType ∧ sound env e = true ∧ X = .int :: S ∨
    σ = .float ∧ typeIn env e = .floatType ∧ sound env e = true ∧ X = .float :: S ∨
    σ = .float ∧ typeIn env e = .none ∧
      (sound env e = true ∧ X = .float :: S ∨ sound env e = false ∧ Falls S X) := by
  obtain ⟨rfl, ht⟩ | ⟨rfl, ht⟩ | ⟨rfl, ht⟩ := he.knownAs hσ
  · exact .inl ⟨rfl, ht, h.sound_of_known (by simp [ht]) (by simp [ht])⟩
  · exact .inr (.inl ⟨rfl, ht, h.sound_of_known (by simp [ht]) (by simp [ht])⟩)
  · refine .inr (.inr ⟨rfl, ht, ?_⟩)
    simpa [ht, Strays, Scalar.stack] using h.cases_sound

theorem of_float (h : After env e .float S X) (he : ScalarExpr env e .float) :
    sound env e = true ∧ X = .float :: S ∨ sound env e = false ∧ Falls S X := by
  rcases h.of_number he rfl with ⟨h, -⟩ | ⟨-, -, h⟩ | ⟨-, -, h⟩
  · cases h
  · exact .inl h
  · exact h

/-- The stack tells whether the code is sound. -/
theorem sound_iff (h : After env e τ S X) (he : ScalarExpr env e τ) :
    sound env e = true ↔ X = τ.stack :: S := by
  rcases h.cases_sound with ⟨hs, rfl⟩ | ⟨hs, hX⟩
  · simp [hs]
  · refine iff_of_false (by simp [hs]) ?_
    rintro rfl
    cases τ with
    | int | text =>
      rw [he.typeIn_eq, Scalar.known_of_ne (by decide)] at hX
      exact hX
    | float =>
      rcases h.of_float he with ⟨hs', -⟩ | ⟨-, hX⟩
      · simp [hs] at hs'
      · exact absurd hX.of_cons.2.2 (by omega)
    | bool =>
      rw [he.typeIn_eq, Scalar.known_of_ne (by decide)] at hX
      exact hX.2 rfl

/-- A truth value, on values that are no integers. -/
theorem bool_iff (he : ScalarExpr env e .bool) : After env e .bool S X ↔
    Leaves S X ∧ (sound env e = true ↔ X = .int :: S) := by
  have ht : typeIn env e = .boolType := he.typeIn_eq.trans (Scalar.known_of_ne (by decide) e)
  cases hs : sound env e with
  | false => simp [After, hs, ht, Strays]
  | true =>
    simp only [After, hs, if_true, true_iff]
    refine ⟨fun h => ⟨h ▸ .of_suffix List.suffix_rfl, h⟩, fun h => h.2⟩

end After

/-! ## Operators -/

section Operators

variable {env : List Symbol} {op : String} {l r : Node} {σ τ : Scalar} {S X Y Z : List StackType}

/-- Operators on two values of one type that have their own instructions. -/
def SameKind (op : String) (τ : Scalar) : Prop :=
  τ = .int ∧ op ∈ arithmeticOperators ∨ τ = .text ∧ op = "+"

theorem SameKind.ne (h : SameKind op τ) : τ ≠ .float ∧ τ.node ≠ .none ∧ τ.node ≠ .boolType := by
  obtain ⟨rfl, -⟩ | ⟨rfl, -⟩ := h <;> simp [Scalar.node]

theorem SameKind.typeIn_eq (h : SameKind op τ) {e : Node} (he : ScalarExpr env e τ) :
    typeIn env e = τ.node :=
  he.typeIn_eq.trans (Scalar.known_of_ne h.ne.1 e)

theorem effect_same (h : SameKind op τ) (hl : ScalarExpr env l τ) (hr : ScalarExpr env r τ) :
    effect env (.binary op l r) =
      (effect env l >=> effect env r) >=> exchange [τ.stack, τ.stack] [τ.stack] := by
  have hop : op ∈ arithmeticOperators := by
    obtain ⟨-, hop⟩ | ⟨-, rfl⟩ := h
    · exact hop
    · decide
  rw [effect, if_pos hop, h.typeIn_eq hl, h.typeIn_eq hr]
  obtain ⟨rfl, -⟩ | ⟨rfl, rfl⟩ := h <;> rfl

theorem pushed_of_operands {F G : StackEffect} {u v t : StackType} (hl : F S = some (u :: S))
    (hr : G (u :: S) = some (v :: u :: S)) :
    ((F >=> G) >=> exchange [v, u] [t]) S = some (t :: S) :=
  StackEffect.kleisli_eq_some.2
    ⟨_, StackEffect.kleisli_eq_some.2 ⟨_, hl, hr⟩, exchange_eq_some.2 ⟨S, rfl, rfl⟩⟩

theorem joins_same (h : SameKind op τ) (hl : ScalarExpr env l τ) (hr : ScalarExpr env r τ) :
    joins op (typeIn env l) (typeIn env r) = true := by
  rw [h.typeIn_eq hl, h.typeIn_eq hr]
  obtain ⟨rfl, hop⟩ | ⟨rfl, rfl⟩ := h
  · simp [joins, hop, Scalar.node, Mixture.of]
  · rfl

theorem After.same (hop : SameKind op τ) (hl : ScalarExpr env l τ) (hr : ScalarExpr env r τ)
    (hX : After env l τ S X) (hY : After env r τ X Y)
    (hZ : exchange [τ.stack, τ.stack] [τ.stack] Y = some Z) : After env (.binary op l r) τ S Z := by
  have hlt := hop.typeIn_eq hl
  have hrt := hop.typeIn_eq hr
  obtain ⟨hsl, rfl⟩ := hX.sound_of_known (hlt ▸ hop.ne.2.1) (hlt ▸ hop.ne.2.2)
  obtain ⟨hsr, rfl⟩ := hY.sound_of_known (hrt ▸ hop.ne.2.1) (hrt ▸ hop.ne.2.2)
  obtain ⟨T, heq, rfl⟩ := exchange_eq_some.1 hZ
  cases heq
  exact .of_sound (sound_binary_iff.2 ⟨⟨hsl, hsr⟩, joins_same hop hl hr⟩)

/-- What arithmetic with a floating point number takes. -/
abbrev untyped (op : String) : StackType := operandType op .none

theorem untyped_ne_int : untyped op ≠ .int := by
  simp only [untyped, operandType]
  split <;> decide

theorem effect_floats (he : ScalarExpr env (.binary op l r) .float)
    (hop : op ∈ ["+", "-", "*", "/"]) : effect env (.binary op l r) =
      (Mixture.of op (typeIn env l) (typeIn env r)).effect (effect env l) (effect env r) >=>
        exchange [untyped op, untyped op] [untyped op] := by
  have hop : op ∈ arithmeticOperators := List.mem_append_left ["%"] hop
  have htype : (Mixture.of op (typeIn env l) (typeIn env r)).type = .none := by
    simpa [typeIn, hop, Scalar.known] using he.typeIn_eq
  rw [effect, if_pos hop, htype]

/-- How two numbers go together, of which one is a floating point number. -/
theorem mixture_cases {lt rt : Node} (hl : σ.KnownAs lt) (hr : τ.KnownAs rt)
    (hfloat : σ = .float ∨ τ = .float) :
    Mixture.of op lt rt = .intFloat ∧ (σ = .int ∧ lt = .intType) ∧ τ = .float ∧ rt = .floatType ∨
    Mixture.of op lt rt = .floatInt ∧ (σ = .float ∧ lt = .floatType) ∧ τ = .int ∧ rt = .intType ∨
    Mixture.of op lt rt = .floats ∧ (σ = .float ∧ τ = .float) ∧
      (lt = .floatType ∨ lt = .none ∧ rt = .floatType) ∨
    Mixture.of op lt rt = .apart := by
  obtain ⟨rfl, rfl⟩ | ⟨rfl, rfl⟩ | ⟨rfl, rfl⟩ := hl <;>
    obtain ⟨rfl, rfl⟩ | ⟨rfl, rfl⟩ | ⟨rfl, rfl⟩ := hr <;> simp_all [Mixture.of]

/-- What the operands of arithmetic with a floating point number leave. -/
def OperandsLeft (env : List Symbol) (op : String) (l r : Node) (S X : List StackType) : Prop :=
  (sound env l = true ∧ sound env r = true ∧
    joins op (typeIn env l) (typeIn env r) = decide (op ≠ "+") ∧ X = .float :: .float :: S) ∨
  sound env (.binary op l r) = false ∧
    ∀ T, X = untyped op :: untyped op :: T → Falls S (untyped op :: T)

theorem operands_left (hop : op ∈ ["+", "-", "*", "/"]) (hl : ScalarExpr env l σ)
    (hr : ScalarExpr env r τ) (hσ : σ.isNumber) (hτ : τ.isNumber)
    (hfloat : σ = .float ∨ τ = .float)
    (ihl : ∀ {S X}, effect env l S = some X → After env l σ S X)
    (ihr : ∀ {S X}, effect env r S = some X → After env r τ S X)
    (h : (Mixture.of op (typeIn env l) (typeIn env r)).effect (effect env l) (effect env r) S =
      some X) : OperandsLeft env op l r S X := by
  have hop' : op ∈ arithmeticOperators := List.mem_append_left ["%"] hop
  have hcases := @mixture_cases op _ _ _ _ (hl.knownAs hσ) (hr.knownAs hτ) hfloat
  obtain ⟨hmix, ⟨rfl, hlt⟩, rfl, hrt⟩ | ⟨hmix, ⟨rfl, hlt⟩, rfl, hrt⟩ | ⟨hmix, ⟨rfl, rfl⟩, hlt⟩ |
      hmix := hcases <;>
    rw [hmix] at h <;>
    simp only [Mixture.effect, StackEffect.kleisli_eq_some, exchange_eq_some] at h
  · obtain ⟨_, ⟨Y, hY, T, rfl, rfl⟩, hX⟩ := h
    obtain ⟨hsl, heq⟩ := (ihl hY).sound_of_known (by simp [hlt]) (by simp [hlt])
    obtain rfl := (List.cons.inj heq).2
    obtain ⟨hsr, rfl⟩ := (ihr hX).sound_of_known (by simp [hrt]) (by simp [hrt])
    exact .inl ⟨hsl, hsr, by simp [joins, hop', hmix], rfl⟩
  · obtain ⟨_, ⟨Y, hY, hZ⟩, T, rfl, rfl⟩ := h
    obtain ⟨hsl, rfl⟩ := (ihl hY).sound_of_known (by simp [hlt]) (by simp [hlt])
    obtain ⟨hsr, heq⟩ := (ihr hZ).sound_of_known (by simp [hrt]) (by simp [hrt])
    obtain rfl := (List.cons.inj heq).2
    exact .inl ⟨hsl, hsr, by simp [joins, hop', hmix], rfl⟩
  · obtain ⟨Y, hY, hX⟩ := h
    have hjoins : joins op (typeIn env l) (typeIn env r) = decide (op ≠ "+") := by
      simp [joins, hop', hmix]
    -- One operand has a known type, so at most the other one has fallen.
    rcases hlt with hlt | ⟨-, hrt⟩
    · obtain ⟨hsl, rfl⟩ := (ihl hY).sound_of_known (by simp [hlt]) (by simp [hlt])
      rcases (ihr hX).of_float hr with ⟨hsr, rfl⟩ | ⟨hsr, hfalls⟩
      · exact .inl ⟨hsl, hsr, hjoins, rfl⟩
      · exact .inr ⟨by simp [sound, hsr], fun T hT => (hT ▸ hfalls).taken⟩
    · obtain ⟨hsr, rfl⟩ := (ihr hX).sound_of_known (by simp [hrt]) (by simp [hrt])
      rcases (ihl hY).of_float hl with ⟨hsl, rfl⟩ | ⟨hsl, hfalls⟩
      · exact .inl ⟨hsl, hsr, hjoins, rfl⟩
      · exact .inr ⟨by simp [sound, hsl], fun T hT => (List.cons.inj hT).2 ▸ hfalls⟩
  · obtain rfl := Option.some.inj h
    refine .inr ⟨by simp [sound, joins, hop', hmix], ?_⟩
    rintro T rfl
    exact .of_taken untyped_ne_int

/-- Arithmetic with a floating point number, on a stack that its operands have left. -/
theorem After.floats (he : ScalarExpr env (.binary op l r) .float)
    (hX : OperandsLeft env op l r S X)
    (hY : exchange [untyped op, untyped op] [untyped op] X = some Y) :
    After env (.binary op l r) .float S Y := by
  obtain ⟨T, heq, rfl⟩ := exchange_eq_some.1 hY
  rcases hX with ⟨hsl, hsr, hjoins, rfl⟩ | ⟨hs, hfalls⟩
  · -- Only texts are added, and there are none.
    have hne : op ≠ "+" := by
      rintro rfl
      cases heq
    have hfloat : untyped op = .float := if_neg hne
    rw [hfloat] at heq ⊢
    cases heq
    exact .of_sound (sound_binary_iff.2 ⟨⟨hsl, hsr⟩, by simpa [hne] using hjoins⟩)
  · exact .of_strays hs (by rw [he.typeIn_eq]; exact hfalls T heq)

/-- Operands of numbers that are put together rightly. -/
theorem effect_of_joins {F G : StackEffect} {lt rt : Node} (hop : op ∈ ["+", "-", "*", "/"])
    (hl : σ.KnownAs lt) (hr : τ.KnownAs rt) (hfloat : σ = .float ∨ τ = .float)
    (hjoins : joins op lt rt = true)
    (hF : ∀ {S}, F S = some (σ.stack :: S)) (hG : ∀ {S}, G S = some (τ.stack :: S)) :
    ((Mixture.of op lt rt).effect F G >=> exchange [untyped op, untyped op] [untyped op]) S =
      some (.float :: S) := by
  have hop' : op ∈ arithmeticOperators := List.mem_append_left ["%"] hop
  rw [joins, if_pos hop'] at hjoins
  have hoperands : op ≠ "+" ∧
      (Mixture.of op lt rt).effect F G S = some (.float :: .float :: S) := by
    obtain ⟨hmix, ⟨rfl, -⟩, rfl, -⟩ | ⟨hmix, ⟨rfl, -⟩, rfl, -⟩ | ⟨hmix, ⟨rfl, rfl⟩, -⟩ | hmix :=
      @mixture_cases op _ _ _ _ hl hr hfloat <;> rw [hmix] at hjoins ⊢
    · refine ⟨by simpa using hjoins, StackEffect.kleisli_eq_some.2 ⟨_, ?_, hG⟩⟩
      exact StackEffect.kleisli_eq_some.2 ⟨_, hF, exchange_eq_some.2 ⟨S, rfl, rfl⟩⟩
    · refine ⟨by simpa using hjoins, StackEffect.kleisli_eq_some.2 ⟨.int :: .float :: S, ?_, ?_⟩⟩
      · exact StackEffect.kleisli_eq_some.2 ⟨_, hF, hG⟩
      · exact exchange_eq_some.2 ⟨_, rfl, rfl⟩
    · exact ⟨by simpa using hjoins, StackEffect.kleisli_eq_some.2 ⟨_, hF, hG⟩⟩
    · cases hjoins
  have huntyped : untyped op = .float := if_neg hoperands.1
  rw [huntyped]
  exact StackEffect.kleisli_eq_some.2 ⟨_, hoperands.2, exchange_eq_some.2 ⟨S, rfl, rfl⟩⟩

theorem effect_comparison (hop : op ∈ relationalOperators) : effect env (.binary op l r) =
    (effect env l >=> effect env r) >=> compareEffect (typeIn env l) := by
  rw [effect, if_neg fun h => not_mem_relational h hop, if_pos hop]

/-- A comparison takes two values of the type that is known of the first operand. -/
theorem After.compared (hop : op ∈ relationalOperators) (hl : ScalarExpr env l σ)
    (hr : ScalarExpr env r τ) (hσ : σ.isNumber) (hτ : τ.isNumber) (hX : After env l σ S X)
    (hY : After env r τ X Y) (hZ : compareEffect (typeIn env l) Y = some Z) :
    After env (.binary op l r) .bool S Z := by
  have hsound (hsl : sound env l = true) (hsr : sound env r = true)
      (hc : comparable (typeIn env l) (typeIn env r) = true) : sound env (.binary op l r) = true :=
    sound_binary_iff.2 ⟨⟨hsl, hsr⟩, (joins_of_relational hop _ _).trans hc⟩
  have hY := hY.of_number hr hτ
  rcases hX.of_number hl hσ with ⟨rfl, hlt, hsl, rfl⟩ | ⟨rfl, hlt, hsl, rfl⟩ | ⟨rfl, hlt, hX⟩ <;>
    rw [hlt] at hsound hZ
  · obtain ⟨T, heq, rfl⟩ := exchange_eq_some.1 hZ
    rcases hY with ⟨-, hrt, hsr, rfl⟩ | ⟨-, -, -, rfl⟩ | ⟨-, -, ⟨-, rfl⟩ | ⟨-, hY⟩⟩
    · cases heq
      exact .of_sound (hsound hsl hsr (by rw [hrt]; rfl))
    · cases heq
    · cases heq
    · exact absurd heq hY.ne_int
  · obtain ⟨T, heq, rfl⟩ := exchange_eq_some.1 hZ
    rcases hY with ⟨-, -, -, rfl⟩ | ⟨-, hrt, hsr, rfl⟩ | ⟨-, hrt, ⟨hsr, rfl⟩ | ⟨hsr, hY⟩⟩
    · cases heq
    · cases heq
      exact .of_sound (hsound hsl hsr (by rw [hrt]; rfl))
    · cases heq
      exact .of_sound (hsound hsl hsr (by rw [hrt]; rfl))
    · subst heq
      obtain ⟨-, hT, hlen⟩ : _ ∧ T <:+ S ∧ T.length + 2 ≤ S.length := hY.taken.of_cons
      have hne : .int :: T ≠ .int :: S := by
        intro h
        rw [(List.cons.inj h).2] at hlen
        omega
      refine (After.bool_iff (.comparison hop hl hr hσ hτ)).2 ⟨.of_suffix hT, ?_⟩
      exact iff_of_false (by simp [sound, hsr]) hne
  · -- No code compares the operands.
    obtain rfl := Option.some.inj hZ
    have hY : (∃ v, Y = v :: X) ∨ Falls X Y := by
      rcases hY with ⟨-, -, -, h⟩ | ⟨-, -, -, h⟩ | ⟨-, -, ⟨-, h⟩ | ⟨-, h⟩⟩
      · exact .inl ⟨_, h⟩
      · exact .inl ⟨_, h⟩
      · exact .inl ⟨_, h⟩
      · exact .inr h
    obtain ⟨hleaves, hne⟩ := leaves_uncompared (hX.imp And.right And.right) hY
    refine (After.bool_iff (.comparison hop hl hr hσ hτ)).2 ⟨hleaves, iff_of_false ?_ hne⟩
    rw [sound_binary_iff, joins_of_relational hop, hlt]
    simp [comparable]

theorem effect_logical (hop : op = "&&" ∨ op = "||") : effect env (.binary op l r) =
    (effect env l >=> effect env r) >=> exchange [.int, .int] [.int] := by
  obtain rfl | rfl := hop <;> rfl

theorem joins_logical (hop : op = "&&" ∨ op = "||") (lt rt : Node) : joins op lt rt = true := by
  obtain rfl | rfl := hop <;> rfl

theorem After.logical (hop : op = "&&" ∨ op = "||") (hl : ScalarExpr env l .bool)
    (hr : ScalarExpr env r .bool) (hX : After env l .bool S X) (hY : After env r .bool X Y)
    (hZ : exchange [.int, .int] [.int] Y = some Z) : After env (.binary op l r) .bool S Z := by
  obtain ⟨T, rfl, rfl⟩ := exchange_eq_some.1 hZ
  obtain ⟨hX, hsl⟩ := (After.bool_iff hl).1 hX
  obtain ⟨hY, hsr⟩ := (After.bool_iff hr).1 hY
  refine (After.bool_iff (.logical hop hl hr)).2 ?_
  rw [sound_binary_iff, hsl, hsr]
  by_cases hT : .int :: T = X
  · -- The second operand is sound, and the operator leaves what the first one left.
    subst hT
    simp [hX, joins_logical hop]
  · obtain ⟨hleaves, hne⟩ := hX.taken hY hT
    refine ⟨hleaves, iff_of_false (fun hs => hT ?_) hne⟩
    exact (List.cons.inj hs.1.2).2

end Operators

/-! ## Expressions -/

section Expressions

variable {env : List Symbol} {e : Node} {τ : Scalar} {S X : List StackType}

/-- The code of an expression leaves a stack that belongs to the expression, unless it fails. -/
theorem ScalarExpr.after (he : ScalarExpr env e τ) (h : effect env e S = some X) :
    After env e τ S X := by
  induction he generalizing S X with
  | number =>
    obtain rfl := Option.some.inj h
    exact .of_sound rfl
  | decimal =>
    obtain rfl := Option.some.inj h
    exact .of_sound rfl
  | @name x s τ hs hτ =>
    have hstack : stackOf (typeIn env (.id x)) = τ.stack := by
      simp [typeIn, hs, hτ, Scalar.stackOf_node]
    rw [effect, hstack] at h
    split at h
    next => cases h
    next hread =>
      obtain rfl := Option.some.inj h
      exact .of_sound (by simpa [sound] using hread)
  | ints hop hl hr ihl ihr =>
    rw [effect_same (.inl ⟨rfl, hop⟩) hl hr] at h
    obtain ⟨Y, hY, hX⟩ := StackEffect.kleisli_eq_some.1 h
    obtain ⟨Z, hZ, hY⟩ := StackEffect.kleisli_eq_some.1 hY
    exact .same (.inl ⟨rfl, hop⟩) hl hr (ihl hZ) (ihr hY) hX
  | texts hl hr ihl ihr =>
    rw [effect_same (.inr ⟨rfl, rfl⟩) hl hr] at h
    obtain ⟨Y, hY, hX⟩ := StackEffect.kleisli_eq_some.1 h
    obtain ⟨Z, hZ, hY⟩ := StackEffect.kleisli_eq_some.1 hY
    exact .same (.inr ⟨rfl, rfl⟩) hl hr (ihl hZ) (ihr hY) hX
  | floats hop hl hr hσ hτ hfloat ihl ihr =>
    have he := ScalarExpr.floats hop hl hr hσ hτ hfloat
    rw [effect_floats he hop] at h
    obtain ⟨Y, hY, hX⟩ := StackEffect.kleisli_eq_some.1 h
    exact .floats he (operands_left hop hl hr hσ hτ hfloat ihl ihr hY) hX
  | comparison hop hl hr hσ hτ ihl ihr =>
    rw [effect_comparison hop] at h
    obtain ⟨Y, hY, hX⟩ := StackEffect.kleisli_eq_some.1 h
    obtain ⟨Z, hZ, hY⟩ := StackEffect.kleisli_eq_some.1 hY
    exact .compared hop hl hr hσ hτ (ihl hZ) (ihr hY) hX
  | logical hop hl hr ihl ihr =>
    rw [effect_logical hop] at h
    obtain ⟨Y, hY, hX⟩ := StackEffect.kleisli_eq_some.1 h
    obtain ⟨Z, hZ, hY⟩ := StackEffect.kleisli_eq_some.1 hY
    exact .logical hop hl hr (ihl hZ) (ihr hY) hX

/-- Sound code pushes one value, which has the type of the expression. -/
theorem ScalarExpr.effect_of_sound (he : ScalarExpr env e τ) (hs : sound env e = true) :
    effect env e S = some (τ.stack :: S) := by
  induction he generalizing S with
  | number => rfl
  | decimal => rfl
  | @name x s τ hfind hτ =>
    have hread : misread env x = false := by simpa [sound] using hs
    simp [effect, hread, typeIn, hfind, hτ, Scalar.stackOf_node]
  | ints hop hl hr ihl ihr =>
    obtain ⟨⟨hsl, hsr⟩, -⟩ := sound_binary_iff.1 hs
    rw [effect_same (.inl ⟨rfl, hop⟩) hl hr]
    exact pushed_of_operands (ihl hsl) (ihr hsr)
  | texts hl hr ihl ihr =>
    obtain ⟨⟨hsl, hsr⟩, -⟩ := sound_binary_iff.1 hs
    rw [effect_same (.inr ⟨rfl, rfl⟩) hl hr]
    exact pushed_of_operands (ihl hsl) (ihr hsr)
  | floats hop hl hr hσ hτ hfloat ihl ihr =>
    obtain ⟨⟨hsl, hsr⟩, hjoins⟩ := sound_binary_iff.1 hs
    rw [effect_floats (.floats hop hl hr hσ hτ hfloat) hop]
    exact effect_of_joins hop (hl.knownAs hσ) (hr.knownAs hτ) hfloat hjoins (ihl hsl)
      (ihr hsr)
  | comparison hop hl hr hσ hτ ihl ihr =>
    obtain ⟨⟨hsl, hsr⟩, hjoins⟩ := sound_binary_iff.1 hs
    rw [joins_of_relational hop] at hjoins
    rw [effect_comparison hop]
    obtain ⟨rfl, hlt⟩ | ⟨rfl, hlt⟩ | ⟨rfl, hlt⟩ := hl.knownAs hσ <;>
      obtain ⟨rfl, hrt⟩ | ⟨rfl, hrt⟩ | ⟨rfl, hrt⟩ := hr.knownAs hτ <;>
      rw [hlt, hrt] at hjoins <;> cases hjoins <;> rw [hlt]
    · exact pushed_of_operands (ihl hsl) (ihr hsr)
    · exact pushed_of_operands (ihl hsl) (ihr hsr)
    · exact pushed_of_operands (ihl hsl) (ihr hsr)
  | logical hop hl hr ihl ihr =>
    obtain ⟨⟨hsl, hsr⟩, -⟩ := sound_binary_iff.1 hs
    rw [effect_logical hop]
    exact pushed_of_operands (ihl hsl) (ihr hsr)

/-- The effect of an expression is what it should be if and only if the expression is sound. -/
theorem ScalarExpr.effect_eq_iff (he : ScalarExpr env e τ) :
    effect env e S = some (τ.stack :: S) ↔ sound env e = true :=
  ⟨fun h => ((he.after h).sound_iff he).2 rfl, he.effect_of_sound⟩

theorem ScalarExpr.ends_iff_sound {slots : Int → Option StackType} {f g : Frame} {c : Code}
    {t : Node} (hslots : SlotsAgree slots env) (he : ScalarExpr env e τ)
    (hc : Coded env (.expr e) f c t g) :
    Ends slots c (τ.stack :: S) (c, S) ↔ sound env e = true := by
  have hdoes : Does slots c (τ.stack :: S) c (effect env e) :=
    he.does hc.labelsIn.nodup hslots hc
  have hself := hdoes [] S (by simp)
  rw [List.append_nil] at hself
  rw [hself]
  simp [Ends.nil_iff, he.effect_eq_iff]

end Expressions

/-! ## The expressions of the generator -/

section Generator

variable {other : Visitor} {ctx : Context} {e : Node} {τ : Scalar}
  {w v : Workspace} {p : Piece} {t : Node}

theorem ScalarExpr.codedBy (hctx : ctx.missing = []) (he : ScalarExpr ctx.scopes.flatten e τ)
    (h : Yields (Gen.expr other ctx e) w (p, t) v) : CodedBy ctx.scopes.flatten e w p t v := by
  induction he generalizing w v p t with
  | @number i =>
    have hplain : isPlain (.int i) := rfl
    simp only [Gen.expr, Act.yields_bind, Context.yields_need hctx, Gen.yields_onFrame,
      yields_pushInt hplain, Act.yields_pure, Prod.mk.injEq] at h
    obtain ⟨_, _, rfl, _, _, ⟨_, ⟨i, hi, rfl, rfl⟩, rfl⟩, ⟨rfl, rfl⟩, rfl⟩ := h
    exact ⟨_, _, rfl, rfl, .number hi, rfl⟩
  | decimal =>
    simp only [Gen.expr, Act.yields_bind, Act.yields_ofExcept, Context.yields_need hctx,
      Gen.yields_onFrame, yields_pushFloat, Act.yields_pure, Prod.mk.injEq] at h
    obtain ⟨s, _, ⟨hs, rfl⟩, _, _, rfl, _, _, ⟨_, ⟨hread, rfl, rfl⟩, rfl⟩, ⟨rfl, rfl⟩, rfl⟩ := h
    exact ⟨_, _, rfl, rfl, .decimal hs hread, rfl⟩
  | @name x s τ hs hτ =>
    simp only [Gen.expr, Act.yields_bind] at h
    obtain ⟨r, v', hr, h⟩ := h
    rcases Reads.of_yields hctx hr with ⟨c, u, f, hreads, rfl, rfl⟩ | ⟨rfl, rfl⟩
    · obtain ⟨heq, rfl⟩ := Act.yields_pure.1 h
      cases heq
      have hu : t = τ.node := by
        cases hreads with
        | slot hs' | static hs' => rw [← hτ, Option.some.inj (hs.symm.trans hs')]
      exact ⟨c, f, rfl, rfl, .name hreads, by rw [hu]; cases τ <;> rfl⟩
    · exact absurd h Act.yields_throw
  | ints hop _ _ ihl ihr =>
    exact .of_binary hctx (Node.contains_binaryOperators (.inl hop)) ihl ihr h
  | floats hop _ _ _ _ _ ihl ihr =>
    exact .of_binary hctx (Node.contains_binaryOperators (.inl (List.mem_append_left ["%"] hop)))
      ihl ihr h
  | texts _ _ ihl ihr => exact .of_binary hctx rfl ihl ihr h
  | comparison hop _ _ _ _ ihl ihr =>
    exact .of_binary hctx (Node.contains_binaryOperators (.inr (.inl hop))) ihl ihr h
  | logical hop _ _ ihl ihr =>
    exact .of_binary hctx (Node.contains_binaryOperators (.inr (.inr hop))) ihl ihr h

/-- The code of an expression takes nothing and pushes one value of its type, with all instructions
on operands of their types, if and only if the expression is sound.  The type that comes with the
code is the right one except for arithmetic with a floating point number. -/
theorem ScalarExpr.code_typed_iff {slots : Int → Option StackType} (hctx : ctx.missing = [])
    (hslots : SlotsAgree slots ctx.scopes.flatten) (he : ScalarExpr ctx.scopes.flatten e τ)
    (h : Yields (Gen.expr other ctx e) w (p, t) v) :
    ∃ c, p = some c ∧
      (∀ S, Ends slots c (τ.stack :: S) (c, S) ↔ sound ctx.scopes.flatten e = true) ∧
      (t = τ.node ↔ ¬ (τ = .float ∧ ∃ op l r, e = .binary op l r)) := by
  obtain ⟨c, f, rfl, -, hc, -⟩ := he.codedBy hctx h
  refine ⟨c, rfl, fun S => he.ends_iff_sound hslots hc, ?_⟩
  rw [he.type_eq_typeIn hc, he.typeIn_eq, Scalar.known_eq_node_iff]

/-- Two floating point numbers in slots. -/
def floatPair : Context := ⟨[[⟨"x", .floatType, .slot 1⟩, ⟨"y", .floatType, .slot 2⟩]], []⟩

theorem floatPair_slotsAgree : SlotsAgree (fun _ => some .float) floatPair.scopes.flatten := by
  intro x s i τ hs hhome hτ
  have hmem : s ∈ floatPair.scopes.flatten := Symbol.mem_of_find? hs
  have hfloat : s.type = .floatType := by
    simp only [floatPair, List.flatten_cons, List.flatten_nil, List.append_nil, List.mem_cons,
      List.not_mem_nil, or_false] at hmem
    rcases hmem with rfl | rfl <;> rfl
  rw [hfloat] at hτ
  cases τ <;> cases hτ
  rfl

theorem floatPair_expr {op : String} (hop : op ∈ ["+", "-", "*", "/"]) :
    ScalarExpr floatPair.scopes.flatten (.binary op (.id "x") (.id "y")) .float := by
  have hx : ScalarExpr floatPair.scopes.flatten (.id "x") .float := .name rfl rfl
  have hy : ScalarExpr floatPair.scopes.flatten (.id "y") .float := .name rfl rfl
  exact .floats hop hx hy rfl rfl (.inl rfl)

/-- The code of an operator on the two. -/
def floatPairCode (op : String) : Gen (Piece × Node) :=
  Gen.expr (fun _ _ => pure .nothing) floatPair (.binary op (.id "x") (.id "y"))

theorem ScalarExpr.code_typed_iff_pair :
    (∃ c t v, Yields (floatPairCode "*") { current := ⟨"", []⟩ } (some c, t) v ∧
      ∀ S, Ends (fun _ => some .float) c (.float :: S) (c, S)) ∧
    (∃ c t v, Yields (floatPairCode "+") { current := ⟨"", []⟩ } (some c, t) v ∧
      t ≠ .floatType ∧ ∀ S, ¬ Ends (fun _ => some .float) c (.float :: S) (c, S)) := by
  constructor
  · have hyields : Yields (floatPairCode "*") { current := ⟨"", []⟩ } (_, _) _ := rfl
    obtain ⟨c, hc, hends, -⟩ :=
      code_typed_iff rfl floatPair_slotsAgree (floatPair_expr (by decide)) hyields
    exact ⟨c, _, _, hc ▸ hyields, fun S => (hends S).2 rfl⟩
  · have hyields : Yields (floatPairCode "+") { current := ⟨"", []⟩ } (_, _) _ := rfl
    obtain ⟨c, hc, hends, ht⟩ :=
      code_typed_iff rfl floatPair_slotsAgree (floatPair_expr (by decide)) hyields
    refine ⟨c, _, _, hc ▸ hyields, fun h => ht.1 h ⟨rfl, _, _, _, rfl⟩, fun S h => ?_⟩
    exact Bool.false_ne_true ((hends S).1 h)

end Generator

end MiniGoc
