import MiniGoc.Proofs.Simulation
import MiniGoc.Proofs.Types
import MiniGoc.Proofs.Verifier

/-!
# The types of the code of expressions

Expressions of numbers, truth values and texts are typed by the usual rules (`ScalarExpr`): an
integer beside a floating point number is turned into one.  The generator goes another way.  It
knows no type of arithmetic with a floating point number, adds such numbers as if they were texts,
leaves out operands of which it does not know the types, and compares by the type of the first
operand alone.  So the code of an expression is right only for some of them, and `sound` says for
which.

What the code does to a stack of types can be read off the expression, right or not (`effect`,
`ScalarExpr.does`).
-/

namespace MiniGoc

open Emit

/-! ## Expressions and their types -/

/-- The types of values that are no objects but texts. -/
inductive Scalar where
  | int
  | float
  | bool
  | text
deriving DecidableEq, Repr

namespace Scalar

/-- The type as it is written. -/
def node : Scalar → Node
  | int => .intType
  | float => .floatType
  | bool => .boolType
  | text => .stringType

def stack : Scalar → StackType
  | int | bool => .int
  | float => .float
  | text => .text

/-- Whether the values are numbers. -/
def isNumber : Scalar → Bool
  | int | float => true
  | _ => false

end Scalar

/-- Expressions with their types, by the usual rules. -/
inductive ScalarExpr (env : List Symbol) : Node → Scalar → Prop where
  | number {i : Int} : ScalarExpr env (.intLit (.int i)) .int
  | decimal {x : Binary64} : ScalarExpr env (.floatLit (.float x)) .float
  | name {x : String} {s : Symbol} {τ : Scalar} : Symbol.find? x env = some s →
      s.type = τ.node → ScalarExpr env (.id x) τ
  | ints {op : String} {l r : Node} : op ∈ arithmeticOperators → ScalarExpr env l .int →
      ScalarExpr env r .int → ScalarExpr env (.binary op l r) .int
  | floats {op : String} {l r : Node} {σ τ : Scalar} : op ∈ ["+", "-", "*", "/"] →
      ScalarExpr env l σ → ScalarExpr env r τ → σ.isNumber → τ.isNumber →
      σ = .float ∨ τ = .float → ScalarExpr env (.binary op l r) .float
  | texts {l r : Node} : ScalarExpr env l .text → ScalarExpr env r .text →
      ScalarExpr env (.binary "+" l r) .text
  | comparison {op : String} {l r : Node} {σ τ : Scalar} : op ∈ relationalOperators →
      ScalarExpr env l σ → ScalarExpr env r τ → σ.isNumber → τ.isNumber →
      ScalarExpr env (.binary op l r) .bool
  | logical {op : String} {l r : Node} : op = "&&" ∨ op = "||" → ScalarExpr env l .bool →
      ScalarExpr env r .bool → ScalarExpr env (.binary op l r) .bool

/-- The type that the generator knows: none for arithmetic with a floating point number. -/
def Scalar.known (τ : Scalar) : Node → Node
  | .binary _ _ _ => if τ = .float then .none else τ.node
  | _ => τ.node

theorem Scalar.known_of_ne {τ : Scalar} (h : τ ≠ .float) (e : Node) : τ.known e = τ.node := by
  cases e <;> simp [known, h]

theorem Scalar.known_eq_node_iff {τ : Scalar} {e : Node} :
    τ.known e = τ.node ↔ ¬ (τ = .float ∧ ∃ op l r, e = .binary op l r) := by
  cases e with
  | binary op l r => cases τ <;> simp [known, node]
  | _ => simp [known]

/-- What the generator may know of a number. -/
def Scalar.KnownAs (σ : Scalar) (t : Node) : Prop :=
  σ = .int ∧ t = .intType ∨ σ = .float ∧ t = .floatType ∨ σ = .float ∧ t = .none

theorem Scalar.known_of_isNumber {σ : Scalar} (h : σ.isNumber) (e : Node) :
    σ.KnownAs (σ.known e) := by
  cases σ with
  | int => exact .inl ⟨rfl, known_of_ne (by decide) e⟩
  | float => cases e <;> simp [KnownAs, known, node]
  | bool => cases h
  | text => cases h

namespace ScalarExpr

variable {env : List Symbol} {e : Node} {τ : Scalar}

theorem typeIn_eq (h : ScalarExpr env e τ) : typeIn env e = τ.known e := by
  induction h with
  | number => rfl
  | decimal => rfl
  | name hs ht => simp [typeIn, hs, ht, Scalar.known]
  | @ints op l r hop _ _ ihl ihr =>
    rw [Scalar.known_of_ne (by decide)] at ihl ihr
    rw [typeIn, if_pos hop, ihl, ihr]
    rfl
  | @floats op l r σ τ hop _ _ hσ hτ hfloat ihl ihr =>
    have hop : op ∈ arithmeticOperators := List.mem_append_left ["%"] hop
    rw [typeIn, if_pos hop, ihl, ihr]
    -- Two integers apart, no mixture of numbers has a type.
    obtain ⟨rfl, hl⟩ | ⟨rfl, hl⟩ | ⟨rfl, hl⟩ := Scalar.known_of_isNumber hσ l <;>
      obtain ⟨rfl, hr⟩ | ⟨rfl, hr⟩ | ⟨rfl, hr⟩ := Scalar.known_of_isNumber hτ r <;>
      rw [hl, hr] <;> first | rfl | simp at hfloat
  | texts _ _ ihl ihr =>
    rw [Scalar.known_of_ne (by decide)] at ihl ihr
    rw [typeIn, if_pos (by decide), ihl, ihr]
    rfl
  | comparison hop =>
    rw [typeIn, if_neg fun h => not_mem_relational h hop]
    rfl
  | logical hop =>
    rw [typeIn, if_neg (by obtain rfl | rfl := hop <;> decide)]
    rfl

/-- The type that comes with the code. -/
theorem type_eq_typeIn (he : ScalarExpr env e τ) {f g : Frame} {c : Code} {t : Node}
    (hc : Coded env (.expr e) f c t g) : t = typeIn env e := by
  induction he generalizing f c t g with
  | number =>
    cases hc
    rfl
  | decimal =>
    cases hc
    rfl
  | name hs ht =>
    cases hc with
    | name hread =>
      cases hread with
      | slot hs' | static hs' => simp [typeIn, hs']
  | ints hop _ _ ihl ihr =>
    obtain ⟨cl, lt, g₁, cr, rt, h₁, hl, hr, rfl, -⟩ := hc.of_arithmetic hop
    rw [typeIn, if_pos hop, ihl hl, ihr hr]
  | @floats op l r σ τ hop _ _ _ _ _ ihl ihr =>
    have hop : op ∈ arithmeticOperators := List.mem_append_left ["%"] hop
    obtain ⟨cl, lt, g₁, cr, rt, h₁, hl, hr, rfl, -⟩ := hc.of_arithmetic hop
    rw [typeIn, if_pos hop, ihl hl, ihr hr]
  | texts _ _ ihl ihr =>
    obtain ⟨cl, lt, g₁, cr, rt, h₁, hl, hr, rfl, -⟩ := hc.of_arithmetic (by decide)
    rw [typeIn, if_pos (by decide), ihl hl, ihr hr]
  | comparison hop =>
    obtain ⟨cl, lt, g₁, cr, rt, h₁, hl, hr, rfl, -⟩ := hc.of_comparison hop
    rw [typeIn, if_neg fun h => not_mem_relational h hop]
  | logical hop =>
    obtain ⟨cl, lt, g₁, cr, rt, h₁, hl, hr, rfl, -⟩ := hc.of_logical hop
    rw [typeIn, if_neg (by obtain rfl | rfl := hop <;> decide)]

end ScalarExpr

/-! ## Sound expressions -/

/-- Whether a variable is read as an object without being one.  This happens to a variable in a slot
that is named `this`. -/
def misread (env : List Symbol) (x : String) : Bool :=
  match Symbol.find? x env with
  | some s =>
    match s.home, s.type with
    | .slot _, .stringType => false
    | .slot _, _ => x = "this"
    | _, _ => false
  | none => false

/-- Whether numbers are compared rightly of which the generator knows these types. -/
def comparable : Node → Node → Bool
  | .intType, .intType => true
  | .floatType, .intType => false
  | .floatType, _ => true
  | _, _ => false

/-- Whether an operator has right code for operands of which the generator knows these types. -/
def joins (op : String) (lt rt : Node) : Bool :=
  if op ∈ arithmeticOperators then
    match Mixture.of op lt rt with
    | .ints | .texts => true
    | .floats | .intFloat | .floatInt => op ≠ "+"
    | .apart => false
  else if op ∈ relationalOperators then comparable lt rt
  else true

theorem joins_of_relational {op : String} (h : op ∈ relationalOperators) (lt rt : Node) :
    joins op lt rt = comparable lt rt := by
  rw [joins, if_neg fun h' => not_mem_relational h' h, if_pos h]

/-- Whether the code of an expression is right. -/
def sound (env : List Symbol) : Node → Bool
  | .id x => !misread env x
  | .binary op l r => sound env l && sound env r && joins op (typeIn env l) (typeIn env r)
  | _ => true

theorem sound_binary_iff {env : List Symbol} {op : String} {l r : Node} :
    sound env (.binary op l r) = true ↔ (sound env l = true ∧ sound env r = true) ∧
      joins op (typeIn env l) (typeIn env r) = true := by
  simp only [sound, Bool.and_eq_true]

/-- The slots hold what the variables in them are declared as. -/
def SlotsAgree (slots : Int → Option StackType) (env : List Symbol) : Prop :=
  ∀ x s i τ, Symbol.find? x env = some s → s.home = .slot i → s.type = Scalar.node τ →
    slots i = some τ.stack

/-! ## What the code does -/

/-- The type on the stack of a value of which the generator knows the type. -/
def stackOf : Node → StackType
  | .floatType => .float
  | .stringType => .text
  | _ => .int

theorem Scalar.stackOf_node (τ : Scalar) : stackOf τ.node = τ.stack := by
  cases τ <;> rfl

/-- What an operator of arithmetic takes, if its result has a type. -/
def operandType (op : String) : Node → StackType
  | .none => if op = "+" then .text else .float
  | t => stackOf t

/-- The operands of arithmetic. -/
def Mixture.effect (F G : StackEffect) : Mixture → StackEffect
  | ints | texts | floats => F >=> G
  | intFloat => (F >=> exchange [.int] [.float]) >=> G
  | floatInt => (F >=> G) >=> exchange [.int] [.float]
  | apart => some

/-- A comparison, by the type that is known of the first operand. -/
def compareEffect : Node → StackEffect
  | .intType => exchange [.int, .int] [.int]
  | .floatType => exchange [.float, .float] [.int]
  | _ => some

/-- What the code of an expression does to the stack. -/
def effect (env : List Symbol) : Node → StackEffect
  | .id x => fun S => if misread env x then none else some (stackOf (typeIn env (.id x)) :: S)
  | .binary op l r =>
    let m := Mixture.of op (typeIn env l) (typeIn env r)
    let u := operandType op m.type
    if op ∈ arithmeticOperators then
      m.effect (effect env l) (effect env r) >=> exchange [u, u] [u]
    else if op ∈ relationalOperators then
      (effect env l >=> effect env r) >=> compareEffect (typeIn env l)
    else (effect env l >=> effect env r) >=> exchange [.int, .int] [.int]
  | .floatLit _ => fun S => some (.float :: S)
  | _ => fun S => some (.int :: S)

theorem ScalarExpr.knownAs {env : List Symbol} {e : Node} {σ : Scalar} (h : ScalarExpr env e σ)
    (hσ : σ.isNumber) : σ.KnownAs (typeIn env e) := by
  rw [h.typeIn_eq]
  exact Scalar.known_of_isNumber hσ e

section Code

variable {slots : Int → Option StackType} {env : List Symbol} {prog : Code} {R : List StackType}
  {op : String} {f g : Frame} {c : Code} {t l r : Node} {τ : Scalar}

theorem Scalar.ofDescriptor?_descriptor {d : String} (h : τ.node.descriptor = .ok d) :
    StackType.ofDescriptor? d = some τ.stack := by
  cases τ <;> cases h <;> decide

/-- A variable is read as its type, unless it is misread. -/
theorem Does.reads (hslots : SlotsAgree slots env) {x : String} {s : Symbol}
    (hs : Symbol.find? x env = some s) (hτ : s.type = τ.node) (hc : Reads env x f c t g) :
    Does slots prog R c (effect env (.id x)) := by
  have heffect : effect env (.id x) = fun S =>
      if misread env x then none else some (τ.stack :: S) := by
    simp [effect, typeIn, hs, hτ, Scalar.stackOf_node]
  rw [heffect]
  cases hc with
  | @slot s' i b hs' hhome hb =>
    obtain rfl : s = s' := Option.some.inj (hs.symm.trans hs')
    have hslot := hslots x s i τ hs hhome hτ
    have hread : misread env x = false ↔ τ.stack = .ofBank b := by
      by_cases hx : x = "this"
      · obtain rfl : .ref = b := by simpa [bankFor?, hx] using hb
        subst hx
        cases τ <;> simp [misread, hs, hhome, hτ, Scalar.node, Scalar.stack, StackType.ofBank]
      · rw [bankFor?, if_neg hx, hτ] at hb
        cases τ <;> cases hb <;>
          simp [misread, hs, hhome, hτ, hx, Scalar.node, Scalar.stack, StackType.ofBank]
    cases hmis : misread env x with
    | true =>
      rw [hmis] at hread
      exact .load_none (by rw [hslot]; simpa using hread)
    | false =>
      have hstack := hread.1 hmis
      have hload : (Instr.load b i).signature? slots = some ([], [τ.stack]) := by
        simp [Instr.signature?, hslot, hstack]
      exact .push hload rfl
  | @static s' o d hs' hhome hd =>
    obtain rfl : s = s' := Option.some.inj (hs.symm.trans hs')
    have hget : (Instr.getStatic (mainClass ++ "/" ++ x) d).signature? slots =
        some ([], [τ.stack]) := by
      rw [Instr.signature?, Scalar.ofDescriptor?_descriptor (hτ ▸ hd)]
      rfl
    simpa [misread, hs, hhome] using Does.push hget rfl

theorem signature?_intConstant (i : Int) :
    (intConstant i).signature? slots = some ([], [.int]) := by
  unfold intConstant
  repeat' split
  all_goals rfl

/-- Operators of arithmetic that have an instruction for results of a type. -/
def Computes (op : String) (t : Node) : Prop :=
  t = .intType ∧ op ∈ arithmeticOperators ∨ t = .stringType ∧ op = "+" ∨
    t = .none ∧ op ∈ ["+", "-", "*", "/"]

theorem signature?_arithmeticInstr (h : Computes op t) :
    (arithmeticInstr op t).signature? slots =
      some ([operandType op t, operandType op t], [operandType op t]) := by
  simp only [Computes, arithmeticOperators, List.mem_cons, List.not_mem_nil, or_false] at h
  obtain ⟨rfl, rfl | rfl | rfl | rfl | rfl⟩ | ⟨rfl, rfl⟩ | ⟨rfl, rfl | rfl | rfl | rfl⟩ := h <;> rfl

theorem Does.operands {cl cr : Code} {F G : StackEffect} (hl : Does slots prog R cl F)
    (hr : Does slots prog R cr G) (m : Mixture) :
    Does slots prog R (m.operands cl cr) (m.effect F G) := by
  have hwiden : Does slots prog R (Emit.one .i2f) (exchange [.int] [.float]) := .one rfl rfl
  cases m with
  | ints | texts | floats => exact hl.append hr
  | intFloat => exact (hl.append hwiden).append hr
  | floatInt => exact (hl.append hr).append hwiden
  | apart => exact .nil

theorem Does.arithmetic {σ ρ : Scalar} (hop : op ∈ arithmeticOperators)
    (hl : ScalarExpr env l σ) (hr : ScalarExpr env r ρ)
    (htype : Computes op (typeIn env (.binary op l r)))
    (ihl : ∀ {f c t g}, Coded env (.expr l) f c t g → Does slots prog R c (effect env l))
    (ihr : ∀ {f c t g}, Coded env (.expr r) f c t g → Does slots prog R c (effect env r))
    (hc : Coded env (.expr (.binary op l r)) f c t g) :
    Does slots prog R c (effect env (.binary op l r)) := by
  obtain ⟨cl, lt, _, cr, rt, _, hcl, hcr, rfl, rfl⟩ := hc.of_arithmetic hop
  obtain rfl := hl.type_eq_typeIn hcl
  obtain rfl := hr.type_eq_typeIn hcr
  rw [typeIn, if_pos hop] at htype
  rw [effect, if_pos hop]
  refine (Does.operands (ihl hcl) (ihr hcr) _).append (.one (signature?_arithmeticInstr htype) ?_)
  exact Instr.isStraight_of_isOperator (isOperator_arithmeticInstr op _)

/-- The code of a comparison, by the type that is known of the first operand. -/
theorem Does.compares (hprog : prog.labels.Nodup) (hop : op ∈ relationalOperators) {n : Nat}
    (hc : Compares op n t f c g) (ht : t ≠ .stringType) :
    Does slots prog R c (compareEffect t) := by
  cases hc with
  | ints => exact .choose hprog hop (fun _ _ => rfl) (fun _ _ => rfl) fun _ _ => rfl
  | floats =>
    have hcompare : Does slots prog R (Emit.one .fcmpl) (exchange [.float, .float] [.int]) :=
      .one rfl rfl
    rw [compareEffect, List.append_assoc, ← exchange_kleisli [.float, .float] [.int] [.int]]
    exact hcompare.append
      (.choose hprog hop (fun _ _ => rfl) (fun _ _ => rfl) fun _ _ => rfl)
  | texts => exact absurd rfl ht
  | other hint hfloat =>
    have hnone : compareEffect t = some := by
      unfold compareEffect
      split
      · exact absurd rfl hint
      · exact absurd rfl hfloat
      · rfl
    rw [hnone]
    exact .nil

/-- The code of an expression does to the stack what its effect says. -/
theorem ScalarExpr.does (hprog : prog.labels.Nodup) (hslots : SlotsAgree slots env) {e : Node}
    (he : ScalarExpr env e τ) (hc : Coded env (.expr e) f c t g) :
    Does slots prog R c (effect env e) := by
  induction he generalizing f c t g with
  | @number i =>
    cases hc with
    | number hi =>
      cases hi
      exact .push (signature?_intConstant i)
        (Instr.isStraight_of_isConstant (isConstant_intConstant i))
  | decimal =>
    cases hc with
    | decimal => exact .push rfl rfl
  | name hfind hτ =>
    cases hc with
    | name hread => exact .reads hslots hfind hτ hread
  | ints hop hl hr ihl ihr =>
    exact .arithmetic hop hl hr (.inl ⟨(ScalarExpr.ints hop hl hr).typeIn_eq, hop⟩) ihl ihr hc
  | texts hl hr ihl ihr =>
    exact .arithmetic (by decide) hl hr (.inr (.inl ⟨(ScalarExpr.texts hl hr).typeIn_eq, rfl⟩))
      ihl ihr hc
  | floats hop hl hr hσ hτ hfloat ihl ihr =>
    have htype := (ScalarExpr.floats hop hl hr hσ hτ hfloat).typeIn_eq
    exact .arithmetic (List.mem_append_left ["%"] hop) hl hr (.inr (.inr ⟨htype, hop⟩)) ihl ihr hc
  | @comparison op l r σ _ hop hl hr hσ hτ ihl ihr =>
    obtain ⟨cl, lt, _, cr, rt, _, hcl, hcr, -, code, _, hcode, rfl⟩ := hc.of_comparison hop
    obtain rfl := hl.type_eq_typeIn hcl
    rw [effect, if_neg fun h => not_mem_relational h hop, if_pos hop]
    refine ((ihl hcl).append (ihr hcr)).append (.compares hprog hop hcode ?_)
    obtain ⟨-, h⟩ | ⟨-, h⟩ | ⟨-, h⟩ := hl.knownAs hσ <;> simp [h]
  | @logical op l r hop hl hr ihl ihr =>
    obtain ⟨cl, _, _, cr, _, _, hcl, hcr, -, rfl⟩ := hc.of_logical hop
    have hlast : Does slots prog R (Emit.one (if op = "&&" then .iand else .ior))
        (exchange [.int, .int] [.int]) := by
      obtain rfl | rfl := hop
      · exact .one rfl rfl
      · exact .one rfl rfl
    have heffect : effect env (.binary op l r) =
        (effect env l >=> effect env r) >=> exchange [.int, .int] [.int] := by
      obtain rfl | rfl := hop <;> rfl
    rw [heffect]
    exact ((ihl hcl).append (ihr hcr)).append hlast

end Code

end MiniGoc
