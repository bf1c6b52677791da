import MiniGoc.Proofs.Numerals
import MiniGoc.Proofs.Printing

/-!
# When a program has a node

The builder has many faults, for children that are missing and for nodes of a wrong shape.  On a
derivation none of them can occur but one: an operand that is an integer in binary, octal or
hexadecimal form, which cannot be read.  And this fault is not lost on its way up, since the
children that are not asked for have no operands.

`Build.FailsIff` says under which condition a step fails.  Steps one after the other fail if one of
them does (`FailsIff.bind`), so that the condition of a form is read off its children
(`SyntaxTree.failsIff_of_makes`).  The run over a tree is `SyntaxTree.failsIff_of_derives`.
-/

namespace MiniGoc

open Grammar (miniGo)

namespace Build

open SyntaxTree

/-! ## Steps that fail -/

/-- The step has a result, unless the condition holds.  Then it fails for a numeral. -/
structure FailsIff {α : Type} (p : Prop) (x : Except Fault α) : Prop where
  fails : p → x = .error .badNumeral
  succeeds : ¬ p → ∃ a, x = .ok a

namespace FailsIff

variable {α β : Type} {p q : Prop} {x : Except Fault α} {f : α → Except Fault β}

theorem congr (h : FailsIff p x) (hpq : q ↔ p) : FailsIff q x :=
  ⟨fun hq => h.fails (hpq.1 hq), fun hq => h.succeeds fun hp => hq (hpq.2 hp)⟩

theorem pure (a : α) : FailsIff False (.ok a : Except Fault α) := ⟨False.elim, fun _ => ⟨a, rfl⟩⟩

theorem of_ok (h : ∃ a, x = .ok a) : FailsIff False x := ⟨False.elim, fun _ => h⟩

theorem exists_error (h : FailsIff p x) : (∃ e, x = .error e) ↔ p := by
  refine ⟨fun ⟨e, he⟩ => ?_, fun hp => ⟨_, h.fails hp⟩⟩
  by_contra hp
  obtain ⟨a, ha⟩ := h.succeeds hp
  cases he.symm.trans ha

theorem eq_badNumeral (h : FailsIff p x) {e : Fault} (he : x = .error e) : e = .badNumeral :=
  Except.error.inj (he.symm.trans (h.fails (h.exists_error.1 ⟨e, he⟩)))

theorem bind (hx : FailsIff p x) (hf : ∀ a, x = .ok a → FailsIff q (f a)) :
    FailsIff (p ∨ q) (x >>= f) := by
  by_cases hp : p
  · refine ⟨fun _ => ?_, fun h => absurd (.inl hp) h⟩
    rw [hx.fails hp]
    rfl
  · obtain ⟨a, rfl⟩ := hx.succeeds hp
    exact (hf a rfl).congr (or_iff_right hp)

theorem next (hx : FailsIff p x) (hf : ∀ a, x = .ok a → ∃ b, f a = .ok b) :
    FailsIff p (x >>= f) :=
  (hx.bind fun a ha => .of_ok (hf a ha)).congr (by simp)

theorem mapM {γ : Type} {p : γ → Prop} {f : γ → Except Fault α} {cs : List γ}
    (h : ∀ c ∈ cs, FailsIff (p c) (f c)) : FailsIff (∃ c ∈ cs, p c) (cs.mapM f) := by
  induction cs with
  | nil => exact (pure []).congr (by simp)
  | cons c cs ih =>
    obtain ⟨hc, hcs⟩ := List.forall_mem_cons.1 h
    rw [List.mapM_cons]
    refine (hc.bind fun a _ => (ih hcs).next fun as _ => ⟨_, rfl⟩).congr ?_
    simp

end FailsIff

/-! ## Steps that cannot fail on a derivation -/

variable {n : Node} {cs : Forest}

theorem exists_of_funcCall (h : toNode (.node .funcCall cs) = .ok n) :
    ∃ p, callee n = .ok p := by
  simp only [toNode, node, bind_eq_ok, pure_eq_ok] at h
  obtain ⟨x, -, m, -, as, -, rfl⟩ := h
  exact ⟨(x, as), rfl⟩

theorem exists_of_arrayType (h : toNode (.node .arrayType cs) = .ok n) :
    ∃ p, arrayParts n = .ok p := by
  simp only [toNode, node] at h
  split at h
  · simp only [bind_eq_ok, pure_eq_ok] at h
    obtain ⟨d, -, m, -, p, -, rfl⟩ := h
    exact ⟨_, rfl⟩
  · obtain ⟨d, -, h⟩ := bind_eq_ok.1 h
    split at h
    · simp only [bind_eq_ok, pure_eq_ok] at h
      obtain ⟨t, -, rfl⟩ := h
      exact ⟨_, rfl⟩
    · simp only [bind_eq_ok, pure_eq_ok] at h
      obtain ⟨x, -, rfl⟩ := h
      exact ⟨_, rfl⟩

end Build

namespace SyntaxTree

open Build TokenKind

/-- An operand is an integer in binary, octal or hexadecimal form. -/
def HasBasedOperand (t : SyntaxTree) : Prop :=
  ∃ u : Token TokenKind, (Rule.operand, [Tree.leaf u]) ∈ t.nodes ∧ u.kind = .intLit ∧
    Based u.text.toList

variable {r s : Rule} {cs ds : Forest} {x : Except Fault Node}

@[simp] theorem not_hasBasedOperand_leaf (t : Token TokenKind) :
    ¬ HasBasedOperand (.leaf t) := by
  simp [HasBasedOperand, Tree.nodes]

/-- The phrase is itself an operand of this kind. -/
def IsBasedOperand (r : Rule) (cs : Forest) : Prop :=
  r = .operand ∧ ∃ u : Token TokenKind, cs = [.leaf u] ∧ u.kind = .intLit ∧ Based u.text.toList

theorem hasBasedOperand_node : HasBasedOperand (.node r cs) ↔
    IsBasedOperand r cs ∨ ∃ c ∈ cs, HasBasedOperand c := by
  simp only [HasBasedOperand, IsBasedOperand, Tree.nodes, List.mem_cons, Prod.mk.injEq,
    Tree.mem_nodesList]
  constructor
  · rintro ⟨u, ⟨rfl, rfl⟩ | ⟨c, hc, hu⟩, hk, hb⟩
    · exact .inl ⟨rfl, u, rfl, hk, hb⟩
    · exact .inr ⟨c, hc, u, hu, hk, hb⟩
  · rintro (⟨rfl, u, rfl, hk, hb⟩ | ⟨c, hc, u, hu, hk, hb⟩)
    · exact ⟨u, .inl ⟨rfl, rfl⟩, hk, hb⟩
    · exact ⟨u, .inr ⟨c, hc, hu⟩, hk, hb⟩

/-- Punctuation does not count. -/
theorem exists_hasBasedOperand_core :
    (∃ c ∈ core cs, HasBasedOperand c) ↔ ∃ c ∈ cs, HasBasedOperand c := by
  constructor
  · rintro ⟨c, hc, h⟩
    exact ⟨c, (List.mem_filter.1 hc).1, h⟩
  · rintro ⟨c, hc, h⟩
    cases c with
    | leaf t => exact absurd h (not_hasBasedOperand_leaf t)
    | node s ds => exact ⟨_, List.mem_filter.2 ⟨hc, rfl⟩, h⟩

/-- All children fail for their operands only. -/
def Failing (cs : Forest) : Prop := ∀ c ∈ cs, FailsIff (HasBasedOperand c) (toNode c)

theorem Failing.nodeOr {o : Option Forest} (h : Failing cs) (ho : ∀ c ∈ maybe s o, c ∈ cs)
    (other : Node) :
    FailsIff (∃ c ∈ maybe s o, HasBasedOperand c) (Build.nodeOr s o other) := by
  cases o with
  | none => exact (FailsIff.pure other).congr (by simp [maybe])
  | some ds =>
    refine (h (.node s ds) (ho _ (by simp [maybe]))).congr ?_
    simp [maybe]

theorem Fitting.exists_items {o : Option Forest} {m : Node} {q : Role} (h : Fitting true cs)
    (hm : Build.nodeOr s o (.list []) = .ok m) (ho : ∀ c ∈ maybe s o, c ∈ cs)
    (hq : .list q ∈ s.roles) : ∃ ns, Build.items m = .ok ns := by
  obtain ⟨ns, rfl, -⟩ := (h.nodeOr hm ho hq (.list (by simp))).exists_list
  exact ⟨ns, rfl⟩

theorem Failing.functionOf {ps t : Option Forest} {bs : Forest} (h : Failing cs)
    (hfit : Fitting true cs)
    (hcs : ∀ c ∈ maybe .paramList ps ++ (maybe .typ t ++ [Tree.node .block bs]), c ∈ cs)
    (name : String) :
    FailsIff
      (∃ c ∈ maybe .paramList ps ++ (maybe .typ t ++ [Tree.node .block bs]), HasBasedOperand c)
      (Build.functionOf name ps t bs) := by
  have hparams : ∀ c ∈ maybe .paramList ps, c ∈ cs := fun c hc => hcs c (by simp [hc])
  have htype : ∀ c ∈ maybe .typ t, c ∈ cs := fun c hc => hcs c (by simp [hc])
  refine FailsIff.congr ((h.nodeOr hparams _).bind fun m hm =>
    (FailsIff.of_ok (hfit.exists_items hm hparams (q := .param) (by decide))).bind fun qs _ =>
    (h.nodeOr htype _).bind fun r _ =>
    (h (.node .block bs) (hcs _ (by simp))).next fun b _ => ⟨_, rfl⟩) ?_
  simp [or_and_right, exists_or]

theorem assignment_of_mem {op : String} (l e : Node)
    (h : op ∈ Grammar.assignKinds.filterMap TokenKind.literal?) :
    ∃ n, assignment l e op = .ok n := by
  have hne : ∀ s ∈ Grammar.assignKinds.filterMap TokenKind.literal?, s.toList ≠ [] := by decide
  obtain ⟨c, w, hw⟩ := List.exists_cons_of_ne_nil (hne op h)
  by_cases hop : op = ":="
  · exact ⟨_, assignment_eq_ok.2 (.inl ⟨hop, rfl⟩)⟩
  · exact ⟨_, assignment_eq_ok.2 (.inr ⟨hop, c, w, hw, rfl⟩)⟩

theorem paramTypes_of_fits {ps : List Node} (h : ∀ p ∈ ps, p.Fits true .param) :
    ∃ ts, paramTypes ps = .ok ts := by
  induction ps with
  | nil => exact ⟨[], rfl⟩
  | cons p ps ih =>
    obtain ⟨hp, hps⟩ := List.forall_mem_cons.1 h
    obtain ⟨ts, hts⟩ := ih hps
    cases hp with
    | @param x t => exact ⟨t :: ts, by rw [paramTypes, hts]; rfl⟩
    | _ => simp_all

theorem groups_of_fits {ns : List Node} {q : Role} (h : ∀ n ∈ ns, n.Fits true (.list q)) :
    ∃ gs, ns.mapM items = .ok gs := by
  induction ns with
  | nil => exact ⟨[], rfl⟩
  | cons n ns ih =>
    obtain ⟨hn, hns⟩ := List.forall_mem_cons.1 h
    obtain ⟨gs, hgs⟩ := ih hns
    obtain ⟨ms, rfl, -⟩ := hn.exists_list
    exact ⟨ms :: gs, by rw [List.mapM_cons, hgs]; rfl⟩

theorem failsIff_params {p : Prop} {t : Except Fault Node} (h : FailsIff p t) (y : String)
    (ys : List String) : FailsIff p (params (y :: ys) t) := by
  refine ⟨fun hp => ?_, fun hp => ?_⟩
  · simp [h.fails hp, params, bind, Except.bind]
  · obtain ⟨type, rfl⟩ := h.succeeds hp
    exact ⟨_, params_eq_ok.2 ⟨type, rfl, rfl⟩⟩

theorem not_hasBasedOperand_operatorTree {op : Option Rule} (hl : levels r = some (s, op))
    (o : Token TokenKind) : ¬ HasBasedOperand (operatorTree o op) := by
  cases op with
  | none => exact not_hasBasedOperand_leaf o
  | some q =>
    have hq : q ≠ .operand := by
      rintro rfl
      revert hl
      cases r <;> simp [levels]
    simp [operatorTree, hasBasedOperand_node, IsBasedOperand, hq]

/-- A literal fails if it is an operand that cannot be read. -/
theorem failsIff_literal {t : Token TokenKind} (ht : t.kind ∈ literalKinds) (isOperand : Bool)
    (hs : t.kind.Spells t.text.toList) :
    FailsIff (isOperand = true ∧ t.kind = .intLit ∧ Based t.text.toList) (literal isOperand t) := by
  simp only [literalKinds, List.mem_cons, List.not_mem_nil, or_false] at ht
  obtain ht | ht | ht | ht | ht := ht <;> rw [literal, ht]
  · cases isOperand with
    | false => exact (FailsIff.pure _).congr (by simp)
    | true =>
      rw [ht] at hs
      have hread := Numeral.readInt?_eq_none_iff hs
      refine FailsIff.congr (FailsIff.next (p := Based t.text.toList) ?_ fun _ _ => ⟨_, rfl⟩) ?_
      · refine ⟨fun h => ?_, fun h => ?_⟩
        · simp [readInt, hread.2 h]
        · obtain ⟨i, hi⟩ := Option.ne_none_iff_exists'.1 fun hnone => h (hread.1 hnone)
          exact ⟨.int i, by simp [readInt, hi]⟩
      · simp
  · cases isOperand with
    | false => exact (FailsIff.pure _).congr (by simp)
    | true =>
      obtain ⟨v, e, hx⟩ := Numeral.readFloat?_of_spells (ht ▸ hs)
      generalize Binary64.ofDecimal false v e = x at hx
      have hread : readFloat t.text = .ok (.float x) := by simp [readFloat, hx]
      exact FailsIff.congr (.of_ok ⟨.floatLit (.float x), by simp [hread, pure, Except.pure]⟩)
        (by simp)
  · exact (FailsIff.pure _).congr (by simp)
  · exact (FailsIff.pure _).congr (by simp)
  · exact (FailsIff.pure _).congr (by simp)

theorem not_isBasedOperand_of_ne (h : ∀ u : Token TokenKind, cs ≠ [.leaf u]) :
    ¬ IsBasedOperand r cs := by
  rintro ⟨-, u, rfl, -⟩
  exact h u rfl

/-- The node of a form fails if the phrase is an operand that cannot be read, or has one. -/
theorem failsIff_of_makes (h : Makes r cs x) (hs : Spelled cs) (hfit : Fitting true cs)
    (hc : Failing cs) (hnamed : r = .paramDecl → ∀ ds, cs ≠ [.node .typ ds]) :
    FailsIff (IsBasedOperand r cs ∨ ∃ c ∈ cs, HasBasedOperand c) x := by
  -- Of the forms of one token only the literals can be operands that fail.
  have single {n : Node} {t : Token TokenKind} (ht : t.kind ≠ .intLit) :
      FailsIff (IsBasedOperand r [.leaf t] ∨ ∃ c ∈ [Tree.leaf t], HasBasedOperand c) (.ok n) := by
    refine (FailsIff.pure n).congr ?_
    simp [IsBasedOperand, ht]
  cases h with
  | @inner _ _ ds => exact (hc _ (by simp)).congr (by simp [IsBasedOperand])
  | name _ hx => exact single (by simp [hx])
  | list _ hu =>
    refine ((FailsIff.mapM hc).next fun ns _ => ⟨_, rfl⟩).congr ?_
    refine or_iff_right (not_isBasedOperand_of_ne ?_)
    rintro u rfl
    simpa [Tree.isRule] using hu (.leaf u) (by simp)
  | operator _ ho => exact single fun h => absurd (h ▸ ho) (by decide)
  | varType =>
    exact ((hc _ (by simp)).next fun t _ => ⟨_, rfl⟩).congr (by simp [IsBasedOperand])
  | varInit =>
    exact ((hc _ (by simp)).next fun e _ => ⟨_, rfl⟩).congr (by simp [IsBasedOperand])
  | varBoth =>
    exact ((hc _ (by simp)).bind fun t _ => (hc _ (by simp)).next fun e _ => ⟨_, rfl⟩).congr
      (by simp [IsBasedOperand])
  | const =>
    exact ((hc _ (by simp)).next fun e _ => ⟨_, rfl⟩).congr (by simp [IsBasedOperand])
  | @assign o _ _ ho =>
    refine ((hc _ (by simp)).bind fun l _ => (hc _ (by simp)).next fun e _ =>
      assignment_of_mem l e (hs.text_mem (by simp) ho (by decide))).congr ?_
    simp [IsBasedOperand, hasBasedOperand_node]
  | @update y o _ _ ho =>
    refine ((hc _ (by simp)).next fun e _ =>
      assignment_of_mem (.id y.text) e (hs.text_mem (by simp) ho (by decide))).congr ?_
    simp [IsBasedOperand, hasBasedOperand_node]
  | @branch _ _ o =>
    refine ((hc _ (by simp)).bind fun c hcond => (hc _ (by simp)).bind fun m hm =>
      (FailsIff.of_ok ?_).bind fun ms hms =>
      (hc.nodeOr (by simp +contextual) _).next fun no _ => ?_).congr ?_
    · obtain ⟨ps, rfl⟩ := exists_of_elseIfList hm
      exact ⟨_, rfl⟩
    · obtain ⟨p, rfl⟩ := exists_of_onlyIf hcond
      obtain ⟨ps, rfl⟩ := exists_of_elseIfList hm
      obtain rfl := Except.ok.inj hms
      exact ⟨_, by simpa using conditional_reverse (p :: ps) no⟩
    · simp [IsBasedOperand]
  | onlyIf =>
    exact ((hc _ (by simp)).bind fun e _ => (hc _ (by simp)).next fun b _ => ⟨_, rfl⟩).congr
      (by simp [IsBasedOperand])
  | forBasic =>
    exact ((hc _ (by simp)).bind fun e _ => (hc _ (by simp)).next fun b _ => ⟨_, rfl⟩).congr
      (by simp [IsBasedOperand])
  | forStep =>
    exact ((hc _ (by simp)).bind fun i _ => (hc _ (by simp)).bind fun e _ =>
      (hc _ (by simp)).bind fun u _ => (hc _ (by simp)).next fun b _ => ⟨_, rfl⟩).congr
      (by simp [IsBasedOperand])
  | forEach =>
    exact ((hc _ (by simp)).bind fun e _ => (hc _ (by simp)).next fun b _ => ⟨_, rfl⟩).congr
      (by simp [IsBasedOperand])
  | breakLoop => exact (FailsIff.pure _).congr (by simp [IsBasedOperand])
  | continueLoop => exact (FailsIff.pure _).congr (by simp [IsBasedOperand])
  | @ret o =>
    refine ((hc.nodeOr (by simp) _).next fun e _ => ⟨_, rfl⟩).congr ?_
    cases o <;> simp [IsBasedOperand]
  | func =>
    refine (hc.functionOf hfit (by simp +contextual) _).congr ?_
    simp [IsBasedOperand]
  | method =>
    refine ((hc.functionOf hfit (by simp +contextual) _).next fun f _ => ⟨_, rfl⟩).congr ?_
    simp [IsBasedOperand]
  | call =>
    refine ((hc.nodeOr (by simp +contextual) _).bind fun m hm => (FailsIff.of_ok
      (hfit.exists_items hm (q := .expr) (by simp +contextual) (by decide))).next
      fun as _ => ⟨_, rfl⟩).congr ?_
    simp [IsBasedOperand]
  | methodCall =>
    refine ((hc _ (by simp)).bind fun m hm => (FailsIff.of_ok (exists_of_funcCall hm)).bind
      fun p _ => (hc _ (by simp)).next fun c _ => ⟨_, rfl⟩).congr ?_
    simp [IsBasedOperand, or_comm]
  | primitive ht => exact single fun h => absurd (h ▸ ht) (by decide)
  | arrayMore =>
    refine ((hc _ (by simp)).bind fun d _ => (hc _ (by simp)).bind fun m hm =>
      (FailsIff.of_ok (exists_of_arrayType hm)).next fun p _ => ⟨_, rfl⟩).congr ?_
    simp [IsBasedOperand]
  | arrayPrimitive =>
    exact ((hc _ (by simp)).bind fun d _ => (hc _ (by simp)).next fun t _ => ⟨_, rfl⟩).congr
      (by simp [IsBasedOperand])
  | arrayNamed =>
    exact ((hc _ (by simp)).next fun d _ => ⟨_, rfl⟩).congr (by simp [IsBasedOperand])
  | sizeLit => exact (FailsIff.pure _).congr (by simp [IsBasedOperand])
  | sizeName hx => exact single (by simp [hx])
  | @binary _ s op o _ _ hl =>
    refine ((hc _ (by simp)).bind fun l _ => (hc _ (by simp)).next fun e _ => ⟨_, rfl⟩).congr ?_
    simp [IsBasedOperand, not_hasBasedOperand_operatorTree hl o]
  | unary =>
    exact ((hc _ (by simp)).next fun e _ => ⟨_, rfl⟩).congr (by simp [IsBasedOperand])
  | @literal _ t hr ht =>
    have hne : t.kind ≠ .eof := fun h => absurd (h ▸ ht) (by decide)
    refine (failsIff_literal ht _ (hs t (by simp) hne)).congr ?_
    simp [IsBasedOperand]
  | arrayLit =>
    refine ((hc _ (by simp)).bind fun m hm => (FailsIff.of_ok (exists_of_arrayType hm)).bind
      fun p _ => (hc _ (by simp)).next fun v _ => ⟨_, rfl⟩).congr ?_
    simp [IsBasedOperand]
  | shortArray =>
    exact ((hc _ (by simp)).next fun v _ => ⟨_, rfl⟩).congr (by simp [IsBasedOperand])
  | structLit =>
    refine ((hc.nodeOr (by simp +contextual) _).bind fun m hm => (FailsIff.of_ok
      (hfit.exists_items hm (q := .item) (by simp +contextual) (by decide))).next
      fun es _ => ⟨_, rfl⟩).congr ?_
    simp [IsBasedOperand]
  | field =>
    exact ((hc _ (by simp)).next fun c _ => ⟨_, rfl⟩).congr (by simp [IsBasedOperand])
  | chainCall =>
    refine ((hc _ (by simp)).bind fun c _ => (hc _ (by simp)).bind fun m hm =>
      (FailsIff.of_ok (exists_of_funcCall hm)).next fun p _ => ⟨_, rfl⟩).congr ?_
    simp [IsBasedOperand]
  | cell =>
    refine ((hc _ (by simp)).bind fun a _ => (FailsIff.mapM fun b hb => hc b (by simp [hb])).next
      fun is _ => ⟨_, rfl⟩).congr ?_
    simp [IsBasedOperand]
  | cellField =>
    refine ((hc _ (by simp)).bind fun c _ => (FailsIff.mapM fun b hb => hc b (by simp [hb])).next
      fun is _ => ⟨_, rfl⟩).congr ?_
    simp [IsBasedOperand]
  | cellCall =>
    refine ((hc _ (by simp)).bind fun m hm => (FailsIff.of_ok (exists_of_funcCall hm)).bind
      fun p _ => (hc _ (by simp)).bind fun c _ =>
      (FailsIff.mapM fun b hb => hc b (by simp [hb])).next fun is _ => ⟨_, rfl⟩).congr ?_
    simp [IsBasedOperand, or_left_comm]
  | structDecl =>
    refine ((FailsIff.mapM fun f hf => hc f (by simp [hf])).next fun fs _ => ⟨_, rfl⟩).congr ?_
    simp [IsBasedOperand]
  | interfaceDecl =>
    refine ((FailsIff.mapM fun m hm => hc m (by simp [hm])).next fun ms _ => ⟨_, rfl⟩).congr ?_
    simp [IsBasedOperand]
  | pair =>
    exact ((hc _ (by simp)).next fun v _ => ⟨_, rfl⟩).congr (by simp [IsBasedOperand])
  | prototype =>
    refine ((hc.nodeOr (by simp +contextual) _).bind fun m hm => (FailsIff.of_ok
      (hfit.exists_items hm (q := .param) (by simp +contextual) (by decide))).bind
      fun ps hps => (FailsIff.of_ok (paramTypes_of_fits
        (hfit.items hm (by simp +contextual) hps (by decide)))).bind fun ts _ =>
      (hc.nodeOr (by simp +contextual) _).next fun t _ => ⟨_, rfl⟩).congr ?_
    simp [IsBasedOperand, or_and_right, exists_or]
  | paramList hu =>
    refine ((FailsIff.mapM hc).bind fun ns hns => (FailsIff.of_ok
      (groups_of_fits (q := .param) (hfit.mapM hu (by decide) hns))).next
      fun gs _ => ⟨_, rfl⟩).congr ?_
    simp [IsBasedOperand]
  | @paramDecl xs ts hxs =>
    cases xs with
    | nil => exact absurd rfl (hnamed rfl ts)
    | cons y ys =>
      refine ((failsIff_params (hc _ (by simp)) _ _).next fun ps _ => ⟨_, rfl⟩).congr ?_
      simp [IsBasedOperand, or_and_right, exists_or]

/-! ## Sources -/

theorem core_ne_of_paramDecl (h : Tree.Derives miniGo (.node .paramDecl cs)) (ds : Forest) :
    core cs ≠ [.node .typ ds] := by
  obtain ⟨x, _, -, hcs, -⟩ := shape_of_derives TokenKind.punctuation h
  rw [core, hcs]
  simp

theorem isBasedOperand_core (h : Tree.Derives miniGo (.node r cs)) :
    IsBasedOperand r (core cs) ↔ IsBasedOperand r cs := by
  by_cases hr : r = .operand
  · subst hr
    obtain ⟨a, ha, hgrows⟩ := Grammar.derives_node.1 h
    obtain hcall | hsolid := solid_of_leading .operand (by decide)
    · cases hcall
    · rw [core, core_of_solid (hsolid a ha) hgrows]
  · simp [IsBasedOperand, hr]

/-- A phrase fails just if one of its operands cannot be read. -/
theorem failsIff_of_derives {t : SyntaxTree} (h : t.Derives miniGo) (hs : Spelled [t]) :
    FailsIff t.HasBasedOperand t.toNode := by
  induction h with
  | leaf t =>
    rw [toNode]
    exact (FailsIff.pure _).congr (by simp)
  | @node r cs a ha hgrows hd ih =>
    have hd' : Tree.Derives miniGo (.node r cs) := .node ha hgrows hd
    have hsub : ∀ d ∈ core cs, d ∈ cs := fun d hd => (List.mem_filter.1 hd).1
    have hs : Spelled cs := by simpa [Spelled] using hs
    have hfit : Fitting true (core cs) := by
      intro s ds n hmem
      have hchild : Fitting true [.node s ds] :=
        fits_of_derives (hd _ (hsub _ hmem)) (hs.mono (by simpa using hsub _ hmem)) (by simp)
      exact hchild s ds n (by simp)
    have hfail : Failing (core cs) := fun d hd =>
      ih d (hsub d hd) (hs.mono (by simpa using hsub d hd))
    refine (failsIff_of_makes (makes_of_derives hd') (hs.mono hsub) hfit hfail ?_).congr ?_
    · rintro rfl
      exact core_ne_of_paramDecl hd'
    · rw [hasBasedOperand_node, exists_hasBasedOperand_core, isBasedOperand_core hd']

/-- The node of a source can be built and printed, unless an operand of the source is an integer in
binary, octal or hexadecimal form.  Then the numeral is the fault. -/
theorem printing_fails_iff {source : String} {t : SyntaxTree} (h : parse source = .ok t) :
    ((∃ e, (t.toNode >>= Node.render) = .error e) ↔
      ∃ u : Token TokenKind, (Rule.operand, [Tree.leaf u]) ∈ t.nodes ∧ u.kind = .intLit ∧
        Based u.text.toList) ∧
    ∀ e, (t.toNode >>= Node.render) = .error e → e = .badNumeral := by
  have hnode : FailsIff t.HasBasedOperand t.toNode := by
    obtain ⟨-, cs, rfl, hd⟩ := derives_of_parse h
    exact failsIff_of_derives hd (spelled_of_parse h)
  have hprint : FailsIff t.HasBasedOperand (t.toNode >>= Node.render) :=
    hnode.next fun n hn => ⟨_, Node.render_eq (fits_of_source h hn)⟩
  exact ⟨hprint.exists_error, fun e => hprint.eq_badNumeral⟩

theorem printing_fails_iff_hex :
    ∃ t, parse "const a=[0x2]int\x7b0b1\x7d[0x1];" = .ok t ∧
      (t.toNode >>= Node.render) = .error .badNumeral ∧
      ((∃ e, (t.toNode >>= Node.render) = .error e) ↔
        ∃ u : Token TokenKind, (Rule.operand, [Tree.leaf u]) ∈ t.nodes ∧ u.kind = .intLit ∧
          Based u.text.toList) ∧
      ∀ e, (t.toNode >>= Node.render) = .error e → e = .badNumeral := by
  have hrun : (parse "const a=[0x2]int\x7b0b1\x7d[0x1];").toOption.map
      (fun t => (t.toNode >>= Node.render).toOption) = some none := by decide +kernel
  cases ht : parse "const a=[0x2]int\x7b0b1\x7d[0x1];" with
  | error e =>
    rw [ht] at hrun
    cases hrun
  | ok t =>
    rw [ht] at hrun
    cases hprint : t.toNode >>= Node.render with
    | ok text => simp [hprint, Except.toOption] at hrun
    | error e =>
      have h := printing_fails_iff ht
      rw [hprint] at h
      exact ⟨t, rfl, by rw [hprint, h.2 e rfl], by rwa [hprint]⟩

end SyntaxTree

end MiniGoc
