import MiniGoc.Node.Equality
import MiniGoc.Proofs.Roles
import MiniGoc.Proofs.Rounding

/-!
# What the comparison of nodes decides

The comparison takes all nodes without parts for one node.  `Node.marked` puts one mark in their
place, and two nodes compare as the same exactly if they are the same with these marks
(`Node.same_decides`).  The comparison can fail, where a node without parts stands in one node and
nothing or a list in the other; it then fails both ways.  This rests on what literals hold: numbers
in normal form compare as the same only if they are the same.
-/

namespace MiniGoc

namespace Node

mutual

/-- The node with one mark in place of every node without parts. -/
def marked : Node → Node
  | intType | floatType | boolType | stringType | voidType => nilLit
  | breakLoop | continueLoop | nilLit => nilLit
  | list xs => list (markedAll xs)
  | pair n v => pair n v.marked
  | program ds => program (markedAll ds)
  | param n t => param n t.marked
  | var n t i => var n t.marked i.marked
  | const n t i => const n t.marked i.marked
  | func n ps r b => func n (markedAll ps) r.marked b.marked
  | method n t f => method n t.marked f.marked
  | prototype n ps r => prototype n (markedAll ps) r.marked
  | arrayType ds e => arrayType (markedAll ds) e.marked
  | interfaceType n ms => interfaceType n (markedAll ms)
  | structType n es ms is => structType n (markedAll es) (markedAll ms) (markedAll is)
  | funcType ps r => funcType (markedAll ps) r.marked
  | checkedFuncType ps r => checkedFuncType (markedAll ps) r.marked
  | symbol n t => symbol n t.marked
  | block ms => block (markedAll ms)
  | assign l r => assign l.marked r.marked
  | ifElse c y n => ifElse c.marked y.marked n.marked
  | forBasic c b => forBasic c.marked b.marked
  | forStep i c u b => forStep i.marked c.marked u.marked b.marked
  | forEach i v a b => forEach i.marked v.marked a.marked b.marked
  | ret e => ret e.marked
  | cell a is => cell a.marked (markedAll is)
  | field r n => field r.marked n
  | binary op l r => binary op l.marked r.marked
  | unary op e => unary op e.marked
  | call n as => call n (markedAll as)
  | methodCall r n as => methodCall r.marked n (markedAll as)
  | intLit v => intLit v.marked
  | floatLit v => floatLit v.marked
  | stringLit v => stringLit v.marked
  | boolLit v => boolLit v.marked
  | arrayLit ds e v => arrayLit (markedAll ds) e.marked v.marked
  | structLit n es => structLit n (markedAll es)
  | n => n

def markedAll : List Node → List Node
  | [] => []
  | x :: xs => x.marked :: markedAll xs

end

attribute [local simp] marked markedAll

mutual

/-- A node that holds numbers and truth values in its literals only, in each kind of literal those
of that kind. -/
def Sound : Node → Prop
  | none | id _ | intType | floatType | boolType | stringType | voidType => True
  | breakLoop | continueLoop | nilLit => True
  | intLit v => (∃ i, v = int i) ∨ ∃ s, v = text s
  | floatLit v => (∃ x, v = float x ∧ x.Normal) ∨ ∃ s, v = text s
  | stringLit v => ∃ s, v = text s
  | boolLit v => ∃ b, v = bool b
  | pair _ a | param _ a | ret a | field a _ | unary _ a => a.Sound
  | var _ a b | const _ a b | method _ a b | assign a b | forBasic a b => a.Sound ∧ b.Sound
  | binary _ a b => a.Sound ∧ b.Sound
  | ifElse a b c => a.Sound ∧ b.Sound ∧ c.Sound
  | forStep a b c d | forEach a b c d => a.Sound ∧ b.Sound ∧ c.Sound ∧ d.Sound
  | list xs | program xs | interfaceType _ xs | block xs | call _ xs | structLit _ xs => AllSound xs
  | prototype _ xs a | arrayType xs a | cell a xs | methodCall a _ xs => AllSound xs ∧ a.Sound
  | func _ xs a b | arrayLit xs a b => AllSound xs ∧ a.Sound ∧ b.Sound
  | structType _ xs ys zs => AllSound xs ∧ AllSound ys ∧ AllSound zs
  | _ => False

def AllSound : List Node → Prop
  | [] => True
  | x :: xs => x.Sound ∧ AllSound xs

end

attribute [local simp] Sound AllSound

/-- A comparison that comes to the same both ways, and says whether two things are alike. -/
structure Verdict (r r' : Except Fault Bool) (alike : Prop) : Prop where
  decided : r = .error .missingPart ∨ ∃ c, r = .ok c
  comm : r' = r
  iff : r = .ok true ↔ alike

variable {a b : Node} {r r' q q' : Except Fault Bool} {xs ys : List Node} {p p' : Prop}

theorem length_markedAll (xs : List Node) : (markedAll xs).length = xs.length := by
  induction xs with
  | nil => rw [markedAll]
  | cons x xs ih => rw [markedAll, List.length_cons, ih, List.length_cons]

namespace Verdict

theorem of_bool {c : Bool} (h : c = true ↔ p) : Verdict (.ok c) (.ok c) p where
  decided := .inr ⟨c, rfl⟩
  comm := rfl
  iff := by rw [Except.ok.injEq, h]

theorem congr (h : Verdict r r' p) (hp : p ↔ p') : Verdict r r' p' :=
  ⟨h.decided, h.comm, h.iff.trans hp⟩

theorem no (h : ¬ p) : Verdict (.ok false) (.ok false) p := of_bool (by simp [h])

theorem beq {α : Type} [BEq α] [LawfulBEq α] (n m : α) :
    Verdict (.ok (n == m)) (.ok (m == n)) (n = m) := by
  rw [BEq.comm (a := m)]
  exact of_bool beq_iff_eq

theorem and (h : Verdict r r' p) (h' : Verdict q q' p') :
    Verdict (andThen r q) (andThen r' q') (p ∧ p') := by
  obtain ⟨hr, rfl, hp⟩ := h
  obtain ⟨hq, rfl, hp'⟩ := h'
  rw [← hp, ← hp']
  obtain rfl | ⟨c, rfl⟩ := hr
  · exact ⟨.inl rfl, rfl, by simp [andThen]⟩
  · cases c with
    | true => exact ⟨hq, rfl, by simp [andThen]⟩
    | false => exact no (by simp)

theorem ofLength (h : xs.length = ys.length → Verdict r r' (markedAll xs = markedAll ys)) :
    Verdict (ofLength xs ys r) (ofLength ys xs r') (markedAll xs = markedAll ys) := by
  unfold Node.ofLength
  by_cases hlen : xs.length = ys.length
  · rw [if_pos hlen, if_pos hlen.symm]
    exact h hlen
  · rw [if_neg hlen, if_neg (Ne.symm hlen)]
    refine no fun heq => hlen ?_
    have hlens := congrArg List.length heq
    rwa [length_markedAll, length_markedAll] at hlens

end Verdict

/-! ## Nodes of different kinds -/

theorem marked_of_bare (h : a.shape = .bare) : a.marked = nilLit := by
  cases a <;> first | rfl | cases h

theorem ctorIdx_marked (h : a.shape ≠ .bare) : a.marked.ctorIdx = a.ctorIdx := by
  cases a <;> first | rfl | exact absurd rfl h

theorem shape_marked (a : Node) : a.marked.shape = a.shape := by
  cases a <;> rfl

theorem same_of_ne (h : a.ctorIdx ≠ b.ctorIdx) : same a b = match a.shape, b.shape with
      | .bare, .bare => .ok true
      | .bare, .plain => .error .missingPart
      | .plain, .bare => .error .missingPart
      | .plain, .plain => .ok (sameScalar a b)
      | _, _ => .ok false := by
  unfold same
  split <;> first | exact absurd rfl h | rfl

theorem eq_none_of_plain (ha : a.Sound) (hs : a.shape = .plain) :
    a = none ∨ (∃ xs, a = list xs) ∨ ∃ n v, a = pair n v := by
  cases a <;> simp_all [Sound, shape]

/-- Nodes of two kinds are alike if both are without parts. -/
theorem verdict_of_ne (ha : a.Sound) (hb : b.Sound) (h : a.ctorIdx ≠ b.ctorIdx) :
    Verdict (same a b) (same b a) (a.marked = b.marked) := by
  have hshape : a.shape ≠ b.shape → ¬ a.marked = b.marked := by
    rw [← shape_marked a, ← shape_marked b]
    exact mt (congrArg shape)
  have hkind : a.shape ≠ .bare → b.shape ≠ .bare → ¬ a.marked = b.marked := by
    intro hs ht heq
    exact h (by rw [← ctorIdx_marked hs, heq, ctorIdx_marked ht])
  rw [same_of_ne h, same_of_ne h.symm]
  cases hs : a.shape <;> cases ht : b.shape <;> simp only [hs, ht] at hshape hkind ⊢
  case bare.bare =>
    rw [marked_of_bare hs, marked_of_bare ht]
    exact .of_bool (by simp)
  case plain.plain =>
    have hscalar : sameScalar a b = false ∧ sameScalar b a = false := by
      obtain rfl | ⟨xs, rfl⟩ | ⟨n, v, rfl⟩ := eq_none_of_plain ha hs <;>
        obtain rfl | ⟨ys, rfl⟩ | ⟨m, w, rfl⟩ := eq_none_of_plain hb ht <;>
        first | exact absurd rfl h | exact ⟨rfl, rfl⟩
    rw [hscalar.1, hscalar.2]
    exact .no (hkind (by simp) (by simp))
  case plain.bare | bare.plain => exact ⟨.inl rfl, rfl, by simp [hshape]⟩
  all_goals exact .no (by simp [hshape, hkind])

theorem verdict_of_kind (ha : a.Sound) (hb : b.Sound)
    (h : @Node.ctorElimType
      (fun b => b.Sound → Verdict (same a b) (same b a) (a.marked = b.marked)) a.ctorIdx) :
    Verdict (same a b) (same b a) (a.marked = b.marked) := by
  by_cases hk : a.ctorIdx = b.ctorIdx
  · exact Node.ctorElim a.ctorIdx b hk h hb
  · exact verdict_of_ne ha hb hk

/-! ## Nodes of one kind -/

theorem verdict_int {v w : Node} (hv : (intLit v).Sound) (hw : (intLit w).Sound) :
    Verdict (same v w) (same w v) (v.marked = w.marked) := by
  obtain ⟨i, rfl⟩ | ⟨s, rfl⟩ := hv <;> obtain ⟨j, rfl⟩ | ⟨t, rfl⟩ := hw
  case inl.inl => exact (Verdict.beq i j).congr (by simp [marked])
  case inr.inr => exact (Verdict.beq s t).congr (by simp [marked])
  all_goals exact .no (by simp [marked])

theorem verdict_float {v w : Node} (hv : (floatLit v).Sound) (hw : (floatLit w).Sound) :
    Verdict (same v w) (same w v) (v.marked = w.marked) := by
  obtain ⟨x, rfl, hx⟩ | ⟨s, rfl⟩ := hv <;> obtain ⟨y, rfl, hy⟩ | ⟨t, rfl⟩ := hw
  case inl.inl =>
    have hcomm : same (float y) (float x) = same (float x) (float y) := by
      refine congrArg Except.ok (Bool.eq_iff_iff.2 ?_)
      exact (hy.same_iff hx).trans (eq_comm.trans (hx.same_iff hy).symm)
    rw [hcomm]
    exact .of_bool ((hx.same_iff hy).trans (by simp [marked]))
  case inr.inr => exact (Verdict.beq s t).congr (by simp [marked])
  all_goals exact .no (by simp [marked])

/-- Nodes of one kind are alike if their parts are. -/
theorem verdict (a : Node) : a.Sound → ∀ b : Node, b.Sound →
    Verdict (same a b) (same b a) (a.marked = b.marked) := by
  apply @Node.rec
    (fun a => a.Sound → ∀ b : Node, b.Sound → Verdict (same a b) (same b a) (a.marked = b.marked))
    (fun xs => AllSound xs → ∀ ys, AllSound ys → xs.length = ys.length →
      Verdict (sameAll xs ys) (sameAll ys xs) (markedAll xs = markedAll ys))
  case nil =>
    intro _ ys _ hlen
    rw [List.length_eq_zero_iff.1 hlen.symm]
    exact .of_bool (by simp)
  case cons =>
    intro x xs ihx ihxs ha ys hb hlen
    cases ys with
    | nil => cases hlen
    | cons y ys =>
      simp only [markedAll, List.cons.injEq]
      exact (ihx ha.1 y hb.1).and (ihxs ha.2 ys hb.2 (Nat.succ.inj hlen))
  all_goals
    intros
    rename_i ha b hb
    refine verdict_of_kind ha hb ⟨?_⟩
    clear b hb
    intros
    beta_reduce
    intro hb
  case intLit => exact (verdict_int ha hb).congr (by simp [marked])
  case floatLit => exact (verdict_float ha hb).congr (by simp [marked])
  case stringLit =>
    obtain ⟨s, rfl⟩ := ha
    obtain ⟨t, rfl⟩ := hb
    exact (Verdict.beq s t).congr (by simp [marked])
  case boolLit =>
    obtain ⟨c, rfl⟩ := ha
    obtain ⟨d, rfl⟩ := hb
    exact (Verdict.beq c d).congr (by simp [marked])
  case none | breakLoop | continueLoop | nilLit | intType | floatType | boolType | stringType |
      voidType => exact .of_bool (by simp [sameScalar])
  case bool | int | float | text | funcType | checkedFuncType | symbol => exact ha.elim
  -- The parts are compared in the order in which they make up the node.
  all_goals
    simp only [Sound] at ha hb
    simp only [same, marked, list.injEq, pair.injEq, program.injEq, param.injEq, var.injEq,
      const.injEq, func.injEq, method.injEq, prototype.injEq, arrayType.injEq, interfaceType.injEq,
      structType.injEq, block.injEq, assign.injEq, ifElse.injEq, forBasic.injEq, forStep.injEq,
      forEach.injEq, ret.injEq, id.injEq, cell.injEq, field.injEq, binary.injEq, unary.injEq,
      call.injEq, methodCall.injEq, arrayLit.injEq, structLit.injEq]
    apply_rules [Verdict.and, Verdict.beq, Verdict.ofLength] <;>
      simp_all only [forall_const]

/-! ## The nodes of sources -/

theorem allSound_iff : AllSound xs ↔ ∀ x ∈ xs, x.Sound := by
  induction xs with
  | nil => simp [AllSound]
  | cons x xs ih => rw [AllSound, ih, List.forall_mem_cons]

theorem Fits.sound {r : Role} {decimals : Bool} (h : a.Fits decimals r) : a.Sound := by
  induction h with
  | float _ hs hx => exact .inl ⟨_, rfl, Numeral.normal_of_spells hs hx⟩
  | _ => simp_all [Sound, allSound_iff, AllSound]

end Node

namespace SyntaxTree

open Grammar

variable {t : SyntaxTree} {r : Rule} {cs : Forest} {q : Role} {n : Node}

theorem fits_of_mem_nodes (h : t.Derives miniGo) (hs : Spelled [t]) (hmem : (r, cs) ∈ t.nodes)
    (hn : toNode (.node r cs) = .ok n) (hq : q ∈ r.roles) : n.Fits true q := by
  induction h with
  | leaf u => cases hmem
  | @node s ds a ha hgrows hc ih =>
    rw [Tree.nodes, List.mem_cons] at hmem
    obtain heq | hmem := hmem
    · obtain ⟨rfl, rfl⟩ := Prod.mk.inj heq
      have hfits : Fitting true [.node r cs] := fits_of_derives (.node ha hgrows hc) hs (by simp)
      exact hfits r cs n (by simp) hn q hq
    · obtain ⟨d, hd, hmem⟩ := Tree.mem_nodesList.1 hmem
      have hs : Spelled ds := by simpa [Spelled] using hs
      exact ih d hd (hs.mono (by simpa using hd)) hmem

end SyntaxTree

namespace Node

/-- The nodes that are built of the phrases of a source.  Phrases for operators have no node. -/
def Built (a : Node) : Prop :=
  ∃ source t r cs, SyntaxTree.parse source = .ok t ∧ (r, cs) ∈ t.nodes ∧ r.roles ≠ [] ∧
    SyntaxTree.toNode (.node r cs) = .ok a

variable {a b : Node}

theorem built_of_source {source : String} {t : SyntaxTree} (ht : SyntaxTree.parse source = .ok t)
    (hn : t.toNode = .ok a) : a.Built := by
  obtain ⟨-, cs, rfl, -⟩ := SyntaxTree.derives_of_parse ht
  exact ⟨source, _, .program, cs, ht, by simp [Tree.nodes], by decide, hn⟩

theorem Built.sound (h : a.Built) : a.Sound := by
  obtain ⟨source, t, r, cs, ht, hmem, hr, hn⟩ := h
  obtain ⟨-, ds, rfl, hd⟩ := SyntaxTree.derives_of_parse ht
  obtain ⟨q, hq⟩ := List.exists_mem_of_ne_nil _ hr
  exact (SyntaxTree.fits_of_mem_nodes hd (SyntaxTree.spelled_of_parse ht) hmem hn hq).sound

/-- The comparison of two nodes that are built of sources fails for a missing part, or answers.
It says yes to exactly those nodes that are the same up to their nodes without parts, and it comes
to the same both ways. -/
theorem same_decides (ha : a.Built) (hb : b.Built) :
    (same a b = .error .missingPart ∨ ∃ c, same a b = .ok c) ∧
      (same a b = .ok true ↔ a.marked = b.marked) ∧ same b a = same a b :=
  have h := verdict a ha.sound b hb.sound
  ⟨h.decided, h.iff, h.comm⟩

/-- The name of a variable that is alone in its program, and its type. -/
def soleVar : Node → List String
  | .program [.var x .intType .none] => [x, "int"]
  | .program [.var x .floatType .none] => [x, "float"]
  | _ => []

/-- Two sources that differ in a type have nodes that compare as the same. -/
theorem same_decides_types : ∃ t t' n n', SyntaxTree.parse "var a int;" = .ok t ∧
    t.toNode = .ok n ∧ SyntaxTree.parse "var a float;" = .ok t' ∧ t'.toNode = .ok n' ∧
    n ≠ n' ∧ same n n' = .ok true := by
  have hrun : ((SyntaxTree.parse "var a int;").toOption.bind fun t =>
      t.toNode.toOption.map soleVar) = some ["a", "int"] := by decide +kernel
  have hrun' : ((SyntaxTree.parse "var a float;").toOption.bind fun t =>
      t.toNode.toOption.map soleVar) = some ["a", "float"] := by decide +kernel
  obtain ⟨t, n, ht, hn, h⟩ := SyntaxTree.exists_built hrun
  obtain ⟨t', n', ht', hn', h'⟩ := SyntaxTree.exists_built hrun'
  obtain rfl : n = .program [.var "a" .intType .none] := by
    unfold soleVar at h
    split at h
    · simpa using h
    · simp at h
    · cases h
  obtain rfl : n' = .program [.var "a" .floatType .none] := by
    unfold soleVar at h'
    split at h'
    · simp at h'
    · simpa using h'
    · cases h'
  have h := same_decides (built_of_source ht hn) (built_of_source ht' hn')
  exact ⟨t, t', _, _, ht, hn, ht', hn', by simp, h.2.1.2 rfl⟩

end Node

end MiniGoc
