import Mathlib.Data.List.Forall2
import MiniGoc.Node.OfTree

/-!
# Cells of cells

An index list may be written in one step or in several: a cell of a cell of an array is
a cell of the array.  `Node.merged` puts all index lists of a run into one.

The node of a rule is made from the nodes of its children (`Build.node`).  Children that agree up to
merging, and have the same labels and texts, give nodes that agree up to merging
(`Build.node_agree`).  If one of the two is a fault, the other is the same fault.  There is a lemma
for each way to look at the children, and one case for each rule.
-/

namespace MiniGoc

namespace Node

/-- A cell; the indices of a cell of a cell are put together. -/
def index : Node → List Node → Node
  | cell a is, js => cell a (is ++ js)
  | a, is => cell a is

mutual

/-- The node with all cells of cells merged. -/
def merged : Node → Node
  | none => none
  | bool b => bool b
  | int i => int i
  | float x => float x
  | text s => text s
  | list xs => list (mergedAll xs)
  | pair n v => pair n v.merged
  | program ds => program (mergedAll ds)
  | param n t => param n t.merged
  | var n t i => var n t.merged i.merged
  | const n t i => const n t.merged i.merged
  | func n ps r b => func n (mergedAll ps) r.merged b.merged
  | method n t f => method n t.merged f.merged
  | prototype n ps r => prototype n (mergedAll ps) r.merged
  | intType => intType
  | floatType => floatType
  | boolType => boolType
  | stringType => stringType
  | voidType => voidType
  | arrayType ds e => arrayType (mergedAll ds) e.merged
  | interfaceType n ms => interfaceType n (mergedAll ms)
  | structType n es ms is => structType n (mergedAll es) (mergedAll ms) (mergedAll is)
  | funcType ps r => funcType (mergedAll ps) r.merged
  | checkedFuncType ps r => checkedFuncType (mergedAll ps) r.merged
  | symbol n t => symbol n t.merged
  | block ms => block (mergedAll ms)
  | assign l r => assign l.merged r.merged
  | ifElse c y n => ifElse c.merged y.merged n.merged
  | forBasic c b => forBasic c.merged b.merged
  | forStep i c u b => forStep i.merged c.merged u.merged b.merged
  | forEach i v a b => forEach i.merged v.merged a.merged b.merged
  | breakLoop => breakLoop
  | continueLoop => continueLoop
  | ret e => ret e.merged
  | id n => id n
  | cell a is => index a.merged (mergedAll is)
  | field r n => field r.merged n
  | binary op l r => binary op l.merged r.merged
  | unary op e => unary op e.merged
  | call n as => call n (mergedAll as)
  | methodCall r n as => methodCall r.merged n (mergedAll as)
  | intLit v => intLit v.merged
  | floatLit v => floatLit v.merged
  | stringLit v => stringLit v.merged
  | boolLit v => boolLit v.merged
  | arrayLit ds e v => arrayLit (mergedAll ds) e.merged v.merged
  | structLit n es => structLit n (mergedAll es)
  | nilLit => nilLit

/-- Nodes with all cells of cells merged. -/
def mergedAll : List Node → List Node
  | [] => []
  | x :: xs => x.merged :: mergedAll xs

end

attribute [local simp] merged mergedAll

@[simp] theorem mergedAll_eq (xs : List Node) : mergedAll xs = xs.map merged := by
  induction xs with
  | nil => rw [mergedAll, List.map_nil]
  | cons x xs ih => rw [mergedAll, ih, List.map_cons]

theorem index_append (a : Node) (is js : List Node) :
    index (index a is) js = index a (is ++ js) := by
  cases a <;> simp [index]

theorem exists_merged_cell (a : Node) (is : List Node) :
    ∃ b js, merged (cell a is) = cell b js := by
  rw [merged]
  cases a.merged <;> exact ⟨_, _, rfl⟩

end Node

namespace Build

open Node (merged)

variable {α β γ δ : Type}

/-! ## Agreement -/

/-- Two runs that fail alike, or give the same up to `f`. -/
def Agree (f : α → γ) (x y : Except Fault α) : Prop := x.map f = y.map f

theorem Agree.ok {f : α → γ} {a b : α} (h : f a = f b) : Agree f (.ok a) (.ok b) :=
  congrArg Except.ok h

theorem Agree.pure {f : α → γ} {a b : α} (h : f a = f b) :
    Agree f (Pure.pure a) (Pure.pure b) := .ok h

theorem Agree.bind {f : α → γ} {g : β → δ} {x y : Except Fault α} {k l : α → Except Fault β}
    (h : Agree f x y) (hkl : ∀ a b, f a = f b → Agree g (k a) (l b)) :
    Agree g (x >>= k) (y >>= l) := by
  cases x with
  | error e =>
    cases y with
    | error e' => cases h; rfl
    | ok b => cases h
  | ok a =>
    cases y with
    | error e => cases h
    | ok b => exact hkl a b (Except.ok.inj h)

theorem Agree.bind_same {g : β → δ} {x : Except Fault α} {k l : α → Except Fault β}
    (hkl : ∀ a, Agree g (k a) (l a)) : Agree g (x >>= k) (x >>= l) :=
  Agree.bind (f := id) rfl fun a b hab => by
    obtain rfl : a = b := hab
    exact hkl a

/-- A child with the same label, the same text, and the same node up to merging. -/
structure Built.Same (a b : Built) : Prop where
  rule : ∀ r, a.tree.isRule r = b.tree.isRule r
  token : ∀ k, a.tree.isToken k = b.tree.isToken k
  text : a.tree.text = b.tree.text
  node : Agree merged a.node b.node

namespace Parts

/-- Children that are alike one by one. -/
abbrev Same (ps qs : Parts) : Prop := List.Forall₂ Built.Same ps qs

namespace Same

variable {ps qs : Parts}

theorem find? {p : Built → Bool} (h : Same ps qs) (hp : ∀ a b, a.Same b → p a = p b) :
    ps.find? p = none ∧ qs.find? p = none ∨
      ∃ a b, ps.find? p = some a ∧ qs.find? p = some b ∧ a.Same b := by
  induction h with
  | nil => exact .inl ⟨rfl, rfl⟩
  | @cons a b _ _ hab _ ih =>
    rw [List.find?_cons, List.find?_cons, hp a b hab]
    cases p b with
    | true => exact .inr ⟨a, b, rfl, rfl, hab⟩
    | false => exact ih

theorem filter {p : Built → Bool} (h : Same ps qs) (hp : ∀ a b, a.Same b → p a = p b) :
    Same (ps.filter p) (qs.filter p) := by
  induction h with
  | nil => exact .nil
  | @cons a b _ _ hab _ ih =>
    rw [List.filter_cons, List.filter_cons, hp a b hab]
    cases p b with
    | true => exact .cons hab ih
    | false => exact ih

theorem mapM_node (h : Same ps qs) :
    Agree (List.map merged) (ps.mapM Built.node) (qs.mapM Built.node) := by
  induction h with
  | nil => rfl
  | cons hab _ ih =>
    rw [List.mapM_cons, List.mapM_cons]
    exact hab.node.bind fun a b hab => ih.bind fun as bs has => .pure (by simp [hab, has])

theorem map_text (h : Same ps qs) :
    ps.map (fun b => b.tree.text) = qs.map (fun b => b.tree.text) := by
  induction h with
  | nil => rfl
  | cons hab _ ih => rw [List.map_cons, List.map_cons, hab.text, ih]

theorem child? (h : Same ps qs) (r : Rule) :
    ps.child? r = none ∧ qs.child? r = none ∨
      ∃ a b, ps.child? r = some a ∧ qs.child? r = some b ∧ a.Same b :=
  h.find? fun _ _ hab => hab.rule r

theorem token? (h : Same ps qs) (k : TokenKind) :
    ps.token? k = none ∧ qs.token? k = none ∨
      ∃ s t, ps.token? k = some s ∧ qs.token? k = some t ∧ s.text = t.text := by
  obtain ⟨hp, hq⟩ | ⟨a, b, hp, hq, hab⟩ :=
    h.find? (p := fun b => b.tree.isToken k) fun _ _ hab => hab.token k
  · exact .inl ⟨by simp [Parts.token?, hp], by simp [Parts.token?, hq]⟩
  · exact .inr ⟨a.tree, b.tree, by simp [Parts.token?, hp], by simp [Parts.token?, hq], hab.text⟩

theorem isSome_token? (h : Same ps qs) (k : TokenKind) :
    (ps.token? k).isSome = (qs.token? k).isSome := by
  obtain ⟨hp, hq⟩ | ⟨s, t, hp, hq, -⟩ := h.token? k <;> rw [hp, hq]
  rfl

theorem texts (h : Same ps qs) (k : TokenKind) : ps.texts k = qs.texts k :=
  (h.filter fun _ _ hab => hab.token k).map_text

theorem has (h : Same ps qs) (r : Rule) : ps.has r = qs.has r := by
  unfold Parts.has
  obtain ⟨hp, hq⟩ | ⟨a, b, hp, hq, -⟩ := h.child? r <;> rw [hp, hq]
  rfl

theorem get (h : Same ps qs) (r : Rule) : Agree merged (ps.get r) (qs.get r) := by
  unfold Parts.get
  obtain ⟨hp, hq⟩ | ⟨a, b, hp, hq, hab⟩ := h.child? r <;> rw [hp, hq]
  · rfl
  · exact hab.node

theorem getOr (h : Same ps qs) (r : Rule) (other : Node) :
    Agree merged (ps.getOr r other) (qs.getOr r other) := by
  unfold Parts.getOr
  obtain ⟨hp, hq⟩ | ⟨a, b, hp, hq, hab⟩ := h.child? r <;> rw [hp, hq]
  · rfl
  · exact hab.node

theorem getAll (h : Same ps qs) (r : Rule) :
    Agree (List.map merged) (ps.getAll r) (qs.getAll r) :=
  (h.filter fun _ _ hab => hab.rule r).mapM_node

theorem first (h : Same ps qs) : Agree merged ps.first qs.first := by
  cases h with
  | nil => rfl
  | cons hab _ => exact hab.node

theorem firstText (h : Same ps qs) : ps.firstText = qs.firstText := by
  cases h with
  | nil => rfl
  | cons hab _ => exact congrArg Except.ok hab.text

theorem operator? (h : Same ps qs) (r : Rule) : operator? ps r = operator? qs r := by
  unfold Build.operator?
  obtain ⟨hp, hq⟩ | ⟨a, b, hp, hq, hab⟩ := h.child? r <;> rw [hp, hq]
  exact congrArg some hab.text

theorem tokenOperator? (h : Same ps qs) (k : TokenKind) :
    tokenOperator? ps k = tokenOperator? qs k := by
  unfold Build.tokenOperator?
  obtain ⟨hp, hq⟩ | ⟨s, t, hp, hq, hst⟩ := h.token? k <;> rw [hp, hq]
  exact congrArg some hst

theorem ruleText (h : Same ps qs) (r : Rule) : ps.ruleText r = qs.ruleText r := by
  unfold Parts.ruleText
  obtain ⟨hp, hq⟩ | ⟨a, b, hp, hq, hab⟩ := h.child? r <;> rw [hp, hq]
  exact congrArg Except.ok hab.text

theorem text (h : Same ps qs) (k : TokenKind) : ps.text k = qs.text k := by
  unfold Parts.text
  obtain ⟨hp, hq⟩ | ⟨s, t, hp, hq, hst⟩ := h.token? k <;> rw [hp, hq]
  exact congrArg Except.ok hst

theorem textAt (h : Same ps qs) (k : TokenKind) (i : Nat) : ps.textAt k i = qs.textAt k i := by
  rw [Parts.textAt, Parts.textAt, h.texts k]

end Same

end Parts

open Parts

/-! ## Nodes looked at by their kind -/

variable {ps qs : Parts} {a b : Node}

theorem items_agree (h : a.merged = b.merged) : Agree (List.map merged) (items a) (items b) := by
  have hmerged (x : Node) : (items x).map (List.map merged) = items x.merged := by
    cases x with
    | cell c is =>
      obtain ⟨d, js, hd⟩ := Node.exists_merged_cell c is
      simp [hd, items, Except.map]
    | _ => simp [merged, items, Except.map]
  rw [Agree, hmerged, hmerged, h]

theorem mapM_items_agree {as bs : List Node} (h : as.map merged = bs.map merged) :
    Agree (List.map (List.map merged)) (as.mapM items) (bs.mapM items) := by
  induction as generalizing bs with
  | nil =>
    obtain rfl := List.map_eq_nil_iff.1 h.symm
    rfl
  | cons a as ih =>
    obtain ⟨b, bs, rfl, hab, has⟩ := List.map_eq_cons_iff.1 h.symm
    rw [List.mapM_cons, List.mapM_cons]
    exact (items_agree hab.symm).bind fun _ _ hx => (ih has.symm).bind fun _ _ hxs =>
      .pure (by simp [hx, hxs])

theorem callee_agree (h : a.merged = b.merged) :
    Agree (Prod.map id (List.map merged)) (callee a) (callee b) := by
  have hmerged (x : Node) :
      (callee x).map (Prod.map id (List.map merged)) = callee x.merged := by
    cases x with
    | cell c is =>
      obtain ⟨d, js, hd⟩ := Node.exists_merged_cell c is
      simp [hd, callee, Except.map]
    | _ => simp [merged, callee, Except.map]
  rw [Agree, hmerged, hmerged, h]

theorem arrayParts_agree (h : a.merged = b.merged) :
    Agree (Prod.map (List.map merged) merged) (arrayParts a) (arrayParts b) := by
  have hmerged (x : Node) :
      (arrayParts x).map (Prod.map (List.map merged) merged) = arrayParts x.merged := by
    cases x with
    | cell c is =>
      obtain ⟨d, js, hd⟩ := Node.exists_merged_cell c is
      simp [hd, arrayParts, Except.map]
    | _ => simp [merged, arrayParts, Except.map]
  rw [Agree, hmerged, hmerged, h]

theorem conditional_agree {as bs : List Node} (h : as.map merged = bs.map merged)
    (hno : a.merged = b.merged) : Agree merged (conditional as a) (conditional bs b) := by
  have hmerged (xs : List Node) (x : Node) :
      (conditional xs x).map merged = conditional (xs.map merged) x.merged := by
    induction xs generalizing x with
    | nil => rfl
    | cons y ys ih =>
      cases y with
      | ifElse c t e => simp [merged, conditional, ih]
      | cell c is =>
        obtain ⟨d, js, hd⟩ := Node.exists_merged_cell c is
        simp [hd, conditional, Except.map]
      | _ => simp [merged, conditional, Except.map]
  rw [Agree, hmerged, hmerged, h, hno]

theorem paramTypes_agree {as bs : List Node} (h : as.map merged = bs.map merged) :
    Agree (List.map merged) (paramTypes as) (paramTypes bs) := by
  have hmerged (xs : List Node) :
      (paramTypes xs).map (List.map merged) = paramTypes (xs.map merged) := by
    induction xs with
    | nil => rfl
    | cons y ys ih =>
      cases y with
      | param n t =>
        simp only [List.map_cons, merged, paramTypes, ← ih]
        cases paramTypes ys <;> rfl
      | cell c is =>
        obtain ⟨d, js, hd⟩ := Node.exists_merged_cell c is
        simp [hd, paramTypes, Except.map]
      | _ => simp [merged, paramTypes, Except.map]
  rw [Agree, hmerged, hmerged, h]

theorem assignment_agree {c d : Node} (hab : a.merged = b.merged) (hcd : c.merged = d.merged)
    (op : String) : Agree merged (assignment a c op) (assignment b d op) := by
  unfold assignment
  split
  · exact .ok (by simp [merged, hab, hcd])
  · split
    · exact .ok (by simp [merged, hab, hcd])
    · rfl

theorem params_agree {x y : Except Fault Node} (h : Agree merged x y) (ns : List String) :
    Agree (List.map merged) (params ns x) (params ns y) := by
  induction ns with
  | nil => rfl
  | cons n ns ih =>
    exact h.bind fun a b hab => ih.bind fun as bs has => .pure (by simp [merged, hab, has])

theorem literal?_eq (h : Same ps qs) (number decimal : String → Except Fault Node) :
    literal? ps number decimal = literal? qs number decimal := by
  unfold literal?
  obtain ⟨hp, hq⟩ | ⟨s, t, hp, hq, hst⟩ := h.token? .intLit <;> rw [hp, hq]
  case inr => simp only [hst]
  obtain ⟨hp, hq⟩ | ⟨s, t, hp, hq, hst⟩ := h.token? .floatLit <;> rw [hp, hq]
  case inr => simp only [hst]
  obtain ⟨hp, hq⟩ | ⟨s, t, hp, hq, hst⟩ := h.token? .stringLit <;> rw [hp, hq]
  case inr => simp only [hst]
  obtain ⟨hp, hq⟩ | ⟨s, t, hp, hq, hst⟩ := h.token? .boolLit <;> rw [hp, hq]
  case inr => simp only [hst]
  obtain ⟨hp, hq⟩ | ⟨s, t, hp, hq, hst⟩ := h.token? .nilLit <;> rw [hp, hq]
  obtain ⟨hp, hq⟩ | ⟨s, t, hp, hq, hst⟩ := h.token? .ident <;> rw [hp, hq]
  simp only [hst]

theorem level_agree (h : Same ps qs) (op : Option String) (same next : Rule) :
    Agree merged (level ps op same next) (level qs op same next) := by
  cases op with
  | none => exact h.get next
  | some op =>
    exact (h.get same).bind fun _ _ hl => (h.get next).bind fun _ _ hr =>
      .pure (by simp [merged, hl, hr])

theorem heading_agree (h : Same ps qs) : Agree (List.map merged) (heading ps) (heading qs) :=
  (h.getOr _ _).bind fun _ _ hab => items_agree hab

theorem function_agree (h : Same ps qs) (name : String) :
    Agree merged (function ps name) (function qs name) :=
  (heading_agree h).bind fun _ _ hparams => (h.getOr _ _).bind fun _ _ hresult =>
    (h.get _).bind fun _ _ hbody => .pure (by simp [merged, hparams, hresult, hbody])

theorem initialization_agree (h : Same ps qs) :
    Agree merged (node .initialization ps) (node .initialization qs) := by
  simp only [node]
  rw [h.has, h.text]
  split
  · exact h.get _
  · exact .bind_same fun _ => (h.getOr _ _).bind fun _ _ ht => (h.get _).bind fun _ _ hi =>
      .pure (by simp [merged, ht, hi])

theorem arrayType_agree (h : Same ps qs) :
    Agree merged (node .arrayType ps) (node .arrayType qs) := by
  simp only [node]
  rw [h.has, h.has, h.text]
  split
  · exact (h.get _).bind fun _ _ hd => (h.get _).bind fun _ _ ha => (arrayParts_agree ha).bind
      fun _ _ hp => .pure (by simp_all [merged, Prod.ext_iff])
  · refine (h.get _).bind fun _ _ hd => ?_
    split
    · exact (h.get _).bind fun _ _ he => .pure (by simp [merged, hd, he])
    · exact .bind_same fun _ => .pure (by simp [merged, hd])

theorem arrayAccess_agree (h : Same ps qs) :
    Agree merged (node .arrayAccess ps) (node .arrayAccess qs) := by
  simp only [node]
  rw [h.has]
  split
  · exact (h.get _).bind fun _ _ ha => (h.getAll _).bind fun _ _ his =>
      .pure (by simp [merged, ha, his])
  obtain ⟨hp, hq⟩ | ⟨s, t, hp, hq, hst⟩ := h.token? .ident <;> rw [hp, hq]
  · exact (h.get _).bind fun _ _ hf => (callee_agree hf).bind fun _ _ hc =>
      (h.get _).bind fun _ _ hr => (h.getAll _).bind fun _ _ his =>
        .pure (by simp_all [merged, Prod.ext_iff])
  · exact (h.get _).bind fun _ _ hr => (h.getAll _).bind fun _ _ his =>
      .pure (by simp [merged, hr, his, hst])

theorem chain_agree (h : Same ps qs) :
    Agree merged (node .chain ps) (node .chain qs) := by
  simp only [node]
  rw [h.has, h.has]
  split
  · exact h.get _
  obtain ⟨hp, hq⟩ | ⟨s, t, hp, hq, hst⟩ := h.token? .ident <;> rw [hp, hq]
  · dsimp only
    split
    · exact (h.get _).bind fun _ _ hc => (h.getAll _).bind fun _ _ his =>
        .pure (by simp [merged, hc, his])
    · exact (h.get _).bind fun _ _ hr => (h.get _).bind fun _ _ hf => (callee_agree hf).bind
        fun _ _ hc => .pure (by simp_all [merged, Prod.ext_iff])
  · exact (h.get _).bind fun _ _ hc => .pure (by simp [merged, hc, hst])

/-- Children that are alike give nodes that agree up to merging. -/
theorem node_agree (h : Same ps qs) (r : Rule) : Agree merged (node r ps) (node r qs) := by
  cases r
  case initialization => exact initialization_agree h
  case arrayType => exact arrayType_agree h
  case arrayAccess => exact arrayAccess_agree h
  case chain => exact chain_agree h
  all_goals simp only [node]
  case program | block | elseIfList | argumentList | arrayEleList | structEleList =>
    exact (h.getAll _).bind fun _ _ hxs => .pure (by simp [merged, hxs])
  case decl | stmt | forStmt | callStmt | expr6 => exact h.first
  case elseStmt | subExpr | arrayAccessBox => exact h.get _
  case breakStmt | continueStmt => rfl
  case highOperator | lowOperator | relationalOperator | assignOperator =>
    rw [h.firstText]
    rfl
  case expr | expr1 =>
    rw [h.tokenOperator?]
    exact level_agree h _ _ _
  case expr2 | expr3 | expr4 =>
    rw [h.operator?]
    exact level_agree h _ _ _
  case varDecl =>
    rw [h.text]
    exact .bind_same fun _ => (h.getOr _ _).bind fun _ _ ht => (h.getOr _ _).bind fun _ _ hi =>
      .pure (by simp [merged, ht, hi])
  case constDecl =>
    rw [h.text]
    exact .bind_same fun _ => (h.get _).bind fun _ _ hi => .pure (by simp [merged, hi])
  case assignStmt =>
    rw [h.ruleText]
    exact (h.get _).bind fun _ _ hl => (h.get _).bind fun _ _ he =>
      .bind_same fun op => assignment_agree hl he op
  case update =>
    rw [h.text, h.ruleText]
    exact .bind_same fun _ => (h.get _).bind fun _ _ he =>
      .bind_same fun op => assignment_agree rfl he op
  case lhs | typ =>
    obtain ⟨hp, hq⟩ | ⟨s, t, hp, hq, hst⟩ := h.token? .ident <;> rw [hp, hq]
    · exact h.first
    · exact .ok (by simp [merged, hst])
  case ifStmt =>
    exact (h.get _).bind fun _ _ hc => (h.get _).bind fun _ _ hl => (items_agree hl).bind
      fun _ _ hcs => (h.getOr _ _).bind fun _ _ hno => conditional_agree (by simp [hc, hcs]) hno
  case onlyIf | basicFor =>
    exact (h.get _).bind fun _ _ he => (h.get _).bind fun _ _ hb => .pure (by simp [merged, he, hb])
  case forInitial =>
    exact (h.get _).bind fun _ _ hi => (h.get _).bind fun _ _ he => (h.get _).bind fun _ _ hu =>
      (h.get _).bind fun _ _ hb => .pure (by simp [merged, hi, he, hu, hb])
  case forRange =>
    rw [h.textAt, h.textAt]
    exact .bind_same fun _ => .bind_same fun _ => (h.get _).bind fun _ _ he =>
      (h.get _).bind fun _ _ hb => .pure (by simp [merged, he, hb])
  case returnStmt => exact (h.getOr _ _).bind fun _ _ he => .pure (by simp [merged, he])
  case funcDecl =>
    rw [h.text]
    exact .bind_same fun name => function_agree h name
  case methodDecl =>
    rw [h.textAt, h.textAt, h.textAt]
    exact .bind_same fun name => (function_agree h name).bind fun _ _ hf => .bind_same fun _ =>
      .bind_same fun _ => .pure (by simp [merged, hf])
  case funcCall =>
    rw [h.text]
    exact .bind_same fun _ => (h.getOr _ _).bind fun _ _ hl => (items_agree hl).bind
      fun _ _ has => .pure (by simp [merged, has])
  case methodCall =>
    exact (h.get _).bind fun _ _ hf => (callee_agree hf).bind fun _ _ hc =>
      (h.get _).bind fun _ _ hr => .pure (by simp_all [merged, Prod.ext_iff])
  case primitiveType => simp only [h.isSome_token?, Agree]
  case expr5 =>
    rw [h.has, h.firstText]
    split
    · exact .bind_same fun _ => (h.get _).bind fun _ _ he => .pure (by simp [merged, he])
    · exact h.get _
  case operand | arrayEle =>
    rw [literal?_eq h]
    split
    · rfl
    · exact h.first
  case arrayLiteralBox =>
    rw [h.text]
    obtain ⟨hp, hq⟩ | ⟨s, t, hp, hq, hst⟩ := h.token? .intLit <;> rw [hp, hq]
    · rfl
    · exact .ok (by simp [merged, hst])
  case arrayLiteral =>
    exact (h.get _).bind fun _ _ ha => (arrayParts_agree ha).bind fun _ _ hp =>
      (h.get _).bind fun _ _ hv => .pure (by simp_all [merged, Prod.ext_iff])
  case shortArrayLiteral => exact (h.get _).bind fun _ _ hv => .pure (by simp [merged, hv])
  case structDecl | interfaceDecl =>
    rw [h.text]
    exact .bind_same fun _ => (h.getAll _).bind fun _ _ hxs => .pure (by simp [merged, hxs])
  case structField | structEle =>
    rw [h.text]
    exact .bind_same fun _ => (h.get _).bind fun _ _ hx => .pure (by simp [merged, hx])
  case structLiteral =>
    rw [h.text]
    exact .bind_same fun _ => (h.getOr _ _).bind fun _ _ hl => (items_agree hl).bind
      fun _ _ hes => .pure (by simp [merged, hes])
  case structAccess =>
    rw [h.text]
    exact (h.get _).bind fun _ _ hc => .bind_same fun _ => .pure (by simp [merged, hc])
  case interfaceMethod =>
    rw [h.text]
    exact (heading_agree h).bind fun _ _ hh => (paramTypes_agree hh).bind fun _ _ ht =>
      .bind_same fun _ => (h.getOr _ _).bind fun _ _ hr => .pure (by simp [merged, ht, hr])
  case paramList =>
    exact (h.getAll _).bind fun _ _ hxs => (mapM_items_agree hxs).bind fun _ _ hgs =>
      .pure (by simp [merged, List.map_flatten, hgs])
  case paramDecl =>
    rw [h.texts]
    exact (params_agree (h.get _) _).bind fun _ _ hxs => .pure (by simp [merged, hxs])

/-- The node of a chain that ends in index boxes. -/
theorem node_chain_boxes {c b : Built} {bs : Parts} (hc : c.tree.isRule .chain = true)
    (hbs : ∀ x ∈ b :: bs, x.tree.isRule .arrayAccessBox = true) :
    node .chain (c :: b :: bs) =
      c.node >>= fun x => (b :: bs).mapM Built.node >>= fun is => pure (.cell x is) := by
  have hrule {t : SyntaxTree} {r s : Rule} (ht : t.isRule r = true) (hrs : r ≠ s) :
      t.isRule s = false := by
    cases t <;> simp_all [Tree.isRule]
  have htoken {t : SyntaxTree} {r : Rule} {k : TokenKind} (ht : t.isRule r = true) :
      t.isToken k = false := by
    cases t <;> simp_all [Tree.isRule, Tree.isToken]
  have hb := hbs b (by simp)
  have hoperand : has (c :: b :: bs) .operand = false := by
    have : Parts.child? (c :: b :: bs) .operand = none := by
      refine List.find?_eq_none.2 (List.forall_mem_cons.2 ⟨?_, fun x hx => ?_⟩)
      · simp [hrule hc]
      · simp [hrule (hbs x hx)]
    rw [has, this]
    rfl
  have hident : Parts.token? (c :: b :: bs) .ident = none := by
    refine Option.map_eq_none_iff.2 (List.find?_eq_none.2
      (List.forall_mem_cons.2 ⟨?_, fun x hx => ?_⟩))
    · simp [htoken hc]
    · simp [htoken (hbs x hx)]
  have hbox : has (c :: b :: bs) .arrayAccessBox = true := by
    simp [has, Parts.child?, hb, hrule hc]
  have hchain : get (c :: b :: bs) .chain = c.node := by
    simp [Parts.get, Parts.child?, hc]
  have hboxes : getAll (c :: b :: bs) .arrayAccessBox = (b :: bs).mapM Built.node := by
    rw [getAll, List.filter_cons_of_neg (by simp [hrule hc]), List.filter_eq_self.2 hbs]
  simp [node, hoperand, hident, hbox, hchain, hboxes]

end Build

end MiniGoc
