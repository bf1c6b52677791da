import MiniGoc.Proofs.Places

/-!
# Levels of expressions

`SyntaxTree.Phrase` says that tokens are a phrase of a rule and gives the node of the phrase.  It
knows the tokens as they are written and leaves the tree out.  Phrases are put together
by one lemma for each way to form an expression, and a phrase of a program is what the
parser reads (`SyntaxTree.Phrase.parse`).

The rules of binary operators are levels (`Rule.level`).  An expression of a level is one of each
level below (`SyntaxTree.Phrase.mono`), and an operator takes an expression of its own level on the
left and one of the next level on the right (`SyntaxTree.Phrase.binary`).
-/

namespace MiniGoc

open Grammar (miniGo RulePart)

/-- The rule of the expressions with operators of a level or above. -/
def Rule.level : Nat → Rule
  | 0 => .expr
  | 1 => .expr1
  | 2 => .expr2
  | 3 => .expr3
  | 4 => .expr4
  | _ => .expr5

namespace TokenKind

/-- The level of a binary operator: `||`, `&&`, the relations, `+` and `-`, and the others. -/
def level : TokenKind → Nat
  | or => 0
  | and => 1
  | add | sub => 3
  | multiply | divide | remain => 4
  | _ => 2

theorem level_le {k : TokenKind} (h : k ∈ Build.binaryKinds) : k.level ≤ 4 := by
  have : ∀ k ∈ Build.binaryKinds, k.level ≤ 4 := by decide
  exact this k h

end TokenKind

namespace SyntaxTree

open Build (level tokenOperator? operator?)

/-- A derivation in which no run of boxes is split. -/
def Settled (c : SyntaxTree) : Prop := c.Derives miniGo ∧ c.grouped = c

@[simp] theorem settled_leaf (t : Token TokenKind) : Settled (.leaf t) := ⟨.leaf t, by simp⟩

theorem settled_node {r : Rule} {a : List RulePart} {cs : Forest}
    (ha : a ∈ (miniGo.alternatives r).alts) (hw : Part.SpellsAll a (cs.map Tree.label))
    (hr : r ≠ .chain) (hcs : ∀ c ∈ cs, Settled c) : Settled (.node r cs) := by
  refine ⟨.node ha hw fun c hc => (hcs c hc).1, ?_⟩
  rw [Tree.grouped_node hr, groupedList_eq, List.map_congr_left fun c hc => (hcs c hc).2,
    List.map_id']

theorem Settled.child {r : Rule} {cs : Forest} (h : Settled (.node r cs)) (hr : r ≠ .chain) :
    ∀ c ∈ cs, Settled c := by
  obtain ⟨hd, hgrouped⟩ := h
  rw [Tree.grouped_node hr, groupedList_eq] at hgrouped
  have hcs : cs.map Tree.grouped = cs.map id := by simpa using hgrouped
  exact fun c hmem => ⟨hd.child hmem, List.map_inj_left.1 hcs c hmem⟩

/-- The tokens are written as a phrase of the rule, which has the node. -/
def Phrase (r : Rule) (ts : List (TokenKind × String)) (x : Except Fault Node) : Prop :=
  ∃ cs, Settled (.node r cs) ∧ (Tree.leavesList cs).map Token.shown = ts ∧
    toNode (.node r cs) = x

namespace Phrase

variable {r s : Rule} {ts us : List (TokenKind × String)} {x y : Except Fault Node}

theorem parse {source : String} (h : Phrase .program ts x)
    (hts : (Tokens.ofSource source).tokens.map Token.shown = ts) :
    ∃ t, SyntaxTree.parse source = .ok t ∧ t.toNode = x := by
  obtain ⟨cs, ⟨hd, hgrouped⟩, rfl, rfl⟩ := h
  exact parse_of_shown hd (by simp [Tree.isRule]) hgrouped (by simpa using hts)

theorem unit (h : Phrase s ts x) (ha : [.rule s] ∈ (miniGo.alternatives r).alts)
    (hr : r ≠ .chain) (hn : ∀ cs, Build.node r (parts [.node s cs]) = toNode (.node s cs)) :
    Phrase r ts x := by
  obtain ⟨cs, hcs, rfl, rfl⟩ := h
  exact ⟨[.node s cs], settled_node ha (.cons .rule .nil) hr (by simpa using hcs), by simp,
    by rw [toNode, hn]⟩

/-! ## Binary operators -/

theorem lower (q : Nat) (h : Phrase (.level (q + 1)) ts x) : Phrase (.level q) ts x := by
  match q with
  | 0 =>
    exact h.unit (r := .expr) (s := .expr1) (.tail _ (.head _)) (by decide)
      (by simp [Build.node, level, tokenOperator?, Build.Parts.get])
  | 1 =>
    exact h.unit (r := .expr1) (s := .expr2) (.tail _ (.head _)) (by decide)
      (by simp [Build.node, level, tokenOperator?, Build.Parts.get])
  | 2 =>
    exact h.unit (r := .expr2) (s := .expr3) (.tail _ (.head _)) (by decide)
      (by simp [Build.node, level, operator?, Build.Parts.get])
  | 3 =>
    exact h.unit (r := .expr3) (s := .expr4) (.tail _ (.head _)) (by decide)
      (by simp [Build.node, level, operator?, Build.Parts.get])
  | 4 =>
    exact h.unit (r := .expr4) (s := .expr5) (.tail _ (.head _)) (by decide)
      (by simp [Build.node, level, operator?, Build.Parts.get])
  | _ + 5 => exact h

theorem mono {p q : Nat} (h : Phrase (.level q) ts x) (hpq : p ≤ q) : Phrase (.level p) ts x := by
  obtain ⟨n, rfl⟩ := Nat.exists_eq_add_of_le hpq
  induction n with
  | zero => exact h
  | succ n ih => exact ih (lower (p + n) h) (Nat.le_add_right p n)

theorem tokenLevel {k : TokenKind} (hl : Phrase r ts x) (hr : Phrase s us y)
    (ha : [.rule r, .token k, .rule s] ∈ (miniGo.alternatives r).alts) (hrs : r ≠ s)
    (hchain : r ≠ .chain) (hn : ∀ ps, Build.node r ps = level ps (tokenOperator? ps k) r s)
    (text : String) :
    Phrase r (ts ++ (k, text) :: us) (do return .binary text (← x) (← y)) := by
  obtain ⟨ls, hls, rfl, rfl⟩ := hl
  obtain ⟨rs, hrs, rfl, rfl⟩ := hr
  have hsettled : Settled (.node r [.node r ls, .leaf ⟨k, text, {}⟩, .node s rs]) :=
    settled_node ha (.cons .rule (.cons .token (.cons .rule .nil))) hchain (by simp [hls, hrs])
  refine ⟨_, hsettled, by simp [Token.shown], ?_⟩
  rw [toNode, hn]
  simp [level, tokenOperator?, Build.Parts.get, *]

theorem ruleLevel {k : TokenKind} {q : Rule} {ks : List TokenKind} (hl : Phrase r ts x)
    (hr : Phrase s us y) (ha : [.rule r, .rule q, .rule s] ∈ (miniGo.alternatives r).alts)
    (hq : miniGo.alternatives q = Grammar.one [.anyOf ks]) (hk : k ∈ ks)
    (hne : r ≠ s ∧ r ≠ q ∧ q ≠ s) (hchain : r ≠ .chain ∧ q ≠ .chain)
    (hn : ∀ ps, Build.node r ps = level ps (operator? ps q) r s) (text : String) :
    Phrase r (ts ++ (k, text) :: us) (do return .binary text (← x) (← y)) := by
  obtain ⟨ls, hls, rfl, rfl⟩ := hl
  obtain ⟨rs, hrs, rfl, rfl⟩ := hr
  have hop : Settled (.node q [.leaf ⟨k, text, {}⟩]) :=
    settled_node (by rw [hq]; exact .head _) (.cons (.anyOf hk) .nil) hchain.2 (by simp)
  have hsettled : Settled (.node r [.node r ls, .node q [.leaf ⟨k, text, {}⟩], .node s rs]) :=
    settled_node ha (.cons .rule (.cons .rule (.cons .rule .nil))) hchain.1
      (by simp [hls, hop, hrs])
  refine ⟨_, hsettled, by simp [Token.shown], ?_⟩
  rw [toNode, hn]
  simp [level, operator?, Build.Parts.get, Tree.text, String.join, *]

theorem binary {k : TokenKind} (hk : k ∈ Build.binaryKinds) (hl : Phrase (.level k.level) ts x)
    (hr : Phrase (.level (k.level + 1)) us y) (text : String) :
    Phrase (.level k.level) (ts ++ (k, text) :: us) (do return .binary text (← x) (← y)) := by
  simp only [Build.binaryKinds, Grammar.relationKinds, List.cons_append, List.nil_append,
    List.mem_cons, List.not_mem_nil, or_false] at hk
  obtain rfl | rfl | rfl | rfl | rfl | rfl | rfl | rfl | rfl | rfl | rfl | rfl | rfl := hk
  case inl => exact hl.tokenLevel hr (.head _) (by decide) (by decide) (fun _ => rfl) text
  case inr.inl => exact hl.tokenLevel hr (.head _) (by decide) (by decide) (fun _ => rfl) text
  all_goals
    exact hl.ruleLevel hr (.head _) rfl (by decide) (by decide) (by decide) (fun _ => rfl) text

/-! ## Operands -/

theorem unary {k : TokenKind} (hk : k ∈ [.not, .sub]) (h : Phrase .expr5 ts x) (text : String) :
    Phrase .expr5 ((k, text) :: ts) (do return .unary text (← x)) := by
  obtain ⟨es, hes, rfl, rfl⟩ := h
  have hsettled : Settled (.node .expr5 [.leaf ⟨k, text, {}⟩, .node .expr5 es]) :=
    settled_node (.head _) (.cons (.anyOf hk) (.cons .rule .nil)) (by decide) (by simp [hes])
  refine ⟨_, hsettled, by simp [Token.shown], ?_⟩
  simp [toNode, Build.node, Build.Parts.has, Build.Parts.get]

theorem of_expr6 (h : Phrase .expr6 ts x) : Phrase .expr5 ts x :=
  h.unit (.tail _ (.head _)) (by decide) (by simp [Build.node, Build.Parts.has, Build.Parts.get])

theorem of_operand (h : Phrase .operand ts x) : Phrase .expr6 ts x :=
  h.unit (.tail _ (.tail _ (.tail _ (.head _)))) (by decide) (by simp [Build.node])

theorem name (text : String) : Phrase .operand [(.ident, text)] (.ok (.id text)) := by
  have hsettled : Settled (.node .operand [.leaf ⟨.ident, text, {}⟩]) :=
    settled_node (a := [.token .ident]) (by simp [miniGo, Grammar.miniGoAlternatives])
      (.cons .token .nil) (by decide) (by simp)
  refine ⟨_, hsettled, by simp [Token.shown], ?_⟩
  simp [toNode, Build.node, Build.literal?_name]

theorem paren (h : Phrase .expr ts x) : Phrase .operand
    (TokenKind.openParen.written :: (ts ++ [TokenKind.closeParen.written])) x := by
  obtain ⟨es, hes, rfl, rfl⟩ := h
  have hsettled : Settled (.node .subExpr
      [.leaf ⟨.openParen, "(", {}⟩, .node .expr es, .leaf ⟨.closeParen, ")", {}⟩]) :=
    settled_node (.head _) (.cons .token (.cons .rule (.cons .token .nil))) (by decide)
      (by simp [hes])
  refine unit (s := .subExpr) ⟨_, hsettled, ?_, ?_⟩
    (by simp [miniGo, Grammar.miniGoAlternatives]) (by decide)
    (by simp [Build.node, Build.literal?_node])
  · simp [Token.shown, TokenKind.written, TokenKind.literal?]
  · simp [toNode, Build.node, Build.Parts.get]

end Phrase

end SyntaxTree

end MiniGoc
