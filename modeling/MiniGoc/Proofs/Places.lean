import MiniGoc.Grammar.Accessors
import MiniGoc.Proofs.Forms
import MiniGoc.Proofs.Relexing
import MiniGoc.Proofs.Unambiguity

/-!
# Programs up to places

A rule builds its node from little of its children: their labels, their nodes, and the texts of
those that hold no statements (`Build.Built.seen`).  Children that show the same give the same
node (`SyntaxTree.toNode_congr`).

So places have no part in the node of a tree.  `Tree.unplaced` forgets them, and it commutes with
what is done to trees: with derivations, grouping and nodes.  A derivation can be moved to
other tokens that are written alike (`Tree.exists_placed`), and a source whose tokens are written
as the leaves of a grouped derivation has the node of this derivation (`SyntaxTree.parse_of_shown`).
-/

namespace MiniGoc

open Grammar (miniGo)

/-! ## Labels in alternatives -/

namespace Part

variable {κ ρ : Type} {l : Label κ ρ}

theorem mem_labelsAlts {a : List (Part κ ρ)} {alts : List (List (Part κ ρ))} (ha : a ∈ alts)
    (hl : l ∈ labelsAll a) : l ∈ labelsAlts alts := by
  induction alts with
  | nil => simp at ha
  | cons b alts ih =>
    rw [labelsAlts, List.mem_append]
    rcases List.mem_cons.1 ha with rfl | ha
    · exact .inl hl
    · exact .inr (ih ha)

mutual

theorem Spells.mem_labels {p : Part κ ρ} {w : List (Label κ ρ)} (h : Spells p w) (hl : l ∈ w) :
    l ∈ p.labels := by
  match h with
  | .token => simpa [labels] using hl
  | .anyOf hk =>
    obtain rfl := List.mem_singleton.1 hl
    simpa [labels] using hk
  | .rule => simpa [labels] using hl
  | .choice ha hall =>
    rw [labels]
    exact mem_labelsAlts ha (hall.mem_labels hl)
  | .absent => simp at hl
  | .present hall =>
    rw [labels]
    exact hall.mem_labels hl
  | .none => simp at hl
  | .more hv hrest =>
    rcases List.mem_append.1 hl with hl | hl
    · rw [labels]
      exact hv.mem_labels hl
    · exact hrest.mem_labels hl
  | .some hv hrest =>
    rw [labels]
    rcases List.mem_append.1 hl with hl | hl
    · exact hv.mem_labels hl
    · have := hrest.mem_labels hl
      rwa [labels] at this

theorem SpellsAll.mem_labels {ps : List (Part κ ρ)} {w : List (Label κ ρ)} (h : SpellsAll ps w)
    (hl : l ∈ w) : l ∈ labelsAll ps := by
  match h with
  | .nil => simp at hl
  | .cons hp hps =>
    rw [labelsAll, List.mem_append]
    rcases List.mem_append.1 hl with hl | hl
    · exact .inl (hp.mem_labels hl)
    · exact .inr (hps.mem_labels hl)

end

end Part

variable {r : Rule} {cs : Forest} {c : SyntaxTree}

theorem Tree.Derives.child (h : Tree.Derives miniGo (.node r cs)) (hc : c ∈ cs) :
    c.Derives miniGo := by
  cases h with
  | node _ _ hcs => exact hcs c hc

theorem Tree.Derives.mem_labels (h : Tree.Derives miniGo (.node r cs)) (hc : c ∈ cs) :
    c.label ∈ Part.labelsAlts (miniGo.alternatives r).alts := by
  cases h with
  | node ha hw _ => exact Part.mem_labelsAlts ha (hw.mem_labels (List.mem_map.2 ⟨c, hc, rfl⟩))

/-- The rules of the phrases that can hold an assignment. -/
def Rule.holders : List Rule :=
  [.program, .decl, .stmt, .block, .assignStmt, .ifStmt, .onlyIf, .elseIfList, .elseStmt,
   .forStmt, .basicFor, .forInitial, .initialization, .update, .forRange, .funcDecl, .methodDecl]

theorem holders_closed : ∀ r ∈ Rule.all, r ∉ Rule.holders → ∀ s ∈ Rule.holders,
    .rule s ∉ Part.labelsAlts (miniGo.alternatives r).alts := by
  decide

/-- Whether a tree is a phrase that can hold an assignment. -/
def SyntaxTree.holds (c : SyntaxTree) : Bool := Rule.holders.any fun r => c.isRule r

theorem holders_of_holds (h : Tree.Derives miniGo (.node r cs)) (hc : c ∈ cs)
    (hholds : c.holds = true) : r ∈ Rule.holders := by
  obtain ⟨s, hs, hrule⟩ := List.any_eq_true.1 hholds
  obtain ⟨ds, rfl⟩ := exists_of_isRule hrule
  by_contra hr
  exact holders_closed r (by cases r <;> decide) hr s hs (h.mem_labels hc)

/-! ## What a parent sees -/

/-- What the parent of a tree sees of it.  A phrase that can hold an assignment has no text. -/
def SyntaxTree.seen : SyntaxTree → SyntaxTree
  | .leaf t => .leaf ⟨t.kind, t.text, {}⟩
  | .node r cs =>
    .node r (if r ∈ Rule.holders then [] else [.leaf ⟨.eof, (Tree.node r cs).text, {}⟩])

namespace SyntaxTree

@[simp] theorem isRule_seen (c : SyntaxTree) (r : Rule) : c.seen.isRule r = c.isRule r := by
  cases c <;> rfl

@[simp] theorem isToken_seen (c : SyntaxTree) (k : TokenKind) :
    c.seen.isToken k = c.isToken k := by
  cases c <;> rfl

theorem text_seen {c : SyntaxTree} (h : c.holds = false) : c.seen.text = c.text := by
  cases c with
  | leaf t => simp [seen]
  | node r cs =>
    have hr : r ∉ Rule.holders := fun hr => by
      have := List.any_eq_false.1 h r hr
      simp [Tree.isRule] at this
    simp [seen, hr, Tree.text, String.join]

theorem holds_of_isRule {c : SyntaxTree} {r : Rule} (hr : r ∉ Rule.holders)
    (hc : c.isRule r = true) : c.holds = false := by
  obtain ⟨cs, rfl⟩ := exists_of_isRule hc
  refine List.any_eq_false.2 fun s hs hrule => hr ?_
  obtain rfl : r = s := by simpa [Tree.isRule] using hrule
  exact hs

end SyntaxTree

namespace Build

/-- What a rule sees of a child. -/
def Built.seen (b : Built) : Built := ⟨b.tree.seen, b.node⟩

namespace Parts

variable (ps : Parts) (r : Rule) (k : TokenKind)

theorem child?_seen : child? (ps.map Built.seen) r = (child? ps r).map Built.seen := by
  simp [child?, List.find?_map, Built.seen, Function.comp_def]

theorem token?_seen : token? (ps.map Built.seen) k = (token? ps k).map SyntaxTree.seen := by
  simp [token?, List.find?_map, Built.seen, Function.comp_def]

theorem token?_cases :
    token? ps k = none ∨ ∃ t : Token TokenKind, token? ps k = some (.leaf t) := by
  cases h : token? ps k with
  | none => exact .inl rfl
  | some c =>
    obtain ⟨b, hb, rfl⟩ := Option.map_eq_some_iff.1 h
    have hk : b.tree.isToken k = true := by simpa using List.find?_some hb
    cases ht : b.tree with
    | leaf t => exact .inr ⟨t, rfl⟩
    | node s cs => simp [ht, Tree.isToken] at hk

@[simp] theorem has_seen : has (ps.map Built.seen) r = has ps r := by
  simp [has, child?_seen]

@[simp] theorem get_seen : get (ps.map Built.seen) r = get ps r := by
  rw [get, get, child?_seen]
  cases child? ps r <;> rfl

@[simp] theorem getOr_seen (other : Node) :
    getOr (ps.map Built.seen) r other = getOr ps r other := by
  rw [getOr, getOr, child?_seen]
  cases child? ps r <;> rfl

@[simp] theorem getAll_seen : getAll (ps.map Built.seen) r = getAll ps r := by
  simp [getAll, List.filter_map, Built.seen, Function.comp_def, List.mapM_map]

@[simp] theorem first_seen : first (ps.map Built.seen) = first ps := by
  cases ps <;> rfl

@[simp] theorem texts_seen : texts (ps.map Built.seen) k = texts ps k := by
  have hfilter : (ps.map Built.seen).filter (fun b => b.tree.isToken k) =
      (ps.filter fun b => b.tree.isToken k).map Built.seen := by
    simp [List.filter_map, Built.seen, Function.comp_def]
  rw [texts, texts, hfilter, List.map_map]
  refine List.map_congr_left fun b hb => ?_
  obtain ⟨-, hk⟩ := List.mem_filter.1 hb
  obtain ⟨c, n⟩ := b
  cases c with
  | leaf t => simp [Built.seen, SyntaxTree.seen]
  | node s cs => simp [Tree.isToken] at hk

@[simp] theorem text_seen : text (ps.map Built.seen) k = text ps k := by
  rw [text, text, token?_seen]
  obtain h | ⟨t, h⟩ := token?_cases ps k <;> simp [h, SyntaxTree.seen]

@[simp] theorem textAt_seen (i : Nat) : textAt (ps.map Built.seen) k i = textAt ps k i := by
  rw [textAt, textAt, texts_seen]

@[simp] theorem tokenOperator?_seen :
    tokenOperator? (ps.map Built.seen) k = tokenOperator? ps k := by
  rw [tokenOperator?, tokenOperator?, token?_seen]
  obtain h | ⟨t, h⟩ := token?_cases ps k <;> simp [h, SyntaxTree.seen]

theorem child?_cases (hr : r ∉ Rule.holders) :
    child? ps r = none ∨ ∃ b, child? ps r = some b ∧ b.tree.holds = false := by
  cases h : child? ps r with
  | none => exact .inl rfl
  | some b => exact .inr ⟨b, rfl, SyntaxTree.holds_of_isRule hr (by simpa using List.find?_some h)⟩

theorem operator?_seen (hr : r ∉ Rule.holders) :
    operator? (ps.map Built.seen) r = operator? ps r := by
  rw [operator?, operator?, child?_seen]
  obtain h | ⟨b, h, hb⟩ := child?_cases ps r hr <;> simp [Built.seen, SyntaxTree.text_seen, *]

theorem ruleText_seen (hr : r ∉ Rule.holders) :
    ruleText (ps.map Built.seen) r = ruleText ps r := by
  rw [ruleText, ruleText, child?_seen]
  obtain h | ⟨b, h, hb⟩ := child?_cases ps r hr <;> simp [Built.seen, SyntaxTree.text_seen, *]

theorem literal?_seen (number decimal : String → Except Fault Node) :
    literal? (ps.map Built.seen) number decimal = literal? ps number decimal := by
  simp only [literal?, token?_seen]
  -- The first kind of which there is a token settles it.
  obtain h | ⟨t, h⟩ := token?_cases ps .intLit <;> simp only [h, Option.map]
  case inr => simp [SyntaxTree.seen]
  obtain h | ⟨t, h⟩ := token?_cases ps .floatLit <;> simp only [h]
  case inr => simp [SyntaxTree.seen]
  obtain h | ⟨t, h⟩ := token?_cases ps .stringLit <;> simp only [h]
  case inr => simp [SyntaxTree.seen]
  obtain h | ⟨t, h⟩ := token?_cases ps .boolLit <;> simp only [h]
  case inr => simp [SyntaxTree.seen]
  obtain h | ⟨t, h⟩ := token?_cases ps .nilLit <;> simp only [h]
  obtain h | ⟨t, h⟩ := token?_cases ps .ident <;> simp [h, SyntaxTree.seen]

end Parts

open Parts

theorem node_seen {ps : Parts} {r : Rule}
    (h : r ∈ Rule.holders ∨ ∀ b ∈ ps, b.tree.holds = false) :
    node r (ps.map Built.seen) = node r ps := by
  have hfirst (hr : r ∉ Rule.holders) : firstText (ps.map Built.seen) = firstText ps := by
    cases ps with
    | nil => rfl
    | cons b ps => exact congrArg Except.ok (SyntaxTree.text_seen (h.resolve_left hr b (by simp)))
  cases r
  all_goals simp only [node, level, function, heading, has_seen, get_seen, getOr_seen, getAll_seen,
    first_seen, texts_seen, text_seen, textAt_seen, tokenOperator?_seen]
  case assignStmt | update => rw [ruleText_seen _ _ (by decide)]
  case expr2 | expr3 | expr4 => rw [operator?_seen _ _ (by decide)]
  case expr5 | highOperator | lowOperator | relationalOperator | assignOperator =>
    rw [hfirst (by decide)]
  case operand | arrayEle => rw [literal?_seen]
  case primitiveType => simp only [token?_seen, Option.isSome_map]
  case lhs | typ | arrayAccess | chain =>
    rw [token?_seen]
    obtain h | ⟨t, h⟩ := token?_cases ps .ident <;> simp [h, SyntaxTree.seen]
  case arrayLiteralBox =>
    rw [token?_seen]
    obtain h | ⟨t, h⟩ := token?_cases ps .intLit <;> simp [h, SyntaxTree.seen]

end Build

namespace SyntaxTree

variable {r : Rule} {cs ds : Forest}

/-- What the parent of a tree builds its node from. -/
def view (c : SyntaxTree) : Build.Built := ⟨c.seen, c.toNode⟩

theorem toNode_view (h : Tree.Derives miniGo (.node r cs)) :
    toNode (.node r cs) = Build.node r (cs.map view) := by
  have hparts : (parts cs).map Build.Built.seen = cs.map view := by
    rw [parts_eq, List.map_map]
    rfl
  rw [toNode, ← hparts, Build.node_seen]
  by_cases hr : r ∈ Rule.holders
  · exact .inl hr
  · refine .inr fun b hb => ?_
    obtain ⟨c, hc, rfl⟩ := List.mem_map.1 (parts_eq cs ▸ hb)
    exact Bool.eq_false_iff.2 fun hholds => hr (holders_of_holds h hc hholds)

/-- Children that show the same have parents with the same node. -/
theorem toNode_congr (h : Tree.Derives miniGo (.node r cs)) (h' : Tree.Derives miniGo (.node r ds))
    (hview : cs.map view = ds.map view) : toNode (.node r cs) = toNode (.node r ds) := by
  rw [toNode_view h, toNode_view h', hview]

end SyntaxTree

/-! ## Places -/

namespace Tree

mutual

/-- The tree without places. -/
def unplaced : SyntaxTree → SyntaxTree
  | .leaf t => .leaf ⟨t.kind, t.text, {}⟩
  | .node r cs => .node r (unplacedAll cs)

/-- Trees without places. -/
def unplacedAll : Forest → Forest
  | [] => []
  | c :: cs => c.unplaced :: unplacedAll cs

end

theorem unplacedAll_eq (cs : Forest) : unplacedAll cs = cs.map unplaced := by
  induction cs with
  | nil => rw [unplacedAll, List.map_nil]
  | cons c cs ih => rw [unplacedAll, ih, List.map_cons]

@[simp] theorem unplaced_leaf (t : Token TokenKind) :
    unplaced (.leaf t) = .leaf ⟨t.kind, t.text, {}⟩ := by
  rw [unplaced]

@[simp] theorem unplaced_node (r : Rule) (cs : Forest) :
    unplaced (.node r cs) = .node r (cs.map unplaced) := by
  rw [unplaced, unplacedAll_eq]

@[simp] theorem label_unplaced (t : SyntaxTree) : t.unplaced.label = t.label := by
  cases t <;> simp [label]

@[simp] theorem isRule_unplaced (t : SyntaxTree) (r : Rule) : t.unplaced.isRule r = t.isRule r := by
  cases t <;> simp [isRule]

variable {t d : SyntaxTree}

theorem shown_unplaced (h : t.Derives miniGo) :
    t.unplaced.leaves.map Token.shown = t.leaves.map Token.shown := by
  induction h with
  | leaf t => simp [Token.shown]
  | @node r cs a _ _ _ ih =>
    simp only [unplaced_node, leaves_node, leavesList_eq, List.flatMap_map, List.map_flatMap]
    exact List.flatMap_congr ih

theorem derives_unplaced (h : t.Derives miniGo) : t.unplaced.Derives miniGo := by
  induction h with
  | leaf t => simpa using .leaf _
  | @node r cs a ha hw _ ih =>
    rw [unplaced_node]
    exact .node ha (by simpa [Function.comp_def] using hw) (by simpa using ih)

theorem seen_unplaced (h : t.Derives miniGo) : t.unplaced.seen = t.seen := by
  cases t with
  | leaf t => simp [SyntaxTree.seen]
  | node r cs =>
    have htext : (unplaced (.node r cs)).text = (Tree.node r cs).text := by
      have := congrArg (List.map Prod.snd) (shown_unplaced h)
      simp only [List.map_map] at this
      exact congrArg String.join this
    rw [unplaced_node] at htext ⊢
    simp only [SyntaxTree.seen, htext]

theorem toNode_unplaced (h : t.Derives miniGo) :
    SyntaxTree.toNode t.unplaced = SyntaxTree.toNode t := by
  induction h with
  | leaf t => simp [SyntaxTree.toNode]
  | @node r cs a ha hw hc ih =>
    have hnode : Tree.Derives miniGo (.node r cs) := .node ha hw hc
    have hnode' := derives_unplaced hnode
    rw [unplaced_node] at hnode' ⊢
    refine SyntaxTree.toNode_congr hnode' hnode ?_
    rw [List.map_map]
    refine List.map_congr_left fun c hmem => ?_
    simp [SyntaxTree.view, seen_unplaced (hc c hmem), ih c hmem]

theorem joinBoxes_unplaced (cs : Forest) :
    joinBoxes (cs.map unplaced) = (joinBoxes cs).map unplaced := by
  match cs with
  | [] => rfl
  | [c] => cases c <;> simp [joinBoxes]
  | .leaf t :: d :: ds => simp [joinBoxes]
  | .node r [] :: d :: ds => simp [joinBoxes]
  | .node r [c] :: d :: ds => simp [joinBoxes]
  | .node r (c :: b :: bs) :: d :: ds =>
    by_cases hr : r = .chain
    · subst hr
      simp only [List.map_cons, unplaced_node, joinBoxes, isRule_unplaced]
      split <;> simp
    · cases r <;> first | exact absurd rfl hr | simp [joinBoxes]

theorem grouped_unplaced (h : t.Derives miniGo) : t.unplaced.grouped = t.grouped.unplaced := by
  induction h with
  | leaf t => simp
  | @node r cs a _ _ _ ih =>
    have hcs : groupedList (cs.map unplaced) = (groupedList cs).map unplaced := by
      rw [SyntaxTree.groupedList_eq, SyntaxTree.groupedList_eq, List.map_map, List.map_map]
      exact List.map_congr_left ih
    rw [unplaced_node, grouped, grouped, unplaced_node, hcs, apply_ite (List.map unplaced),
      joinBoxes_unplaced]

theorem exists_placed_list {cs : Forest} (h : ∀ c ∈ cs, ∀ ts : TokenList,
      ts.map Token.shown = c.leaves.map Token.shown →
      ∃ e : SyntaxTree, e.Derives miniGo ∧ e.leaves = ts ∧ e.unplaced = c.unplaced) :
    ∀ ts : TokenList, ts.map Token.shown = (leavesList cs).map Token.shown →
      ∃ es : Forest, (∀ e ∈ es, e.Derives miniGo) ∧ leavesList es = ts ∧
        es.map unplaced = cs.map unplaced := by
  induction cs with
  | nil =>
    intro ts hts
    obtain rfl : ts = [] := by simpa using hts
    exact ⟨[], by simp⟩
  | cons c cs ih =>
    intro ts hts
    obtain ⟨hc, hcs⟩ := List.forall_mem_cons.1 h
    rw [leavesList_cons, List.map_append] at hts
    obtain ⟨us, vs, rfl, hus, hvs⟩ := List.map_eq_append_iff.1 hts
    obtain ⟨e, he, rfl, heq⟩ := hc us hus
    obtain ⟨es, hes, rfl, heqs⟩ := ih hcs vs hvs
    exact ⟨e :: es, by simpa [he] using hes, by simp, by simp [heq, heqs]⟩

/-- A derivation can be moved to other tokens that are written alike. -/
theorem exists_placed (h : d.Derives miniGo) : ∀ ts : TokenList,
    ts.map Token.shown = d.leaves.map Token.shown →
      ∃ e : SyntaxTree, e.Derives miniGo ∧ e.leaves = ts ∧ e.unplaced = d.unplaced := by
  induction h with
  | leaf t =>
    intro ts hts
    rw [leaves_leaf, List.map_singleton] at hts
    obtain ⟨u, rfl, hu⟩ := List.map_eq_singleton_iff.1 hts
    obtain ⟨hkind, htext⟩ : u.kind = t.kind ∧ u.text = t.text := Prod.mk.inj hu
    exact ⟨.leaf u, .leaf u, by simp, by simp [hkind, htext]⟩
  | @node r cs a ha hw _ ih =>
    intro ts hts
    obtain ⟨es, hes, hleaves, heq⟩ := exists_placed_list ih ts (by simpa using hts)
    have hlabels : es.map label = cs.map label := by
      have := congrArg (List.map label) heq
      simpa [Function.comp_def] using this
    exact ⟨.node r es, .node ha (hlabels ▸ hw) hes, by simpa using hleaves, by simp [heq]⟩

end Tree

/-! ## Sources -/

/-- How a token of a kind with one spelling is written. -/
def TokenKind.written (k : TokenKind) : TokenKind × String := (k, k.literal?.getD "")

namespace Token

/-- The token that is written so, without a place. -/
def ofShown (w : TokenKind × String) : Token TokenKind := ⟨w.1, w.2, {}⟩

@[simp] theorem shown_ofShown (w : TokenKind × String) : (ofShown w).shown = w := rfl

/-- Whether a token stands depends on how it is written only. -/
theorem Stands.of_shown {t : Token TokenKind} (h : t.Stands) : (ofShown t.shown).Stands :=
  ⟨h.visible, h.spelled, h.nonempty, h.first⟩

end Token

namespace Tokens

theorem stands_of_head {k : TokenKind} {s : String} (hk : k ≠ .eof)
    (h : ((ofSource s).tokens.map Token.shown).head? = some (k, s)) :
    (Token.ofShown (k, s)).Stands := by
  obtain ⟨t, ht, hshown⟩ := List.mem_map.1 (List.mem_of_head? h)
  have hkind : t.kind = k := congrArg Prod.fst hshown
  exact hshown ▸ (stands_of_mem ht (hkind ▸ hk)).of_shown

theorem head_of_literal : ∀ k ∈ TokenKind.all, ∀ s ∈ k.literal?,
    ((ofSource s).tokens.map Token.shown).head? = some (k, s) := by
  decide +kernel

theorem stands_written {k : TokenKind} (h : k.literal?.isSome = true) :
    (Token.ofShown k.written).Stands := by
  obtain ⟨s, hs⟩ := Option.isSome_iff_exists.1 h
  have hk : k ≠ .eof := fun hk => by simp [hk, TokenKind.literal?] at hs
  have hmem : k ∈ TokenKind.all := by cases k <;> first | decide | contradiction
  rw [TokenKind.written, hs]
  exact stands_of_head hk (head_of_literal k hmem s hs)

/-- Tokens that stand can be written with blanks between them. -/
theorem shown_spaced {ts : List (TokenKind × String)}
    (hts : ∀ w ∈ ts, (Token.ofShown w).Stands) :
    (ofSource (spaced (ts.map Token.ofShown))).tokens.map Token.shown =
      ts ++ [(TokenKind.eof, "<EOF>")] := by
  have hstands := List.forall_mem_map.2 hts
  have hfilter : (ts.map Token.ofShown).filter (·.kind ≠ .eof) = ts.map Token.ofShown := by
    refine List.filter_eq_self.2 fun t ht => decide_eq_true fun heof => ?_
    have := (hstands t ht).visible.row
    simp [heof, TokenKind.all] at this
  have hspaced : (spaced (ts.map Token.ofShown)).toList =
      [' '].intercalate ((ts.map Token.ofShown).map (·.text.toList)) := by
    rw [spaced, hfilter, String.toList_intercalate, List.map_map]
    rfl
  have hrun := @Lexeme.tokens_spaced (Place.after {} (spaced (ts.map Token.ofShown)).toList) {}
    none _ hstands
  rw [← hspaced] at hrun
  exact hrun.2.trans (by simp [Function.comp_def])

end Tokens

namespace SyntaxTree

variable {source : String} {t d : SyntaxTree}

/-- The tree that is read is its own grouped form. -/
theorem grouped_of_parse (h : parse source = .ok t) : t.grouped = t :=
  Except.ok.inj ((read_of_trees (trees_of_parse h)).symm.trans (parse_ok_iff.1 h))

/-- A source with tokens that are written as the leaves of a grouped derivation has its node. -/
theorem parse_of_shown (hd : d.Derives miniGo) (hr : d.isRule .program = true)
    (hgrouped : d.grouped = d)
    (hshown : (Tokens.ofSource source).tokens.map Token.shown = d.leaves.map Token.shown) :
    ∃ t, parse source = .ok t ∧ t.toNode = d.toNode := by
  obtain ⟨e, he, hleaves, heq⟩ := Tree.exists_placed hd _ hshown
  have her : e.isRule .program = true := by
    rw [← Tree.isRule_unplaced, heq, Tree.isRule_unplaced, hr]
  have hparse : parse source = .ok e.grouped :=
    parse_ok_iff.2 (read_of_trees (hleaves ▸ trees_of_derives her he))
  obtain ⟨-, cs, -, hderives⟩ := derives_of_parse hparse
  refine ⟨e.grouped, hparse, ?_⟩
  calc e.grouped.toNode = e.grouped.unplaced.toNode := (Tree.toNode_unplaced hderives).symm
    _ = d.unplaced.toNode := by
        rw [← Tree.grouped_unplaced he, heq, Tree.grouped_unplaced hd, hgrouped]
    _ = d.toNode := Tree.toNode_unplaced hd

end SyntaxTree

end MiniGoc
