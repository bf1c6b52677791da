import MiniGoc.Proofs.Levels
import MiniGoc.Proofs.Roles

/-!
# Compound assignments

A compound assignment `l += e` means `l := l + (e)`: a program in which the one is written in place
of the other has the same node, or the same fault (`SyntaxTree.compound_expands`).

`Tree.Occurs` gives the place of a tree in another one by the leaves before and after it.  A phrase
that can hold an assignment may be replaced in its place by one of the same rule with the same node
(`SyntaxTree.exists_replaced`).  The step is one rule of the tree around the phrase, by what
this rule sees of its children.  The two assignments are compared by
`SyntaxTree.exists_expanded`: the target is read a second time as an expression, and the value in
parentheses.

There are no other compound assignments than those of `SyntaxTree.Compound`: every token of a
compound operator is the operator of one of them (`SyntaxTree.exists_compound`).
-/

namespace MiniGoc

open Grammar (miniGo)

/-- The operator that a compound assignment applies. -/
def TokenKind.applied? : TokenKind → Option TokenKind
  | addTo => some .add
  | subFrom => some .sub
  | multiplyBy => some .multiply
  | divideBy => some .divide
  | remainBy => some .remain
  | _ => none

namespace Tree

variable {κ ρ : Type}

/-- The tree stands in another one, between the leaves before and after it. -/
inductive Occurs (s : Tree κ ρ) : List (Token κ) → Tree κ ρ → List (Token κ) → Prop where
  | here : Occurs s [] s []
  | inside {r : ρ} {as bs : List (Tree κ ρ)} {c : Tree κ ρ} {u v : List (Token κ)} :
      Occurs s u c v → Occurs s (leavesList as ++ u) (.node r (as ++ c :: bs)) (v ++ leavesList bs)

theorem Occurs.leaves {s t : Tree κ ρ} {u v : List (Token κ)} (h : s.Occurs u t v) :
    t.leaves = u ++ s.leaves ++ v := by
  induction h with
  | here => simp
  | inside _ ih => simp [ih]

/-- A token among the leaves of a list of trees is a leaf of one of them. -/
theorem exists_split {cs : List (Tree κ ρ)} {o : Token κ} {u v : List (Token κ)}
    (h : leavesList cs = u ++ o :: v) : ∃ as c bs u' v', cs = as ++ c :: bs ∧
      c.leaves = u' ++ o :: v' ∧ u = leavesList as ++ u' ∧ v = v' ++ leavesList bs := by
  induction cs generalizing u with
  | nil => simp at h
  | cons c cs ih =>
    rw [leavesList_cons] at h
    have hlater {w : List (Token κ)} (hw : leavesList cs = w ++ o :: v) (hu : u = c.leaves ++ w) :
        ∃ as d bs u' v', c :: cs = as ++ d :: bs ∧ d.leaves = u' ++ o :: v' ∧
          u = leavesList as ++ u' ∧ v = v' ++ leavesList bs := by
      obtain ⟨as, d, bs, u', v', rfl, hd, rfl, rfl⟩ := ih hw
      exact ⟨c :: as, d, bs, u', v', rfl, hd, by simp [hu], rfl⟩
    obtain ⟨w, rfl, hw⟩ | ⟨w, hc, hw⟩ := List.append_eq_append_iff.1 h
    · exact hlater hw rfl
    · cases w with
      | nil => exact hlater (w := []) hw.symm (by simpa using hc.symm)
      | cons x w =>
        obtain ⟨rfl, rfl⟩ := List.cons.inj hw
        exact ⟨[], c, cs, u, w, rfl, hc, rfl, rfl⟩

end Tree

namespace SyntaxTree

variable {s t : SyntaxTree} {u v : TokenList}

/-! ## Replacement -/

theorem holds_of_occurs (h : s.Occurs u t v) (ht : t.Derives miniGo) (hs : s.holds = true) :
    t.holds = true := by
  induction h with
  | here => exact hs
  | @inside r as bs c u v _ ih =>
    have hmem : c ∈ as ++ c :: bs := by simp
    have hr := holders_of_holds ht hmem (ih (ht.child hmem))
    exact List.any_eq_true.2 ⟨r, hr, by simp [Tree.isRule]⟩

theorem seen_eq {c d : SyntaxTree} (hc : c.holds = true) (h : d.label = c.label) :
    d.seen = c.seen := by
  obtain ⟨r, hr, hrule⟩ := List.any_eq_true.1 hc
  obtain ⟨cs, rfl⟩ := exists_of_isRule hrule
  obtain ⟨ds, rfl⟩ := Tree.label_eq_rule.1 h
  simp [seen, hr]

/-- A phrase that can hold an assignment may be replaced by one of the same rule with the same
node. -/
theorem exists_replaced (h : s.Occurs u t v) (ht : Settled t) (hs : s.holds = true) :
    Settled s ∧ ∀ s', Settled s' → s'.label = s.label → s'.toNode = s.toNode →
      ∃ t', Settled t' ∧ t'.label = t.label ∧ t'.toNode = t.toNode ∧
        t'.leaves = u ++ s'.leaves ++ v := by
  induction h with
  | here => exact ⟨ht, fun s' hs' hlabel hnode => ⟨s', hs', hlabel, hnode, by simp⟩⟩
  | @inside r as bs c u v hc ih =>
    have hmem : c ∈ as ++ c :: bs := by simp
    have hholds : holds c = true := holds_of_occurs hc (ht.1.child hmem) hs
    have hr : r ≠ .chain := by
      rintro rfl
      exact absurd (holders_of_holds ht.1 hmem hholds) (by decide)
    have hchildren := ht.child hr
    obtain ⟨hsettled, hreplace⟩ := ih (hchildren c hmem)
    refine ⟨hsettled, fun s' hs' hlabel hnode => ?_⟩
    obtain ⟨c', hc', hlabel', hnode', hleaves⟩ := hreplace s' hs' hlabel hnode
    have hall : ∀ d ∈ as ++ c' :: bs, Settled d := by
      intro d hd
      obtain hd | rfl | hd := by simpa using hd
      · exact hchildren d (by simp [hd])
      · exact hc'
      · exact hchildren d (by simp [hd])
    have hnew : Settled (.node r (as ++ c' :: bs)) := by
      obtain ⟨a, ha, hgrows⟩ := Grammar.derives_node.1 ht.1
      exact settled_node ha (by simpa [hlabel'] using hgrows.1) hr hall
    refine ⟨_, hnew, rfl, toNode_congr hnew.1 ht.1 ?_, by simp [hleaves]⟩
    simp [view, seen_eq hholds hlabel', hnode']

/-! ## Assignments -/

/-- An assignment with an operator: a statement, or a part of a loop.  It comes with the tokens of
its target, its operator and its value, and those behind them. -/
inductive Compound (o : Token TokenKind) :
    SyntaxTree → (target value stop : TokenList) → Prop where
  | stmt {l e : SyntaxTree} {z : Token TokenKind} :
      Compound o (.node .assignStmt [l, .node .assignOperator [.leaf o], e, .leaf z]) l.leaves
        e.leaves [z]
  | part {x : Token TokenKind} {e : SyntaxTree} :
      Compound o (.node .update [.leaf x, .node .assignOperator [.leaf o], e]) [x] e.leaves []

namespace Phrase

variable {ts us : List (TokenKind × String)} {x y : Except Fault Node}

/-- A target is an expression. -/
theorem of_lhs (h : Phrase .lhs ts x) : Phrase .expr6 ts x := by
  obtain ⟨cs, hcs, rfl, rfl⟩ := h
  have haccess {r : Rule} {ds : Forest} (hcs : Settled (.node .lhs [.node r ds]))
      (hr : [.rule r] ∈ (miniGo.alternatives .expr6).alts) :
      Phrase .expr6 ((Tree.leavesList [.node r ds]).map Token.shown)
        (toNode (.node .lhs [.node r ds])) := by
    have hnode : toNode (.node .lhs [.node r ds]) = toNode (.node r ds) := by
      rw [toNode]
      simp [Build.node]
    exact unit (s := r) ⟨ds, hcs.child (by decide) _ (by simp), by simp, hnode.symm⟩ hr
      (by decide) (by simp [Build.node])
  obtain ⟨a, ha, hgrows⟩ := Grammar.derives_node.1 hcs.1
  simp only [miniGo, Grammar.miniGoAlternatives, List.mem_cons, List.not_mem_nil, or_false] at ha
  obtain rfl | rfl | rfl := ha
  · obtain ⟨t, ht, rfl⟩ := Grammar.grows_token.1 hgrows
    have hname := (Phrase.name t.text).of_operand
    simpa [Token.shown, ht, toNode, Build.node] using hname
  · obtain ⟨ds, rfl, -⟩ := Grammar.grows_rule.1 hgrows
    exact haccess hcs (.head _)
  · obtain ⟨ds, rfl, -⟩ := Grammar.grows_rule.1 hgrows
    exact haccess hcs (.tail _ (.head _))

theorem applied {k : TokenKind} (hk : k ∈ Build.binaryKinds) (hl : Phrase .expr6 ts x)
    (he : Phrase .expr us y) :
    Phrase .expr (ts ++ k.written :: TokenKind.openParen.written ::
      (us ++ [TokenKind.closeParen.written])) (do return .binary k.written.2 (← x) (← y)) := by
  have hlevel := TokenKind.level_le hk
  have hleft : Phrase (.level k.level) ts x := mono (q := 5) hl.of_expr6 (by omega)
  have hright := mono (p := k.level + 1) (q := 5) he.paren.of_operand.of_expr6 (by omega)
  exact (hleft.binary hk hright k.written.2).mono (Nat.zero_le _)

end Phrase

variable {o : Token TokenKind} {k : TokenKind} {target value stop : TokenList}

theorem assignment_applied {j : TokenKind} (h : j.applied? = some k) (l e : Node) :
    Build.assignment l e j.written.2 = .ok (.assign l (.binary k.written.2 l e)) := by
  cases j <;> cases h <;> rfl

/-- An assignment with an operator gives the same as the one without, which has the operator in its
value. -/
theorem bind_assignment {j : TokenKind} (h : j.applied? = some k) (x y : Except Fault Node) :
    (do
      let l ← x
      let e ← (do return Node.binary k.written.2 (← x) (← y))
      Build.assignment l e ":=") =
    (do
      let l ← x
      let e ← y
      Build.assignment l e j.written.2) := by
  cases x with
  | error f => rfl
  | ok l =>
    cases y with
    | error f => rfl
    | ok e => exact (assignment_applied h l e).symm

theorem toNode_assignStmt (ls es : Forest) (o z : Token TokenKind) :
    toNode (.node .assignStmt [.node .lhs ls, .node .assignOperator [.leaf o], .node .expr es,
      .leaf z]) = (do
        let l ← toNode (.node .lhs ls)
        let e ← toNode (.node .expr es)
        Build.assignment l e o.text) := by
  rw [toNode]
  simp [Build.node, Build.Parts.get, Build.Parts.ruleText, Tree.text, String.join]

theorem toNode_update {x : Token TokenKind} (hx : x.kind = .ident) (es : Forest)
    (o : Token TokenKind) :
    toNode (.node .update [.leaf x, .node .assignOperator [.leaf o], .node .expr es]) = (do
        let l ← Except.ok (Node.id x.text)
        let e ← toNode (.node .expr es)
        Build.assignment l e o.text) := by
  rw [toNode]
  simp [Build.node, Build.Parts.get, Build.Parts.text, Build.Parts.ruleText, Tree.text,
    String.join, hx]

/-- The tokens of an assignment that is written out. -/
def expanded (target : TokenList) (k : TokenKind)
    (value rest : TokenList) : List (TokenKind × String) :=
  target.map Token.shown ++ TokenKind.define.written :: (target.map Token.shown ++ k.written ::
    TokenKind.openParen.written :: (value.map Token.shown ++ TokenKind.closeParen.written ::
      rest.map Token.shown))

theorem settled_define : Settled (.node .assignOperator [.leaf ⟨.define, ":=", {}⟩]) :=
  settled_node (.head _) (.cons (.anyOf (by decide)) .nil) (by decide) (by simp)

theorem shape_assignStmt {cs : Forest} (h : Tree.Derives miniGo (.node .assignStmt cs)) :
    ∃ ls o es z, cs =
      [.node .lhs ls, .node .assignOperator [.leaf o], .node .expr es, .leaf z] := by
  have hcs := shape_of_derives [] h
  rw [kept_all] at hcs
  obtain ⟨ls, _, -, rfl, os, _, hos, rfl, es, _, -, rfl, z, _, -, rfl, rfl⟩ := hcs
  obtain ⟨o, -, rfl⟩ := Build.exists_of_operator rfl hos
  exact ⟨ls, o, es, z, rfl⟩

theorem shape_update {cs : Forest} (h : Tree.Derives miniGo (.node .update cs)) :
    ∃ x o es, cs = [.leaf x, .node .assignOperator [.leaf o], .node .expr es] ∧
      x.kind = .ident := by
  have hcs := shape_of_derives [] h
  rw [kept_all] at hcs
  obtain ⟨x, _, hx, rfl, os, _, hos, rfl, es, _, -, rfl, rfl⟩ := hcs
  obtain ⟨o, -, rfl⟩ := Build.exists_of_operator rfl hos
  exact ⟨x, o, es, rfl, hx⟩

/-- An assignment with an operator can be written out. -/
theorem exists_expanded (hs : Settled s) (hc : Compound o s target value stop)
    (hk : o.kind.applied? = some k) (ho : o.shown = o.kind.written) :
    ∃ s', Settled s' ∧ s'.label = s.label ∧ s'.toNode = s.toNode ∧
      s'.leaves.map Token.shown = expanded target k value stop := by
  have hbinary : k ∈ Build.binaryKinds := by
    revert hk
    cases o.kind <;> simp [TokenKind.applied?] <;> rintro rfl <;> decide
  have htext : o.text = o.kind.written.2 := congrArg Prod.snd ho
  have hdefine : (⟨.define, ":=", {}⟩ : Token TokenKind).shown = TokenKind.define.written := rfl
  cases hc with
  | @stmt l e z =>
    obtain ⟨ls, _, es, _, ⟨⟩⟩ := shape_assignStmt hs.1
    obtain ⟨a, ha, hw, -⟩ := Grammar.derives_node.1 hs.1
    have hchild := hs.child (by decide)
    have hl : Phrase .lhs _ _ := ⟨ls, hchild _ (by simp), rfl, rfl⟩
    have he : Phrase .expr _ _ := ⟨es, hchild _ (by simp), rfl, rfl⟩
    obtain ⟨vs, hvs, hshown, hnode⟩ := hl.of_lhs.applied hbinary he
    have hsettled : Settled (.node .assignStmt [.node .lhs ls,
        .node .assignOperator [.leaf ⟨.define, ":=", {}⟩], .node .expr vs, .leaf z]) :=
      settled_node ha hw (by decide) (by simp [hchild, settled_define, hvs])
    refine ⟨_, hsettled, rfl, ?_, by simp [expanded, hshown, hdefine]⟩
    rw [toNode_assignStmt, toNode_assignStmt, hnode, htext]
    exact bind_assignment hk _ _
  | @part x e =>
    obtain ⟨_, _, es, ⟨⟩, hx⟩ := shape_update hs.1
    obtain ⟨a, ha, hw, -⟩ := Grammar.derives_node.1 hs.1
    have hname : x.shown = (.ident, x.text) := by rw [Token.shown, hx]
    have he : Phrase .expr _ _ := ⟨es, hs.child (by decide) _ (by simp), rfl, rfl⟩
    obtain ⟨vs, hvs, hshown, hnode⟩ := (Phrase.name x.text).of_operand.applied hbinary he
    have hsettled : Settled (.node .update [.leaf x,
        .node .assignOperator [.leaf ⟨.define, ":=", {}⟩], .node .expr vs]) :=
      settled_node ha hw (by decide) (by simp [settled_define, hvs])
    refine ⟨_, hsettled, rfl, ?_, by simp [expanded, hshown, hdefine, hname]⟩
    rw [toNode_update hx, toNode_update hx, hnode, htext]
    exact bind_assignment hk _ _

/-! ## Every compound operator -/

theorem rule_of_applied : ∀ r ∈ Rule.all, ∀ j ∈ TokenKind.all, j.applied?.isSome = true →
    .token j ∈ Part.labelsAlts (miniGo.alternatives r).alts → r = .assignOperator := by
  decide

theorem rule_of_operator : ∀ r ∈ Rule.all,
    .rule .assignOperator ∈ Part.labelsAlts (miniGo.alternatives r).alts →
      r = .assignStmt ∨ r = .update := by
  decide

/-- The operator of a compound assignment stands alone, in the phrase of an operator, or in a
compound assignment. -/
theorem exists_compound (h : t.Derives miniGo) (ho : o.kind.applied?.isSome = true)
    (hleaves : t.leaves = u ++ o :: v) :
    t = .leaf o ∨ t = .node .assignOperator [.leaf o] ∨
      ∃ s before after target value stop, s.Occurs before t after ∧
        Compound o s target value stop ∧ u = before ++ target ∧ v = value ++ (stop ++ after) := by
  induction h generalizing u v with
  | leaf t =>
    obtain rfl : o = t := by
      have : o ∈ (Tree.leaf t : SyntaxTree).leaves := by rw [hleaves]; simp
      simpa using this
    exact .inl rfl
  | @node r cs a ha hw hc ih =>
    have hnode : Tree.Derives miniGo (.node r cs) := .node ha hw hc
    have hr : r ∈ Rule.all := by cases r <;> decide
    obtain ⟨as, c, bs, u', v', rfl, hcleaves, rfl, rfl⟩ :=
      Tree.exists_split (by simpa using hleaves)
    have hlabel := hnode.mem_labels (c := c) (by simp)
    refine .inr ?_
    obtain rfl | rfl | ⟨s, before, after, target, value, stop, hs, hcompound, rfl, rfl⟩ :=
      ih c (by simp) hcleaves
    · have hkind : o.kind ∈ TokenKind.all := by revert ho; cases o.kind <;> decide
      obtain rfl := rule_of_applied r hr o.kind hkind ho hlabel
      obtain ⟨o', -, hcs⟩ := Build.exists_of_operator rfl hnode
      obtain ⟨rfl, ⟨⟩⟩ | ⟨_, rfl, h⟩ := List.append_eq_cons_iff.1 hcs
      · exact .inl rfl
      · simp at h
    · obtain ⟨rfl, rfl⟩ : u' = [] ∧ v' = [] := by
        have := congrArg List.length hcleaves
        simp at this
        exact ⟨List.length_eq_zero_iff.1 (by omega), List.length_eq_zero_iff.1 (by omega)⟩
      obtain rfl | rfl := rule_of_operator r hr hlabel
      · obtain ⟨ls, o', es, z, hcs⟩ := shape_assignStmt hnode
        -- The phrase of the operator can only be the second child.
        obtain ⟨rfl, ⟨⟩⟩ | ⟨as, rfl, h₁⟩ := List.append_eq_cons_iff.1 hcs
        obtain ⟨rfl, ⟨⟩⟩ | ⟨as, rfl, h₂⟩ := List.append_eq_cons_iff.1 h₁.symm
        · exact .inr ⟨_, [], [], _, _, _, .here, .stmt, by simp, by simp⟩
        obtain ⟨rfl, ⟨⟩⟩ | ⟨as, rfl, h₃⟩ := List.append_eq_cons_iff.1 h₂.symm
        obtain ⟨rfl, ⟨⟩⟩ | ⟨as, rfl, h₄⟩ := List.append_eq_cons_iff.1 h₃.symm
        simp at h₄
      · obtain ⟨x, o', es, hcs, -⟩ := shape_update hnode
        obtain ⟨rfl, ⟨⟩⟩ | ⟨as, rfl, h₁⟩ := List.append_eq_cons_iff.1 hcs
        obtain ⟨rfl, ⟨⟩⟩ | ⟨as, rfl, h₂⟩ := List.append_eq_cons_iff.1 h₁.symm
        · exact .inr ⟨_, [], [], _, _, _, .here, .part, by simp, by simp⟩
        obtain ⟨rfl, ⟨⟩⟩ | ⟨as, rfl, h₃⟩ := List.append_eq_cons_iff.1 h₂.symm
        simp at h₃
    · exact .inr ⟨s, _, _, target, value, stop, .inside hs, hcompound, by simp, by simp⟩

/-! ## Sources -/

theorem labels_without_eof : ∀ r ∈ Rule.all, r ≠ .program →
    .token .eof ∉ Part.labelsAlts (miniGo.alternatives r).alts ∧
      .rule .program ∉ Part.labelsAlts (miniGo.alternatives r).alts := by
  decide

/-- The end of the source stands in the program only. -/
theorem kind_ne_eof (h : t.Derives miniGo) (htoken : t.label ≠ .token .eof)
    (hrule : t.label ≠ .rule .program) : ∀ x ∈ t.leaves, x.kind ≠ .eof := by
  induction h with
  | leaf t =>
    intro x hx
    obtain rfl : x = t := by simpa using hx
    exact fun heof => htoken (congrArg Label.token heof)
  | @node r cs a ha hw hc ih =>
    have hnode : Tree.Derives miniGo (.node r cs) := .node ha hw hc
    obtain ⟨heof, hprogram⟩ := labels_without_eof r (by cases r <;> decide)
      fun hr => hrule (congrArg Label.rule hr)
    intro x hx
    obtain ⟨c, hmem, hx⟩ := Tree.mem_leavesList.1 (by simpa using hx)
    have hlabel := hnode.mem_labels hmem
    exact ih c hmem (fun h => heof (h ▸ hlabel)) (fun h => hprogram (h ▸ hlabel)) x hx

variable {source : String} {before after : TokenList}

theorem Compound.leaves (h : Compound o s target value stop) :
    s.leaves = target ++ o :: (value ++ stop) := by
  cases h <;> simp

theorem Compound.holds (h : Compound o s target value stop) : s.holds = true := by
  cases h <;> rfl

/-- The tokens behind an assignment end with the end of the source, and the others stand. -/
theorem exists_end (ht : parse source = .ok t) (hs : s.Occurs before t after)
    (hc : Compound o s target value stop) : ∃ rest, ∃ z : Token TokenKind, after = rest ++ [z] ∧
      z.shown = (.eof, "<EOF>") ∧ ∀ x ∈ before ++ s.leaves ++ rest, x.Stands := by
  obtain ⟨hleaves, -, -, hderives⟩ := derives_of_parse ht
  obtain ⟨body, hbody, htokens⟩ := Tokens.exists_body source
  rw [if_pos (error_none_of_parse ht)] at htokens
  have hall := hs.leaves.symm.trans (hleaves.trans htokens)
  obtain rfl | ⟨rest, z, hafter⟩ := List.eq_nil_or_concat after
  · -- The last token would be one of the assignment.
    have hsettled := (exists_replaced hs ⟨hderives, grouped_of_parse ht⟩ hc.holds).1
    have hne : s.leaves ≠ [] := by simp [hc.leaves]
    have hlast : s.leaves.getLast? = some ⟨.eof, "<EOF>", Place.behind source.toList⟩ := by
      have := congrArg List.getLast? hall
      simpa [List.getLast?_append_of_ne_nil _ hne] using this
    exact absurd rfl (kind_ne_eof hsettled.1 (by cases hc <;> nofun) (by cases hc <;> nofun) _
      (List.mem_of_getLast? hlast))
  · obtain rfl : after = rest ++ [z] := by rw [hafter, List.concat_eq_append]
    rw [← List.append_assoc] at hall
    obtain ⟨hfront, hz⟩ := List.append_inj' hall rfl
    obtain rfl := List.singleton_inj.1 hz
    refine ⟨rest, _, rfl, rfl, fun x hx => ?_⟩
    rw [hfront] at hx
    exact Tokens.stands_of_mem (htokens ▸ List.mem_append_left _ hx) (hbody x hx)

theorem shown_of_stands {x : Token TokenKind} (h : x.Stands)
    (hx : x.kind.literal?.isSome = true) : x.shown = x.kind.written := by
  obtain ⟨w, hw⟩ := Option.isSome_iff_exists.1 hx
  rw [Token.shown, TokenKind.written, hw, String.toList_inj.1 (h.spelled.eq_literal hw)]
  rfl

theorem literal_of_applied {j : TokenKind} (h : j.applied? = some k) :
    j.literal?.isSome = true ∧ k.literal?.isSome = true := by
  cases j <;> cases h <;> decide

/-- The tokens with an assignment written out can be written. -/
theorem exists_source (ht : parse source = .ok t) (hs : s.Occurs before t after)
    (hc : Compound o s target value stop) (hk : o.kind.applied? = some k) :
    ∃ source', (Tokens.ofSource source').tokens.map Token.shown =
      before.map Token.shown ++ expanded target k value (stop ++ after) := by
  obtain ⟨rest, z, rfl, hz, hstands⟩ := exists_end ht hs hc
  have hold (xs : TokenList) (hxs : xs ⊆ before ++ s.leaves ++ rest) :
      ∀ w ∈ xs.map Token.shown, (Token.ofShown w).Stands :=
    List.forall_mem_map.2 fun x hx => (hstands x (hxs hx)).of_shown
  have hshown : ∀ w ∈ before.map Token.shown ++ expanded target k value (stop ++ rest),
      (Token.ofShown w).Stands := by
    rw [hc.leaves] at hold
    simp only [expanded, List.forall_mem_append, List.forall_mem_cons]
    refine ⟨hold before ?_, hold target ?_, Tokens.stands_written rfl, hold target ?_,
      Tokens.stands_written (literal_of_applied hk).2, Tokens.stands_written rfl, hold value ?_,
      Tokens.stands_written rfl, hold (stop ++ rest) ?_⟩ <;> simp <;> grind
  refine ⟨_, (Tokens.shown_spaced hshown).trans ?_⟩
  simp [expanded, hz]

/-- In a source that is read, the tokens of compound operators are those of compound assignments.
Each of them can be written out, and every source in which it is written out is read with the same
node, or the same fault. -/
theorem compound_expands (ht : parse source = .ok t) :
    (∀ u o v, (Tokens.ofSource source).tokens = u ++ o :: v → o.kind.applied?.isSome = true →
      ∃ s before after target value stop, s.Occurs before t after ∧
        Compound o s target value stop ∧ u = before ++ target ∧ v = value ++ (stop ++ after)) ∧
    ∀ s before after o k target value stop, s.Occurs before t after →
      Compound o s target value stop → o.kind.applied? = some k →
      (Tokens.ofSource source).tokens = before ++ target ++ o :: (value ++ (stop ++ after)) ∧
      (∃ source', (Tokens.ofSource source').tokens.map Token.shown =
        before.map Token.shown ++ expanded target k value (stop ++ after)) ∧
      ∀ source', (Tokens.ofSource source').tokens.map Token.shown =
          before.map Token.shown ++ expanded target k value (stop ++ after) →
        ∃ t', parse source' = .ok t' ∧ t'.toNode = t.toNode := by
  obtain ⟨hleaves, cs, hprogram, hderives⟩ := derives_of_parse ht
  refine ⟨fun u o v htokens ho => ?_, fun s before after o k target value stop hs hc hk => ?_⟩
  · obtain rfl | rfl | hcompound := exists_compound hderives ho (hleaves.trans htokens)
    · cases hprogram
    · cases hprogram
    · exact hcompound
  · refine ⟨?_, exists_source ht hs hc hk, fun source' hsource' => ?_⟩
    · rw [← hleaves, hs.leaves, hc.leaves]
      simp
    · obtain ⟨rest, z, -, -, hstands⟩ := exists_end ht hs hc
      have ho : o.shown = o.kind.written :=
        shown_of_stands (hstands o (by simp [hc.leaves])) (literal_of_applied hk).1
      obtain ⟨hsettled, hreplace⟩ := exists_replaced hs ⟨hderives, grouped_of_parse ht⟩ hc.holds
      obtain ⟨s', hs', hlabel, hnode, hshown⟩ := exists_expanded hsettled hc hk ho
      obtain ⟨t', ht', hlabel', hnode', hleaves'⟩ := hreplace s' hs' hlabel hnode
      have hrule : t'.isRule .program = true := by
        obtain ⟨cs', rfl⟩ := Tree.label_eq_rule.1 (hlabel'.trans (by rw [hprogram]; rfl))
        simp [Tree.isRule]
      have hwritten : (Tokens.ofSource source').tokens.map Token.shown =
          t'.leaves.map Token.shown := by
        rw [hsource', hleaves']
        simp [hshown, expanded]
      obtain ⟨t'', hparse, hsame⟩ := parse_of_shown ht'.1 hrule ht'.2 hwritten
      exact ⟨t'', hparse, hsame.trans hnode'⟩

namespace Sample

/-- The assignment `a-=b||c`. -/
def assignment : SyntaxTree :=
  .node .assignStmt [.node .lhs [leaf .ident "a" 9],
    .node .assignOperator [leaf .subFrom "-=" 10],
    .node .expr (wrap (name "b" 12) :: leaf .or "||" 13 :: (wrap (name "c" 15)).children),
    leaf .semicolon ";" 16]

/-- The program with a function around it. -/
def function : SyntaxTree :=
  .node .program [.node .decl [.node .funcDecl [leaf .kwFunc "func" 0, leaf .ident "f" 5,
    leaf .openParen "(" 6, leaf .closeParen ")" 7,
    .node .block [leaf .openBrace "\x7b" 8, .node .stmt [assignment], leaf .closeBrace "\x7d" 17],
    leaf .semicolon ";" 18]], leaf .eof "<EOF>" 19]

end Sample

/-- The value of the assignment needs its parentheses. -/
theorem compound_expands_or : ∃ t t', parse "func f()\x7ba-=b||c;\x7d;" = .ok t ∧
    parse "func f()\x7ba:=a-(b||c);\x7d;" = .ok t' ∧ t'.toNode = t.toNode := by
  have ht : parse "func f()\x7ba-=b||c;\x7d;" = .ok Sample.function := by
    decide +kernel
  have hstmt := @Tree.Occurs.inside _ _ Sample.assignment .stmt [] [] _ _ _ .here
  have hblock := @Tree.Occurs.inside _ _ _ .block [Sample.leaf .openBrace "\x7b" 8]
    [Sample.leaf .closeBrace "\x7d" 17] _ _ _ hstmt
  have hfunc := @Tree.Occurs.inside _ _ _ .funcDecl [Sample.leaf .kwFunc "func" 0,
    Sample.leaf .ident "f" 5, Sample.leaf .openParen "(" 6, Sample.leaf .closeParen ")" 7]
    [Sample.leaf .semicolon ";" 18] _ _ _ hblock
  have hdecl := @Tree.Occurs.inside _ _ _ .decl [] [] _ _ _ hfunc
  have hoccurs := @Tree.Occurs.inside _ _ _ .program [] [Sample.leaf .eof "<EOF>" 19] _ _ _ hdecl
  obtain ⟨-, -, hsame⟩ := (compound_expands ht).2 _ _ _ _ .sub _ _ _ hoccurs .stmt rfl
  obtain ⟨t', ht', hnode⟩ := hsame "func f()\x7ba:=a-(b||c);\x7d;" (by decide +kernel)
  exact ⟨_, t', ht, ht', hnode⟩

end SyntaxTree

end MiniGoc
