import MiniGoc.Proofs.Soundness

/-!
# Index boxes in one group

A chain may take a run of index boxes at once or in several steps, so a token sequence can have
several derivations.  `Tree.grouped` puts every run into one group.  On chains this is the
only thing it does: `exists_chain` says that a grouped chain is the one that readers build from
its operand, boxes and links.
-/

namespace MiniGoc

open Grammar (miniGo)

namespace Tree

/-- The children of a chain, with the boxes of a chain inside put before those that follow it. -/
def joinBoxes : Forest → Forest
  | .node .chain (c :: b :: bs) :: d :: ds =>
    if b.isRule .arrayAccessBox && d.isRule .arrayAccessBox then (c :: b :: bs) ++ d :: ds
    else .node .chain (c :: b :: bs) :: d :: ds
  | cs => cs

mutual

/-- The tree with all boxes of a run in one group. -/
def grouped : SyntaxTree → SyntaxTree
  | .leaf t => .leaf t
  | .node r cs => .node r (if r = .chain then joinBoxes (groupedList cs) else groupedList cs)

/-- Trees with all boxes of a run in one group. -/
def groupedList : List SyntaxTree → List SyntaxTree
  | [] => []
  | c :: cs => c.grouped :: groupedList cs

end

@[simp] theorem grouped_leaf (t : Token TokenKind) : grouped (.leaf t) = .leaf t := by
  rw [grouped]

theorem grouped_node {r : Rule} {cs : Forest} (hr : r ≠ .chain) :
    grouped (.node r cs) = .node r (groupedList cs) := by
  rw [grouped, if_neg hr]

theorem grouped_chain {cs : Forest} :
    grouped (.node .chain cs) = .node .chain (joinBoxes (groupedList cs)) := by
  rw [grouped, if_pos rfl]

@[simp] theorem groupedList_nil : groupedList [] = [] := by rw [groupedList]

@[simp] theorem groupedList_cons (c : SyntaxTree) (cs : Forest) :
    groupedList (c :: cs) = c.grouped :: groupedList cs := by rw [groupedList]

@[simp] theorem groupedList_append (cs ds : Forest) :
    groupedList (cs ++ ds) = groupedList cs ++ groupedList ds := by
  induction cs with
  | nil => simp
  | cons c cs ih => simp [ih]

@[simp] theorem isRule_grouped (t : SyntaxTree) (r : Rule) : t.grouped.isRule r = t.isRule r := by
  cases t <;> simp [grouped, isRule]

end Tree

namespace Reader

open MiniGoc.Tree (groupedList joinBoxes)

/-! ## Chains -/

def Link.grouped (l : Link) : Link := ⟨l.rule, groupedList l.member, groupedList l.boxes⟩

/-- The tokens of an operand with its boxes and links. -/
def primaryLeaves (o bs : Forest) (ls : List Link) : TokenList :=
  Tree.leavesList (o ++ bs) ++ ls.flatMap Link.leaves

/-- The chain of an operand, boxes and links whose trees are grouped. -/
def groupedChain (o bs : Forest) (ls : List Link) : SyntaxTree :=
  chain (groupedList o) (groupedList bs) (ls.map Link.grouped)

/-- Index boxes only. -/
def AllBoxes (cs : Forest) : Prop := ∀ c ∈ cs, c.isRule .arrayAccessBox = true

variable {bs o cs : Forest} {ls : List Link} {r : Rule} {ps : List Grammar.RulePart}
  {c : SyntaxTree}

theorem allBoxes_of_grows (h : miniGo.Grows boxParts bs) : AllBoxes bs := by
  obtain ⟨css, rfl, hcss⟩ := Grammar.grows_many.1 h
  intro c hc
  obtain ⟨ds, hds, hc⟩ := List.mem_flatten.1 hc
  obtain ⟨es, rfl, -⟩ := Grammar.grows_rule.1 (hcss ds hds)
  obtain rfl := List.mem_singleton.1 hc
  rfl

theorem ne_nil_of_boxes (h : miniGo.Grows [.many1 .far [.rule .arrayAccessBox]] bs) : bs ≠ [] := by
  obtain ⟨t, ts, hts, -⟩ := h.leaves_eq_cons rfl
  rintro rfl
  simp at hts

theorem AllBoxes.grouped (h : AllBoxes bs) : AllBoxes (groupedList bs) := by
  induction bs with
  | nil => simpa using h
  | cons b bs ih =>
    have hb := h b (by simp)
    have hbs := ih fun c hc => h c (by simp [hc])
    simpa [AllBoxes, hb] using hbs

theorem chain_concat {l : Link} :
    chain o bs (ls ++ [l]) = grown (grown (chain o bs ls) l.member) l.boxes := by
  simp [chain]

theorem MemberParts.exists_leaf (hp : MemberParts r ps) (h : miniGo.Grows ps cs) :
    ∃ t ms, cs = .leaf t :: ms := by
  cases hp with
  | access | call =>
    obtain ⟨as, bs, rfl, ha, -⟩ := Grammar.grows_cons.1 h
    obtain ⟨t, -, rfl⟩ := Grammar.grows_token.1 ha
    exact ⟨t, bs, rfl⟩

theorem joinBoxes_of_not_box {d : SyntaxTree} {ds : Forest} (h : d.isRule .arrayAccessBox = false) :
    joinBoxes (c :: d :: ds) = c :: d :: ds := by
  unfold joinBoxes
  split
  · rename_i heq
    cases heq
    simp [h]
  · rfl

/-- Boxes that follow a chain join those it ends in. -/
theorem node_joinBoxes (ds : Forest) (hds : ∀ c b es, ds = c :: b :: es →
    b.isRule .arrayAccessBox = false) (hbs : AllBoxes bs) (hcs : AllBoxes cs) (hne : cs ≠ []) :
    Tree.node .chain (joinBoxes (grown (.node .chain ds) bs :: cs)) =
      grown (.node .chain ds) (bs ++ cs) := by
  obtain ⟨c, cs, rfl⟩ := List.exists_cons_of_ne_nil hne
  cases bs with
  | cons b bs =>
    have hb := hbs b (by simp)
    have hc := hcs c (by simp)
    simp [grown, joinBoxes, hb, hc]
  | nil =>
    rcases ds with _ | ⟨d, _ | ⟨b, es⟩⟩
    · rfl
    · rfl
    · simp [grown, joinBoxes, hds d b es rfl]

theorem Primary.add_link {l : Link} (h : Primary o bs ls) (hl : l.Grows) :
    Primary o bs (ls ++ [l]) :=
  ⟨h.operand, h.boxes, List.forall_mem_append.2 ⟨h.links, by simpa using hl⟩⟩

/-- More boxes after a chain. -/
theorem Primary.exists_boxes (h : Primary o bs ls) (hcs : miniGo.Grows boxParts cs)
    (hne : cs ≠ []) :
    ∃ bs' ls', Primary o bs' ls' ∧
      primaryLeaves o bs' ls' = primaryLeaves o bs ls ++ Tree.leavesList cs ∧
      groupedChain o bs' ls' =
        .node .chain (joinBoxes (groupedChain o bs ls :: groupedList cs)) := by
  have hcs' := (allBoxes_of_grows hcs).grouped
  have hne' : groupedList cs ≠ [] := by
    obtain ⟨c, cs, rfl⟩ := List.exists_cons_of_ne_nil hne
    simp
  rcases List.eq_nil_or_concat ls with rfl | ⟨ks, l, rfl⟩
  · -- The boxes of the operand.
    refine ⟨bs ++ cs, [], ⟨h.operand, h.boxes.many_append hcs, by simp⟩,
      by simp [primaryLeaves], ?_⟩
    obtain ⟨ds, rfl, -⟩ := Grammar.grows_rule.1 h.operand
    have hjoin := node_joinBoxes (groupedList [.node .operand ds]) (by simp)
      (allBoxes_of_grows h.boxes).grouped hcs' hne'
    simpa [groupedChain, chain] using hjoin.symm
  · -- The boxes of the last link.
    obtain ⟨⟨ps, hp, hm⟩, hb⟩ := h.links l (by simp)
    have hks : Primary o bs ks := ⟨h.operand, h.boxes, fun k hk => h.links k (by simp [hk])⟩
    refine ⟨bs, _, hks.add_link (l := ⟨l.rule, l.member, l.boxes ++ cs⟩)
      ⟨⟨ps, hp, hm⟩, hb.many_append hcs⟩, ?_, ?_⟩
    · simp [primaryLeaves, Link.leaves]
    · obtain ⟨t, ms, hms⟩ := hp.exists_leaf hm
      have hjoin := node_joinBoxes (groupedChain o bs ks :: groupedList l.member)
        (by simp [hms, Tree.isRule]) (allBoxes_of_grows hb).grouped hcs' hne'
      simpa [groupedChain, Link.grouped, chain_concat, hms, grown] using hjoin.symm

theorem Primary.add_member {m : Forest} (h : Primary o bs ls) (hp : MemberParts r ps)
    (hm : miniGo.Grows ps m) :
    Primary o bs (ls ++ [⟨r, m, []⟩]) ∧
      primaryLeaves o bs (ls ++ [⟨r, m, []⟩]) = primaryLeaves o bs ls ++ Tree.leavesList m ∧
      groupedChain o bs (ls ++ [⟨r, m, []⟩]) =
        .node .chain (joinBoxes (groupedChain o bs ls :: groupedList m)) := by
  refine ⟨h.add_link ⟨⟨ps, hp, hm⟩, grows_no_boxes⟩, by simp [primaryLeaves, Link.leaves], ?_⟩
  · obtain ⟨t, ms, rfl⟩ := hp.exists_leaf hm
    rw [Tree.groupedList_cons, Tree.grouped_leaf, joinBoxes_of_not_box rfl]
    simp [groupedChain, Link.grouped, chain_concat, grown]

/-- A chain is an operand with boxes and links, and grouped it is what readers build from them. -/
theorem exists_chain (h : miniGo.Grows [.rule .chain] [c]) :
    ∃ o bs ls, Primary o bs ls ∧ c.leaves = primaryLeaves o bs ls ∧
      c.grouped = groupedChain o bs ls := by
  obtain ⟨cs, hc, -⟩ := Grammar.grows_rule.1 h
  have hd : c.Derives miniGo := h.2 c (by simp)
  clear h
  induction hd generalizing cs with
  | leaf t => cases hc
  | @node r ds a ha hw hds ih =>
    cases hc
    have hg : miniGo.Grows a ds := ⟨hw, hds⟩
    -- The chain inside, if there is one, by induction.
    have inner (p : List Grammar.RulePart) (hp : miniGo.Grows (.rule .chain :: p) ds) :
        ∃ d rest o bs ls, ds = d :: rest ∧ miniGo.Grows p rest ∧ Primary o bs ls ∧
          d.leaves = primaryLeaves o bs ls ∧ d.grouped = groupedChain o bs ls := by
      obtain ⟨as, rest, rfl, has, hrest⟩ := Grammar.grows_cons.1 hp
      obtain ⟨es, rfl, -⟩ := Grammar.grows_rule.1 has
      obtain ⟨o, bs, ls, h⟩ := ih (.node .chain es) (by simp) es rfl
      exact ⟨_, rest, o, bs, ls, rfl, hrest, h⟩
    simp only [miniGo, Grammar.miniGoAlternatives, List.mem_cons, List.not_mem_nil, or_false] at ha
    rcases ha with rfl | rfl | rfl | rfl
    · obtain ⟨es, rfl, -⟩ := Grammar.grows_rule.1 hg
      refine ⟨_, [], [], ⟨hg, grows_no_boxes, by simp⟩, by simp [primaryLeaves], ?_⟩
      simp [Tree.grouped_chain, groupedChain, chain, grown, joinBoxes, Tree.grouped_node]
    · obtain ⟨d, m, o, bs, ls, rfl, hm, h, hl, hd⟩ := inner _ hg
      obtain ⟨h', hl', hd'⟩ := h.add_member .access hm
      exact ⟨o, bs, _, h', by simp [hl', hl], by simp [Tree.grouped_chain, hd', hd]⟩
    · obtain ⟨d, cs, o, bs, ls, rfl, hcs, h, hl, hd⟩ := inner _ hg
      obtain ⟨bs', ls', h', hl', hd'⟩ := h.exists_boxes hcs.many_of_many1 (ne_nil_of_boxes hcs)
      exact ⟨o, bs', ls', h', by simp [hl', hl], by simp [Tree.grouped_chain, hd', hd]⟩
    · obtain ⟨d, m, o, bs, ls, rfl, hm, h, hl, hd⟩ := inner _ hg
      obtain ⟨h', hl', hd'⟩ := h.add_member .call hm
      exact ⟨o, bs, _, h', by simp [hl', hl], by simp [Tree.grouped_chain, hd', hd]⟩

theorem exists_primary_of_member {m bs' : Forest} (hc : miniGo.Grows [.rule .chain] [c])
    (hp : MemberParts r ps) (hm : miniGo.Grows ps m) (hb : miniGo.Grows boxParts bs') :
    ∃ o bs ls, Primary o bs ls ∧ Tree.leavesList (c :: m ++ bs') = primaryLeaves o bs ls ∧
      primaryTree (groupedList o) (groupedList bs) (ls.map Link.grouped) =
        if bs'.isEmpty then [.node r (groupedList (c :: m))]
        else [.node .arrayAccess (groupedList (c :: m ++ bs'))] := by
  obtain ⟨o, bs, ls, h, hl, hc⟩ := exists_chain hc
  refine ⟨o, bs, _, h.add_link (l := ⟨r, m, bs'⟩) ⟨⟨ps, hp, hm⟩, hb⟩, ?_, ?_⟩
  · simp [primaryLeaves, Link.leaves, hl]
  · cases bs' <;> simp [primaryTree, Link.grouped, hc, groupedChain]

/-- What an expression is read from: grouped it is what readers build from an operand with boxes
and links. -/
def IsRead (cs : Forest) : Prop :=
  ∃ o bs ls, Primary o bs ls ∧ Tree.leavesList cs = primaryLeaves o bs ls ∧
    primaryTree (groupedList o) (groupedList bs) (ls.map Link.grouped) = groupedList cs

theorem isRead_member (hp : MemberParts r ps) (hcs : miniGo.Grows [.rule r] cs) : IsRead cs := by
  have hr : miniGo.alternatives r = Grammar.one (.rule .chain :: ps) ∧ r ≠ .chain := by
    cases hp <;> exact ⟨rfl, by decide⟩
  obtain ⟨ds, rfl, b, hb, hds⟩ := Grammar.grows_rule.1 hcs
  obtain rfl : b = .rule .chain :: ps := by simpa [hr.1, Grammar.one] using hb
  obtain ⟨as, m, rfl, hc, hm⟩ := Grammar.grows_cons.1 hds
  obtain ⟨es, rfl, -⟩ := Grammar.grows_rule.1 hc
  obtain ⟨o, bs, ls, h, hl, ht⟩ := exists_primary_of_member hc hp hm grows_no_boxes
  exact ⟨o, bs, ls, h, by simpa using hl, by simpa [Tree.grouped_node hr.2] using ht⟩

theorem isRead_arrayAccess (hcs : miniGo.Grows [.rule .arrayAccess] cs) : IsRead cs := by
  have hnode (ds : Forest) : Tree.grouped (.node .arrayAccess ds) =
      .node .arrayAccess (groupedList ds) := Tree.grouped_node (by decide)
  obtain ⟨ds, rfl, b, hb, hds⟩ := Grammar.grows_rule.1 hcs
  simp only [miniGo, Grammar.miniGoAlternatives, List.mem_cons, List.not_mem_nil, or_false] at hb
  rcases hb with rfl | rfl
  · obtain ⟨as, rest, rfl, hc, hrest⟩ := Grammar.grows_cons.1 hds
    obtain ⟨es, rfl, -⟩ := Grammar.grows_rule.1 hc
    obtain ⟨m, bs', rfl, hm, hb⟩ := Grammar.grows_cons.1 hrest
    obtain ⟨ps, hps, hm⟩ := Grammar.grows_choice.1 hm
    obtain ⟨r, hp⟩ : ∃ r, MemberParts r ps := by
      simp only [List.mem_cons, List.not_mem_nil, or_false] at hps
      rcases hps with rfl | rfl
      · exact ⟨_, .access⟩
      · exact ⟨_, .call⟩
    obtain ⟨o, bs, ls, h, hl, ht⟩ := exists_primary_of_member hc hp hm hb.many_of_many1
    have hne := ne_nil_of_boxes hb
    exact ⟨o, bs, ls, h, by simpa using hl, by simpa [hnode, hne] using ht⟩
  · obtain ⟨o, bs, rfl, ho, hb⟩ := Grammar.grows_cons.1 hds
    have hne := ne_nil_of_boxes hb
    refine ⟨o, bs, [], ⟨ho, hb.many_of_many1, by simp⟩, by simp [primaryLeaves], ?_⟩
    cases bs with
    | nil => exact absurd rfl hne
    | cons b bs => simp [primaryTree, hnode]

theorem isRead_expr6 {a : List Grammar.RulePart} (ha : a ∈ (miniGo.alternatives .expr6).alts)
    (hcs : miniGo.Grows a cs) : IsRead cs := by
  simp only [miniGo, Grammar.miniGoAlternatives, List.mem_cons, List.not_mem_nil, or_false] at ha
  rcases ha with rfl | rfl | rfl | rfl
  · exact isRead_member .access hcs
  · exact isRead_arrayAccess hcs
  · exact isRead_member .call hcs
  · exact ⟨cs, [], [], ⟨hcs, grows_no_boxes, by simp⟩, by simp [primaryLeaves],
      by simp [primaryTree]⟩

end Reader

end MiniGoc
