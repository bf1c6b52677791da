import MiniGoc.Proofs.Merging
import MiniGoc.Proofs.Parsing

/-!
# Unambiguity up to the grouping of boxes

A token sequence may have several derivations, but they differ in the grouping of index boxes only:
their grouped forms are the tree that is read (`SyntaxTree.read_of_trees`).  Grouping keeps the
node of a derivation up to merging (`SyntaxTree.toNode_grouped`), so all derivations have the same
merged node.  In a grouped tree no run of boxes is split (`SyntaxTree.unsplit_grouped`).

Both inductions need the forms that a chain can have (`ChainShape`), for the chain of a
derivation and for the grouped one.
-/

namespace MiniGoc

open Grammar (miniGo)
open MiniGoc.Tree (groupedList joinBoxes)
open Reader (AllBoxes)

/-! ## Chains -/

/-- The last tree is an index box. -/
def EndsInBox (cs : Forest) : Prop := ∃ b ∈ cs.getLast?, b.isRule .arrayAccessBox = true

/-- The children of a chain: an operand, a chain and a member, or a chain and its boxes. -/
inductive ChainShape : Forest → Prop where
  | operand {o : SyntaxTree} : o.isRule .arrayAccessBox = false → ChainShape [o]
  | member {c d m : SyntaxTree} : d.isRule .arrayAccessBox = false →
      m.isRule .arrayAccessBox = false → ChainShape [c, d, m]
  | boxes {c b : SyntaxTree} {bs : Forest} : c.isRule .chain = true → AllBoxes (b :: bs) →
      ChainShape (c :: b :: bs)

theorem AllBoxes.endsInBox {c b : SyntaxTree} {bs : Forest} (h : AllBoxes (b :: bs)) :
    EndsInBox (c :: b :: bs) := by
  obtain ⟨d, hd⟩ := List.getLast?_isSome.2 (List.cons_ne_nil b bs) |> Option.isSome_iff_exists.1
  exact ⟨d, by simpa [List.getLast?_cons_cons] using hd, h d (List.mem_of_getLast? hd)⟩

theorem chainShape_of_derives {cs : Forest} (h : Tree.Derives miniGo (.node .chain cs)) :
    ChainShape cs := by
  obtain ⟨a, ha, hg⟩ := Grammar.derives_node.1 h
  have hchain {ps : List Grammar.RulePart} (h : miniGo.Grows (.rule .chain :: ps) cs) :
      ∃ c bs, cs = c :: bs ∧ c.isRule .chain = true ∧ miniGo.Grows ps bs := by
    obtain ⟨as, bs, rfl, hc, hbs⟩ := Grammar.grows_cons.1 h
    obtain ⟨es, rfl, -⟩ := Grammar.grows_rule.1 hc
    exact ⟨_, bs, rfl, rfl, hbs⟩
  have hmember {p : Grammar.RulePart} (h : miniGo.Grows [.rule .chain, .token .dot, p] cs)
      (hp : ∀ es, miniGo.Grows [p] es → ∃ m, es = [m] ∧ m.isRule .arrayAccessBox = false) :
      ChainShape cs := by
    obtain ⟨c, bs, rfl, -, hbs⟩ := hchain h
    obtain ⟨as, es, rfl, hd, hes⟩ := Grammar.grows_cons.1 hbs
    obtain ⟨d, -, rfl⟩ := Grammar.grows_token.1 hd
    obtain ⟨m, rfl, hm⟩ := hp es hes
    exact .member rfl hm
  simp only [miniGo, Grammar.miniGoAlternatives, List.mem_cons, List.not_mem_nil, or_false] at ha
  obtain rfl | rfl | rfl | rfl := ha
  · obtain ⟨es, rfl, -⟩ := Grammar.grows_rule.1 hg
    exact .operand rfl
  · refine hmember hg fun es hes => ?_
    obtain ⟨m, -, rfl⟩ := Grammar.grows_token.1 hes
    exact ⟨_, rfl, rfl⟩
  · obtain ⟨c, bs, rfl, hc, hbs⟩ := hchain hg
    obtain ⟨b, bs, rfl⟩ := List.exists_cons_of_ne_nil (Reader.ne_nil_of_boxes hbs)
    exact .boxes hc (Reader.allBoxes_of_grows hbs.many_of_many1)
  · refine hmember hg fun es hes => ?_
    obtain ⟨ds, rfl, -⟩ := Grammar.grows_rule.1 hes
    exact ⟨_, rfl, rfl⟩

/-- Boxes behind a chain: the chain ends in boxes, and they are joined, or it does not. -/
theorem joinBoxes_cases {es bs : Forest} {b : SyntaxTree} (hes : ChainShape es)
    (hb : AllBoxes (b :: bs)) :
    (∃ c d ds, es = c :: d :: ds ∧ c.isRule .chain = true ∧ AllBoxes (d :: ds) ∧
      joinBoxes (.node .chain es :: b :: bs) = c :: d :: (ds ++ b :: bs)) ∨
    ¬ EndsInBox es ∧ joinBoxes (.node .chain es :: b :: bs) = .node .chain es :: b :: bs := by
  cases hes with
  | operand ho => exact .inr ⟨by simp [EndsInBox, ho], rfl⟩
  | member hd hm => exact .inr ⟨by simp [EndsInBox, hm], by simp [joinBoxes, hd]⟩
  | @boxes c d ds hc hds =>
    have hb' := hb b (by simp)
    have hd := hds d (by simp)
    exact .inl ⟨c, d, ds, rfl, hc, hds, by simp [joinBoxes, hb', hd]⟩

theorem chainShape_grouped {t : SyntaxTree} (h : t.Derives miniGo) :
    ∀ cs, t = .node .chain cs → ChainShape (joinBoxes (groupedList cs)) := by
  induction h with
  | leaf => nofun
  | @node r cs a ha hs hc ih =>
    rintro _ ⟨⟩
    cases chainShape_of_derives (.node ha hs hc) with
    | @operand o ho =>
      have ho' : o.grouped.isRule .arrayAccessBox = false := by simpa using ho
      simpa [joinBoxes] using ChainShape.operand ho'
    | member hd hm =>
      simp only [Tree.groupedList_cons, Tree.groupedList_nil]
      rw [Reader.joinBoxes_of_not_box (by simpa using hd)]
      exact .member (by simpa using hd) (by simpa using hm)
    | @boxes c b bs hchain hboxes =>
      obtain ⟨es, rfl⟩ := exists_of_isRule hchain
      have hes := ih _ (by simp) es rfl
      have hbs : AllBoxes (b.grouped :: groupedList bs) := by simpa using hboxes.grouped
      rw [Tree.groupedList_cons, Tree.groupedList_cons, Tree.grouped_chain]
      obtain ⟨c, d, ds, -, hc, hds, hj⟩ | ⟨-, hj⟩ := joinBoxes_cases hes hbs <;> rw [hj]
      · refine .boxes hc fun x hx => ?_
        obtain hx | hx := List.mem_append.1 (List.cons_append ▸ hx)
        · exact hds x hx
        · exact hbs x hx
      · exact .boxes rfl hbs

/-- What grouping does to the children of a chain.  The boxes of the chain inside are joined
with those behind it, or there was no run to join. -/
theorem joinBoxes_grouped {cs : Forest} (h : Tree.Derives miniGo (.node .chain cs)) :
    (∃ c d ds b bs, groupedList cs = .node .chain (c :: d :: ds) :: b :: bs ∧
      c.isRule .chain = true ∧ AllBoxes (d :: ds) ∧ AllBoxes (b :: bs) ∧
      joinBoxes (groupedList cs) = c :: d :: (ds ++ b :: bs)) ∨
    joinBoxes (groupedList cs) = groupedList cs ∧ (EndsInBox (groupedList cs) →
      ∀ es, (groupedList cs).head? = some (.node .chain es) → ¬ EndsInBox es) := by
  cases chainShape_of_derives h with
  | operand ho => exact .inr ⟨by simp [joinBoxes], by simp [EndsInBox, ho]⟩
  | member hd hm =>
    refine .inr ⟨?_, by simp [EndsInBox, hm]⟩
    simp only [Tree.groupedList_cons]
    exact Reader.joinBoxes_of_not_box (by simpa using hd)
  | @boxes c b bs hchain hboxes =>
    obtain ⟨es, rfl⟩ := exists_of_isRule hchain
    have hc : Tree.Derives miniGo (.node .chain es) := by
      cases h with | node _ _ hc => exact hc _ (by simp)
    have hbs : AllBoxes (b.grouped :: groupedList bs) := by simpa using hboxes.grouped
    simp only [Tree.groupedList_cons, Tree.grouped_chain]
    obtain ⟨c, d, ds, hes, hc, hds, hj⟩ | ⟨hno, hj⟩ :=
      joinBoxes_cases (chainShape_grouped hc es rfl) hbs
    · exact .inl ⟨c, d, ds, _, _, by rw [hes], hc, hds, hbs, hj⟩
    · refine .inr ⟨hj, fun _ es' hes' => ?_⟩
      obtain rfl : _ = es' := by simpa using hes'
      exact hno

/-! ## Nodes -/

namespace SyntaxTree

open Node (merged)

theorem toNode_boxes {c b : SyntaxTree} {bs : Forest} (hc : c.isRule .chain = true)
    (hb : AllBoxes (b :: bs)) : toNode (.node .chain (c :: b :: bs)) =
      toNode c >>= fun x => (b :: bs).mapM toNode >>= fun is => pure (.cell x is) := by
  have hmap : ((b :: bs).map fun c => Build.Built.mk c (toNode c)).mapM Build.Built.node =
      (b :: bs).mapM toNode := List.mapM_map
  rw [toNode, parts_eq, ← hmap]
  exact Build.node_chain_boxes hc (by simpa [AllBoxes] using hb)

variable {d t : SyntaxTree}

/-- Two index lists one after the other are one, up to merging. -/
theorem toNode_joined {c b : SyntaxTree} {ds bs : Forest} (hc : c.isRule .chain = true)
    (hds : AllBoxes (d :: ds)) (hbs : AllBoxes (b :: bs)) :
    Build.Agree merged (toNode (.node .chain (.node .chain (c :: d :: ds) :: b :: bs)))
      (toNode (.node .chain (c :: d :: (ds ++ b :: bs)))) := by
  have hall : AllBoxes (d :: (ds ++ b :: bs)) := by
    intro x hx
    obtain hx | hx := List.mem_append.1 (List.cons_append ▸ hx)
    · exact hds x hx
    · exact hbs x hx
  rw [toNode_boxes rfl hbs, toNode_boxes hc hds, toNode_boxes hc hall, ← List.cons_append,
    List.mapM_append]
  unfold Build.Agree
  cases toNode c with
  | error e => rfl
  | ok x =>
    cases (d :: ds).mapM toNode with
    | error e => rfl
    | ok js =>
      cases (b :: bs).mapM toNode with
      | error e => rfl
      | ok is =>
        have : merged (.cell (.cell x js) is) = merged (.cell x (js ++ is)) := by
          simp [merged, Node.index_append]
        exact congrArg Except.ok this

theorem leavesList_joinBoxes (cs : Forest) :
    Tree.leavesList (joinBoxes cs) = Tree.leavesList cs := by
  unfold joinBoxes
  split
  · split <;> simp
  · rfl

theorem groupedList_eq (cs : Forest) : groupedList cs = cs.map Tree.grouped := by
  induction cs with
  | nil => simp
  | cons c cs ih => simp [ih]

theorem leaves_grouped (h : t.Derives miniGo) : t.grouped.leaves = t.leaves := by
  induction h with
  | leaf => simp
  | @node r cs a _ _ _ ih =>
    have hcs : Tree.leavesList (groupedList cs) = Tree.leavesList cs := by
      rw [groupedList_eq, Tree.leavesList_eq, Tree.leavesList_eq, List.flatMap_map]
      exact List.flatMap_congr ih
    rw [Tree.grouped]
    split <;> simp [leavesList_joinBoxes, hcs]

theorem isToken_grouped (t : SyntaxTree) (k : TokenKind) :
    t.grouped.isToken k = t.isToken k := by
  cases t <;> simp [Tree.grouped, Tree.isToken]

/-- Grouping keeps the node up to merging. -/
theorem toNode_grouped (h : t.Derives miniGo) : Build.Agree merged t.toNode t.grouped.toNode := by
  induction h with
  | leaf t => rw [Tree.grouped_leaf]; rfl
  | @node r cs a ha hs hc ih =>
    have hsame : Build.Parts.Same (parts cs) (parts (groupedList cs)) := by
      rw [parts_eq, parts_eq, groupedList_eq, List.map_map, Build.Parts.Same,
        List.forall₂_map_left_iff, List.forall₂_map_right_iff, List.forall₂_same]
      intro c hmem
      refine ⟨fun s => (Tree.isRule_grouped c s).symm, fun k => (isToken_grouped c k).symm, ?_, ?_⟩
      · simp [Tree.text, leaves_grouped (hc c hmem)]
      · exact ih c hmem
    have hnode : Build.Agree merged (toNode (.node r cs)) (toNode (.node r (groupedList cs))) := by
      rw [toNode, toNode]
      exact Build.node_agree hsame r
    by_cases hr : r = .chain
    · subst hr
      rw [Tree.grouped_chain]
      refine hnode.trans ?_
      obtain ⟨c, d, ds, b, bs, hcs, hchain, hds, hbs, hj⟩ | ⟨hj, -⟩ :=
        joinBoxes_grouped (.node ha hs hc)
      · rw [hj, hcs]
        exact toNode_joined hchain hds hbs
      · rw [hj]
    · rwa [Tree.grouped_node hr]

/-! ## Runs of boxes -/

/-- No chain that ends in boxes starts with a chain that ends in boxes. -/
def Unsplit (t : SyntaxTree) : Prop :=
  ∀ cs, (Rule.chain, cs) ∈ t.nodes → EndsInBox cs →
    ∀ ds, cs.head? = some (.node .chain ds) → ¬ EndsInBox ds

theorem mem_nodesList_joinBoxes {x : Rule × Forest} {cs : Forest}
    (h : x ∈ Tree.nodesList (joinBoxes cs)) : x ∈ Tree.nodesList cs := by
  unfold joinBoxes at h
  split at h
  · split at h
    · rw [Tree.nodesList, Tree.nodes]
      simp only [Tree.mem_nodesList, List.mem_append, List.mem_cons] at h ⊢
      grind
    · exact h
  · exact h

theorem unsplit_grouped (h : t.Derives miniGo) : Unsplit t.grouped := by
  induction h with
  | leaf t => intro cs hcs; simp [Tree.nodes] at hcs
  | @node r cs a ha hs hc ih =>
    have hinner (es : Forest) (hes : (Rule.chain, es) ∈ Tree.nodesList (groupedList cs)) :
        EndsInBox es → ∀ ds, es.head? = some (.node .chain ds) → ¬ EndsInBox ds := by
      rw [groupedList_eq, Tree.mem_nodesList] at hes
      obtain ⟨_, hgrouped, hes⟩ := hes
      obtain ⟨c, hmem, rfl⟩ := List.mem_map.1 hgrouped
      exact ih c hmem es hes
    intro es hes
    by_cases hr : r = .chain
    · subst hr
      rw [Tree.grouped_chain, Tree.nodes, List.mem_cons] at hes
      obtain hes | hes := hes
      · obtain rfl := (Prod.mk.inj hes).2
        obtain ⟨c, d, ds, b, bs, hcs, hchain, hds, -, hj⟩ | ⟨hj, hno⟩ :=
          joinBoxes_grouped (.node ha hs hc)
        · -- The joined chain starts like the one inside it, which ends in boxes.
          have hmem : (Rule.chain, c :: d :: ds) ∈ Tree.nodesList (groupedList cs) := by
            simp [hcs, Tree.nodesList, Tree.nodes]
          rw [hj]
          exact fun _ fs hfs => hinner _ hmem (AllBoxes.endsInBox hds) fs hfs
        · rwa [hj]
      · exact hinner es (mem_nodesList_joinBoxes hes)
    · rw [Tree.grouped_node hr, Tree.nodes, List.mem_cons] at hes
      obtain hes | hes := hes
      · exact absurd (Prod.mk.inj hes).1.symm hr
      · exact hinner es hes

/-! ## Programs -/

theorem trees_of_derives (hr : d.isRule .program = true) (hd : d.Derives miniGo) :
    Reader.Trees [.rule .program] d.leaves [d] := by
  obtain ⟨cs, rfl⟩ := exists_of_isRule hr
  exact ⟨by simp, Grammar.grows_rule.2 ⟨cs, rfl, Grammar.derives_node.1 hd⟩⟩

/-- Derivations of the same program have the same grouped form. -/
theorem grouped_eq {e : SyntaxTree} (hd : Reader.Trees [.rule .program] d.leaves [d])
    (he : Reader.Trees [.rule .program] e.leaves [e]) (h : d.leaves = e.leaves) :
    d.grouped = e.grouped := by
  have hread := (read_of_trees hd).symm.trans (h ▸ read_of_trees he)
  exact Except.ok.inj hread

/-- Two derivations of the same program have the same node up to merging, and the tree that is
read has no split run of boxes. -/
theorem program_unambiguous :
    (∀ d e : SyntaxTree, d.isRule .program = true → e.isRule .program = true →
      d.Derives miniGo → e.Derives miniGo → d.leaves = e.leaves →
      d.toNode.map merged = e.toNode.map merged) ∧
    ∀ source t, parse source = .ok t → Unsplit t := by
  constructor
  · intro d e hdr her hd he hleaves
    have hgrouped := grouped_eq (trees_of_derives hdr hd) (trees_of_derives her he) hleaves
    calc d.toNode.map merged = d.grouped.toNode.map merged := toNode_grouped hd
      _ = e.grouped.toNode.map merged := by rw [hgrouped]
      _ = e.toNode.map merged := (toNode_grouped he).symm
  · intro source t ht
    -- The tree that is read is its own grouped form.
    have htrees := trees_of_parse ht
    have hself : t.grouped = t :=
      Except.ok.inj ((read_of_trees htrees).symm.trans (parse_ok_iff.1 ht))
    rw [← hself]
    exact unsplit_grouped (htrees.2.2 t (by simp))

/-! ## A program with two derivations -/

namespace Sample

/-- A token of the first line. -/
def leaf (k : TokenKind) (text : String) (column : Nat) : SyntaxTree :=
  .leaf ⟨k, text, ⟨1, column⟩⟩

/-- The expression of a primary expression. -/
def wrap (t : SyntaxTree) : SyntaxTree :=
  .node .expr [.node .expr1 [.node .expr2 [.node .expr3 [.node .expr4 [.node .expr5
    [.node .expr6 [t]]]]]]]

def name (text : String) (column : Nat) : SyntaxTree := .node .operand [leaf .ident text column]

/-- A name in an index box. -/
def box (text : String) (column : Nat) : SyntaxTree :=
  .node .arrayAccessBox [leaf .openBracket "[" column, wrap (name text (column + 1)),
    leaf .closeBracket "]" (column + 2)]

/-- The chain of `b[c][d]` with its boxes in one group. -/
def joined : SyntaxTree := .node .chain [.node .chain [name "b" 8], box "c" 9, box "d" 12]

/-- The chain of `b[c][d]` with one group for each box. -/
def split : SyntaxTree :=
  .node .chain [.node .chain [.node .chain [name "b" 8], box "c" 9], box "d" 12]

def program (chain : SyntaxTree) : SyntaxTree :=
  .node .program [.node .decl [.node .constDecl [leaf .kwConst "const" 0, leaf .ident "a" 6,
    leaf .equal "=" 7,
    wrap (.node .structAccess [chain, leaf .dot "." 15, leaf .ident "e" 16]),
    leaf .semicolon ";" 17]], leaf .eof "<EOF>" 18]

theorem derives_leaf (k : TokenKind) (text : String) (column : Nat) :
    (leaf k text column).Derives miniGo := .leaf _

variable {cs : Forest}

theorem derives_unit {r s : Rule} (h : [.rule s] ∈ (miniGo.alternatives r).alts)
    (hs : Tree.Derives miniGo (.node s cs)) : Tree.Derives miniGo (.node r [.node s cs]) :=
  .node h (.cons .rule .nil) (by simpa using hs)

theorem derives_wrap {s : Rule} (h : [.rule s] ∈ (miniGo.alternatives .expr6).alts)
    (hs : Tree.Derives miniGo (.node s cs)) : (wrap (.node s cs)).Derives miniGo :=
  derives_unit (.tail _ (.head _)) (derives_unit (.tail _ (.head _)) (derives_unit
    (.tail _ (.head _)) (derives_unit (.tail _ (.head _)) (derives_unit (.tail _ (.head _))
      (derives_unit (.tail _ (.head _)) (derives_unit h hs))))))

theorem derives_name (text : String) (column : Nat) : (name text column).Derives miniGo := by
  refine .node (a := [.token .ident]) (by simp [miniGo, Grammar.miniGoAlternatives])
    (.cons .token .nil) ?_
  simp [derives_leaf]

theorem derives_box (text : String) (column : Nat) : (box text column).Derives miniGo := by
  refine .node (.head _) (.cons .token (.cons .rule (.cons .token .nil))) ?_
  have h : (wrap (name text (column + 1))).Derives miniGo :=
    derives_wrap (by simp [miniGo, Grammar.miniGoAlternatives]) (derives_name text (column + 1))
  simp [derives_leaf, h]

theorem derives_operand : Tree.Derives miniGo (.node .chain [name "b" 8]) :=
  derives_unit (.head _) (derives_name "b" 8)

theorem derives_joined : joined.Derives miniGo :=
  .node (.tail _ (.tail _ (.head _))) (.cons .rule (.cons (.some (.cons .rule .nil)
    (.more (.cons .rule .nil) .none)) .nil)) (by simp [derives_operand, derives_box])

theorem derives_split : split.Derives miniGo := by
  have hinner : Tree.Derives miniGo (.node .chain [.node .chain [name "b" 8], box "c" 9]) :=
    .node (.tail _ (.tail _ (.head _))) (.cons .rule (.cons (.some (.cons .rule .nil) .none) .nil))
      (by simp [derives_operand, derives_box])
  exact .node (.tail _ (.tail _ (.head _))) (.cons .rule (.cons (.some (.cons .rule .nil) .none)
    .nil)) (by simp [hinner, derives_box])

theorem derives_program (h : Tree.Derives miniGo (.node .chain cs)) :
    (program (.node .chain cs)).Derives miniGo := by
  have haccess : Tree.Derives miniGo (.node .structAccess
      [.node .chain cs, leaf .dot "." 15, leaf .ident "e" 16]) :=
    .node (.head _) (.cons .rule (.cons .token (.cons .token .nil)))
      (by simp [derives_leaf, h])
  have hdecl := derives_wrap (.head _) haccess
  refine .node (.head _) (.cons (.some (.cons .rule .nil) .none) (.cons .token .nil)) ?_
  refine List.forall_mem_cons.2
    ⟨derives_unit (.tail _ (.head _)) ?_, by simp [derives_leaf]⟩
  exact .node (.head _) (.cons .token (.cons .token (.cons .token (.cons .rule
    (.cons .token .nil))))) (by simp [derives_leaf, hdecl])

end Sample

/-- The two derivations of `const a=b[c][d].e;`.  The parser gives the one without a split run. -/
theorem program_unambiguous_boxes :
    (Sample.program Sample.joined).leaves = (Sample.program Sample.split).leaves ∧
      (Sample.program Sample.joined).toNode.map merged =
        (Sample.program Sample.split).toNode.map merged ∧
      parse "const a=b[c][d].e;" = .ok (Sample.program Sample.joined) ∧
      Unsplit (Sample.program Sample.joined) ∧ ¬ Unsplit (Sample.program Sample.split) := by
  have hleaves : (Sample.program Sample.joined).leaves = (Sample.program Sample.split).leaves := by
    simp [Sample.program, Sample.wrap, Sample.joined, Sample.split]
  have hparse : parse "const a=b[c][d].e;" = .ok (Sample.program Sample.joined) := by
    decide +kernel
  have hjoined := Sample.derives_program Sample.derives_joined
  have hsplit := Sample.derives_program Sample.derives_split
  refine ⟨hleaves, program_unambiguous.1 _ _ rfl rfl hjoined hsplit hleaves, hparse,
    program_unambiguous.2 _ _ hparse, fun h => ?_⟩
  refine h Sample.split.children ?_ ⟨Sample.box "d" 12, rfl, rfl⟩
    [.node .chain [Sample.name "b" 8], Sample.box "c" 9] rfl ⟨Sample.box "c" 9, rfl, rfl⟩
  simp [Sample.program, Sample.wrap, Sample.split, Tree.children, Tree.nodes, Tree.nodesList]

end SyntaxTree

end MiniGoc
