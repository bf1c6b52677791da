import MiniGoc.Proofs.Accepting

/-!
# Readers take all of the grammar

Each reader of MiniGo takes the phrases of its rule, in the sense of `Reader.Accepts`.  So a
derivation of the tokens of a program, whatever it is, is found up to the grouping of index
boxes.
-/

namespace MiniGoc.Reader

open Grammar (miniGo RulePart)
open MiniGoc.Tree (groupedList)

variable {n : Nat} {F : TokenList → Prop}

/-! ## Types -/

theorem accepts_arrayLiteralBox :
    Accepts arrayLiteralBox (Grouped [.rule .arrayLiteralBox]) F n :=
  .only rfl (.token_same (.cons_any .oneOf (.token_same .nil)))

theorem accepts_primitiveType : Accepts primitiveType (Grouped [.rule .primitiveType]) F n :=
  .only rfl .oneOf

theorem accepts_arrayType : Accepts (arrayType n) (Grouped [.rule .arrayType]) F n := by
  induction n generalizing F with
  | zero => exact .zero
  | succ n ih =>
    have h : Accepts (seq [arrayLiteralBox, ifNext [.openBracket] (arrayType n)
        (ifNext [.ident] (expect .ident) primitiveType)]) (Grouped [.rule .arrayLiteralBox,
          .choice .next [[.rule .arrayType], [.rule .primitiveType], [.token .ident]]]) F (n + 1) :=
      .cons rfl accepts_arrayLiteralBox (.last (.choice (.ifNext rfl (.alt rfl ih)
        (.ifNext rfl (.alt rfl .expect) (.alt rfl accepts_primitiveType)))))
    refine .rule rfl (h.weaken ?_)
    rintro u ds ⟨a, ha, cs, hcs, hl, hg⟩
    refine ⟨cs, ?_, hl, hg⟩
    simp only [miniGo, Grammar.miniGoAlternatives, List.mem_cons, List.not_mem_nil, or_false] at ha
    rcases ha with rfl | rfl
    · obtain ⟨box, rest, rfl, hbox, hrest⟩ := Grammar.grows_cons.1 hcs
      exact hbox.cons (Grammar.grows_choice.2 ⟨_, by simp, hrest⟩)
    · obtain ⟨box, rest, rfl, hbox, hrest⟩ := Grammar.grows_cons.1 hcs
      obtain ⟨b, hb, hrest⟩ := Grammar.grows_choice.1 hrest
      exact hbox.cons (Grammar.grows_choice.2 ⟨b, List.mem_cons_of_mem _ hb, hrest⟩)

theorem accepts_typ : Accepts (typ n) (Grouped [.rule .typ]) F n :=
  .rule rfl (.ifNext rfl (.alt rfl accepts_arrayType)
    (.ifNext rfl (.alt rfl .expect) (.alt rfl accepts_primitiveType)))

/-! ## Operands -/

/-- What may follow an identifier that is no call. -/
def identFollow (nested : Bool) : Follow := if nested then .other [.openBrace] else .orBlock []

def operandFollow (nested : Bool) : Follow := (identFollow nested).with [.openParen]

/-- What may follow a primary expression. -/
def primaryFollow (nested : Bool) : Follow :=
  ((operandFollow nested).with [.openBracket]).with [.dot]

def exprFollow (nested : Bool) : Follow :=
  levels.foldr (fun l f => f.with l.operators) (primaryFollow nested)

section

variable {e : Reader Forest} {nested : Bool}
  (he : Accepts e (Grouped [.rule .expr]) (exprFollow true).Holds n)

include he

theorem accepts_funcCall : Accepts (funcCall e (n + 1)) (Grouped [.rule .funcCall]) F (n + 1) :=
  .only rfl (.token (.token_same (.cons_same
    (.optional rfl (.listOf rfl he (Nat.le_succ n) rfl)) rfl (.token_same .nil))))

theorem accepts_structEle :
    Accepts (structEle e) (Grouped [.rule .structEle]) (exprFollow true).Holds n :=
  .only rfl (.token_same (.token_same he.last))

theorem accepts_structLiteral :
    Accepts (structLiteral e (n + 1)) (Grouped [.rule .structLiteral]) F (n + 1) :=
  .only rfl (.token (.token_same (.cons_same
    (.optional rfl (.listOf rfl (accepts_structEle he) (Nat.le_succ n) rfl)) rfl
      (.token_same .nil))))

theorem accepts_arrayEle {k : Nat} (hk : k ≤ n + 1) :
    Accepts (arrayEle e k) (Grouped [.rule .arrayEle]) (Follow.other [.openBrace]).Holds k := by
  induction k with
  | zero => exact .zero
  | succ k ih =>
    have item := ih (Nat.le_of_succ_le hk)
    refine .rule rfl (.ifNext rfl (.alt rfl (.only rfl (.token (.cons_same
      (.listOf rfl item (Nat.le_succ k) rfl) rfl (.token_same .nil))))) (.ifAhead_follow
        (.alt rfl (accepts_structLiteral (he.fewer (Nat.le_of_succ_le_succ hk)))) (.leaf rfl) ?_))
    intro a ha cs r hcs hr
    obtain rfl : a = [.token .ident] := List.mem_singleton.1 ha
    obtain ⟨t, ht, rfl⟩ := Grammar.grows_token.1 hcs
    obtain ⟨u, us, rfl, hu⟩ := hr
    simpa [looksLike_cons, ht] using hu

theorem accepts_arrayLiteral :
    Accepts (arrayLiteral e (n + 1)) (Grouped [.rule .arrayLiteral]) F (n + 1) :=
  .only rfl (.cons_any accepts_arrayType (.token_same (.cons_same
    (.listOf rfl (accepts_arrayEle he (Nat.le_refl _)) (Nat.le_refl _) rfl) rfl
      (.token_same .nil))))

theorem accepts_subExpr : Accepts (subExpr e) (Grouped [.rule .subExpr]) F (n + 1) :=
  .only rfl (.token (.cons_same he rfl (.token_same .nil)))

omit he in
/-- What follows the brace of a struct literal is the closing brace, or the name of an element. -/
theorem looksLike_structLiteral {cs : Forest} (hcs : miniGo.Grows [.rule .structLiteral] cs)
    (r : TokenList) :
    looksLike [[.ident], [.openBrace], [.closeBrace]] (Tree.leavesList cs ++ r) = some true ∨
      looksLike [[.ident], [.openBrace], [.closeBrace]] (Tree.leavesList cs ++ r) = some false ∧
        looksLike [[.ident], [.openBrace], [.ident], [.colon]] (Tree.leavesList cs ++ r) =
          some true := by
  obtain ⟨as, bs, hl, has, hbs⟩ := grows_only_cons hcs rfl
  obtain ⟨t, ht, rfl⟩ := Grammar.grows_token.1 has
  obtain ⟨cs, ds, rfl, hcs, hds⟩ := Grammar.grows_cons.1 hbs
  obtain ⟨u, hu, rfl⟩ := Grammar.grows_token.1 hcs
  obtain ⟨es, fs, rfl, hes, hfs⟩ := Grammar.grows_cons.1 hds
  rcases Grammar.grows_option.1 hes with rfl | hes
  · obtain ⟨v, hv, rfl⟩ := Grammar.grows_token.1 hfs
    simp [hl, looksLike_cons, ht, hu, hv]
  · have hclose : looksLike [[.closeBrace]] (Tree.leavesList es ++ (Tree.leavesList fs ++ r)) =
        some false := looksLike_of_looks (n := 4) rfl hes
    have hcolon : looksLike [[.ident], [.colon]] (Tree.leavesList es ++ (Tree.leavesList fs ++ r)) =
        some true := looksLike_of_looks (n := 4) rfl hes
    simp [hl, looksLike_cons, ht, hu, hclose, hcolon]

omit he in
theorem ifLiteral_of_structLiteral {yes no : Reader Forest} {cs : Forest}
    (hcs : miniGo.Grows [.rule .structLiteral] cs) (r : TokenList) :
    ifLiteral nested yes no (Tree.leavesList cs ++ r) = yes (Tree.leavesList cs ++ r) := by
  cases nested with
  | true =>
    have h : looksLike [[.ident], [.openBrace]] (Tree.leavesList cs ++ r) = some true :=
      looksLike_of_looks (n := 4) rfl hcs
    simp [ifLiteral, ifAhead, h]
  | false =>
    rcases looksLike_structLiteral hcs r with h | ⟨h₁, h₂⟩
    · simp [ifLiteral, ifAhead, h]
    · simp [ifLiteral, ifAhead, h₁, h₂]

variable {r : TokenList}

omit he in
/-- What may follow an identifier does not make it a struct literal. -/
theorem ifLiteral_of_token {yes no : Reader Forest} {t : Token TokenKind}
    (hr : (identFollow nested).Holds r) : ifLiteral nested yes no (t :: r) = no (t :: r) := by
  cases nested with
  | true =>
    obtain ⟨u, us, rfl, hu⟩ := hr
    rw [List.mem_singleton] at hu
    simp [ifLiteral, ifAhead, looksLike_cons, hu]
  | false =>
    obtain ⟨u, us, rfl, -, hblock⟩ := hr
    by_cases hu : u.kind = .openBrace
    · obtain ⟨h₁, h₂⟩ := hblock hu
      simp [ifLiteral, ifAhead, looksLike_cons, hu, h₁, h₂]
    · simp [ifLiteral, ifAhead, looksLike_cons, hu]

theorem accepts_operand : Accepts (operand e nested (n + 1)) (Grouped [.rule .operand])
    (operandFollow nested).Holds (n + 1) := by
  refine .rule rfl (.ifNext rfl (.alt rfl (accepts_arrayLiteral he))
    (.ifNext rfl (.alt rfl (accepts_subExpr he))
      (.ifAhead_follow (.alt rfl (accepts_funcCall he)) ?_ ?_)))
  · rintro u ds r ⟨a, ha, cs, hcs, rfl, rfl⟩ hlen hr
    -- The alternatives that are left: a struct literal and single tokens.
    have ha : a ∈ [[.token .intLit], [.token .floatLit], [.token .stringLit], [.token .boolLit],
      [.token .nilLit], [.rule .structLiteral], [.token .ident]] := ha
    simp only [List.mem_cons, List.not_mem_nil, or_false] at ha
    rcases ha with rfl | rfl | rfl | rfl | rfl | rfl | rfl
    case inr.inr.inr.inr.inr.inl =>
      rw [ifLiteral_of_structLiteral hcs]
      exact accepts_structLiteral he _ _ r ⟨cs, hcs, rfl, rfl⟩ hlen hr
    all_goals
      obtain ⟨t, ht, rfl⟩ := Grammar.grows_token.1 hcs
      simp [ifLiteral_of_token hr.of_with, oneOf, ht]
  · intro a ha cs r hcs hr
    obtain rfl : a = [.token .ident] := List.mem_singleton.1 ha
    obtain ⟨t, ht, rfl⟩ := Grammar.grows_token.1 hcs
    simpa [looksLike_cons, ht] using hr.looksLike

/-! ## Primary expressions -/

def linkFollow : Follow := (Follow.other [.openParen]).with [.openBracket]

theorem accepts_boxes : Accepts (boxes e (n + 1)) (Grouped boxParts)
    (fun r => looksLike [[.openBracket]] r = some false) (n + 1) :=
  .manyTrees_of (f := .any) (.only rfl (.token (.cons_same he rfl (.token_same .nil))))
    (Nat.le_refl _) (fun _ hr => ⟨hr, trivial⟩) rfl

theorem accepts_member : Accepts (member e (n + 1))
    (fun ts m => ∃ ps, MemberParts m.1 ps ∧ Grouped ps ts m.2)
    (Follow.other [.openParen]).Holds (n + 1) := by
  rintro _ ⟨rule, ds⟩ r ⟨ps, hp, cs, hcs, rfl, rfl⟩ hlen hr
  cases hp with
  | access =>
    obtain ⟨as, bs, rfl, has, hbs⟩ := Grammar.grows_cons.1 hcs
    obtain ⟨d, hd, rfl⟩ := Grammar.grows_token.1 has
    obtain ⟨t, ht, rfl⟩ := Grammar.grows_token.1 hbs
    obtain ⟨u, us, rfl, hu⟩ := hr
    rw [List.mem_singleton] at hu
    simp [member, bind_apply, map_apply, expect, oneOf, hd, ifAhead, looksLike_cons, ht, hu]
  | call =>
    obtain ⟨as, bs, rfl, has, hbs⟩ := Grammar.grows_cons.1 hcs
    obtain ⟨d, hd, rfl⟩ := Grammar.grows_token.1 has
    have hlook : looksLike [[.ident], [.openParen]] (Tree.leavesList bs ++ r) = some true :=
      looksLike_of_looks (n := 4) rfl hbs
    have hcall := accepts_funcCall he (F := fun _ => True) _ _ r ⟨bs, hbs, rfl, rfl⟩
      (by simp at hlen; omega) trivial
    simp [member, bind_apply, map_apply, expect, oneOf, hd, ifAhead, hlook, hcall]

omit he in
theorem Follow.Holds.boxes {f : Follow} {bs : Forest} {r : TokenList}
    (hr : f.Holds r) (hbs : miniGo.Grows boxParts bs)
    (hf : f.admits [.many1 .far [.rule .arrayAccessBox]] = true) :
    f.Holds (Tree.leavesList bs ++ r) := by
  by_cases hne : bs = []
  · simpa [hne] using hr
  · exact f.holds_of_admits hf (grows_boxes_of_ne_nil hbs hne) r

omit he in
theorem Follow.Holds.links {f : Follow} {ls : List Link} (hr : f.Holds r)
    (hls : ∀ l ∈ ls, l.Grows)
    (hf : f.admits [.choice .far [[.token .dot, .token .ident], [.token .dot, .rule .funcCall]]] =
      true) : f.Holds (ls.flatMap Link.leaves ++ r) := by
  cases ls with
  | nil => exact hr
  | cons l ls =>
    obtain ⟨⟨ps, hp, hm⟩, -⟩ := hls l (by simp)
    simpa [Link.leaves] using f.holds_of_admits hf (hp.grows_choice hm)
      (Tree.leavesList l.boxes ++ (ls.flatMap Link.leaves ++ r))

def IsGroupedLink (ts : TokenList) (k : Link) : Prop :=
  ∃ l : Link, IsLink ts l ∧ k = l.grouped

theorem accepts_link :
    Accepts (link e (n + 1)) IsGroupedLink linkFollow.Holds (n + 1) := by
  rintro _ _ r ⟨l, ⟨rfl, ⟨ps, hp, hm⟩, hb⟩, rfl⟩ hlen hr
  simp only [Link.leaves, Tree.leavesList_append, List.length_append] at hlen
  have hmember := accepts_member he _ (l.rule, groupedList l.member)
    (Tree.leavesList l.boxes ++ r) ⟨ps, hp, _, hm, rfl, rfl⟩ (by omega) (hr.of_with.boxes hb rfl)
  have hboxes := accepts_boxes he _ _ r ⟨_, hb, rfl, rfl⟩ (by omega) hr.looksLike
  simp [link, Link.leaves, bind_apply, map_apply, hmember, hboxes, Link.grouped]

omit he in
theorem Follow.Holds.link (hr : (primaryFollow nested).Holds r) : linkFollow.Holds r := by
  cases nested with
  | true =>
    obtain ⟨t, ts, rfl, ht⟩ := hr
    exact ⟨t, ts, rfl, fun hmem => ht (by simp_all)⟩
  | false =>
    obtain ⟨t, ts, rfl, ht, -⟩ := hr
    exact ⟨t, ts, rfl, fun hmem => ht (by simp_all)⟩

omit he in
theorem rounds_links {ls : List Link} (hls : ∀ l ∈ ls, l.Grows) :
    Parses.Rounds IsGroupedLink (ls.flatMap Link.leaves) (ls.map Link.grouped) := by
  induction ls with
  | nil => exact .nil
  | cons l ls ih =>
    exact .cons ⟨l, ⟨rfl, hls l (by simp)⟩, rfl⟩ (ih fun k hk => hls k (by simp [hk]))

theorem accepts_links : Accepts (many [[.dot]] (link e (n + 1)) (n + 1))
    (Parses.Rounds IsGroupedLink) (primaryFollow nested).Holds (n + 1) := by
  refine (accepts_link he).many (Nat.le_refl _) ?_ ?_ fun r hr => ⟨hr.looksLike, hr.link⟩
  · rintro u _ ⟨l, hl, rfl⟩
    exact hl.one_le_length
  · rintro u _ r ⟨l, ⟨rfl, ⟨ps, hp, hm⟩, -⟩, rfl⟩
    rw [Link.leaves, Tree.leavesList_append, List.append_assoc]
    exact ⟨looksLike_of_looks (n := 4) rfl (hp.grows_choice hm),
      linkFollow.holds_of_admits rfl (hp.grows_choice hm) _⟩

def IsGroupedPrimary (ts : TokenList) (ds : Forest) : Prop :=
  ∃ cs, IsRead cs ∧ Tree.leavesList cs = ts ∧ groupedList cs = ds

theorem accepts_primary : Accepts (primary e nested (n + 1)) IsGroupedPrimary
    (primaryFollow nested).Holds (n + 1) := by
  rintro _ _ r ⟨cs, ⟨o, bs, ls, h, hl, ht⟩, rfl, rfl⟩ hlen hr
  simp only [hl, primaryLeaves, Tree.leavesList_append, List.length_append] at hlen
  have hlinks := accepts_links he _ _ r (rounds_links h.links) (by omega) hr
  have hr' := hr.of_with.links h.links (by cases nested <;> rfl)
  have hboxes := accepts_boxes he _ _ _ ⟨bs, h.boxes, rfl, rfl⟩ (by omega) hr'.looksLike
  have hoperand := accepts_operand he _ _ _ ⟨o, h.operand, rfl, rfl⟩ (by omega)
    (hr'.of_with.boxes h.boxes (by cases nested <;> rfl))
  simp [primary, hl, primaryLeaves, bind_apply, map_apply, hoperand, hboxes, hlinks, ht]

end

/-! ## Expressions -/

theorem accepts_unary {p : Reader Forest} {f : Follow} (hp : Accepts p IsGroupedPrimary f.Holds n)
    {k : Nat} (hk : k ≤ n) : Accepts (unary p k) (Grouped [.rule .expr5]) f.Holds k := by
  induction k with
  | zero => exact .zero
  | succ k ih =>
    refine .rule rfl (.ifNext rfl (.alt rfl (.cons rfl .oneOf (ih (Nat.le_of_succ_le hk)).last))
      (.alt rfl (.rule rfl ((hp.fewer hk).weaken ?_))))
    rintro u ds ⟨a, ha, cs, hcs, hl, hg⟩
    exact ⟨cs, isRead_expr6 ha hcs, hl, hg⟩

section

variable {l : Level} {next : Reader Forest} {s : Rule} {p : RulePart} {f : Follow}
  (hnext : Accepts next (Grouped [.rule s]) f.Holds n)
  (hop : Accepts l.operator (Grouped [p]) Follow.any.Holds n)
  (hr : miniGo.alternatives l.rule = ⟨.next, [[.rule l.rule, p, .rule s], [.rule s]]⟩)
  (hc : l.rule ≠ .chain) (hs : Grammar.solid [p, .rule s] = true)
  (hp : Grammar.looks 4 [l.operators] [p, .rule s] = some true)
  (hf : f.admits [p, .rule s] = true)

include hnext hop hr hc hs hp hf

/-- A tree of a level is read up to the loop that joins to the left, which goes on after it. -/
theorem level_eq_joined {t : SyntaxTree} (ht : t.Derives miniGo) {ds : Forest}
    (htd : t = .node l.rule ds) (r : TokenList) (hlen : t.leaves.length < n)
    (hfr : f.Holds r) :
    ∃ k, n ≤ k + t.leaves.length ∧ level l next n (t.leaves ++ r) =
      joined l.rule l.operators (seq [l.operator, next]) k t.grouped r := by
  induction ht generalizing ds r with
  | leaf => cases htd
  | @node q cs a ha hw hcs ih =>
    cases htd
    have hg : miniGo.Grows a cs := ⟨hw, hcs⟩
    simp only [hr, List.mem_cons, List.not_mem_nil, or_false] at ha
    rw [Tree.leaves_node] at hlen ⊢
    rcases ha with rfl | rfl
    · obtain ⟨as, bs, rfl, has, hbs⟩ := Grammar.grows_cons.1 hg
      obtain ⟨es, rfl, -⟩ := Grammar.grows_rule.1 has
      simp only [List.cons_append, List.nil_append, Tree.leavesList_cons, List.length_append]
        at hlen ⊢
      -- The tree on the left is read up to the loop at the operator.
      obtain ⟨k, hk, heq⟩ := ih (.node l.rule es) (by simp) rfl (Tree.leavesList bs ++ r)
        (by omega) (f.holds_of_admits hf hbs r)
      have hbs₁ := Trees.ne_nil ⟨rfl, hbs⟩ hs
      obtain ⟨k, rfl⟩ : ∃ j, k = j + 1 := ⟨k - 1, by omega⟩
      have htail : Accepts (seq [l.operator, next]) (Grouped [p, .rule s]) f.Holds n :=
        hop.cons_any hnext.last
      have htail := htail _ _ r ⟨bs, hbs, rfl, rfl⟩ (by omega) hfr
      refine ⟨k, by omega, ?_⟩
      rw [List.append_assoc, heq]
      simp [joined, ifNext, ifAhead, looksLike_of_looks hp hbs, bind_apply, htail,
        Tree.grouped_node hc]
    · have h := hnext _ _ r ⟨cs, hg, rfl, rfl⟩ hlen hfr
      exact ⟨n, by omega, by simp [level, bind_apply, h, Tree.grouped_node hc]⟩

end

theorem accepts_level {l : Level} {next : Reader Forest} {s : Rule} {p : RulePart} {f : Follow}
    (hnext : Accepts next (Grouped [.rule s]) f.Holds n)
    (hop : Accepts l.operator (Grouped [p]) Follow.any.Holds n)
    (hf : f.admits [p, .rule s] = true)
    (hr : miniGo.alternatives l.rule = ⟨.next, [[.rule l.rule, p, .rule s], [.rule s]]⟩)
    (hc : l.rule ≠ .chain) (hs : Grammar.solid [p, .rule s] = true)
    (hp : Grammar.looks 4 [l.operators] [p, .rule s] = some true) :
    Accepts (level l next n) (Grouped [.rule l.rule]) (f.with l.operators).Holds n := by
  rintro _ _ r ⟨cs, hcs, rfl, rfl⟩ hlen hfr
  obtain ⟨ds, rfl, -⟩ := Grammar.grows_rule.1 hcs
  simp only [Tree.leavesList_cons, Tree.leavesList_nil, List.append_nil] at hlen ⊢
  obtain ⟨k, hk, heq⟩ := level_eq_joined hnext hop hr hc hs hp hf (hcs.2 _ (by simp)) rfl r hlen
    hfr.of_with
  obtain ⟨k, rfl⟩ : ∃ j, k = j + 1 := ⟨k - 1, by omega⟩
  rw [heq]
  simp [joined, ifNext, ifAhead, hfr.looksLike]

theorem accepts_expr {nested : Bool} :
    Accepts (expr nested n) (Grouped [.rule .expr]) (exprFollow nested).Holds n := by
  induction n generalizing nested with
  | zero => exact .zero
  | succ n ih =>
    have hprimary : Accepts (primary (expr true n) nested (n + 1)) IsGroupedPrimary
        (primaryFollow nested).Holds (n + 1) := accepts_primary ih
    have h5 := accepts_unary hprimary (Nat.le_refl _)
    have h4 := accepts_level (l := ⟨.expr4, [.multiply, .divide, .remain], some .highOperator⟩) h5
      (.only rfl .oneOf) (by cases nested <;> rfl) rfl nofun rfl rfl
    have h3 := accepts_level (l := ⟨.expr3, [.add, .sub], some .lowOperator⟩) h4
      (.only rfl .oneOf) (by cases nested <;> rfl) rfl nofun rfl rfl
    have h2 := accepts_level (l := ⟨.expr2, Grammar.relationKinds, some .relationalOperator⟩) h3
      (.only rfl .oneOf) (by cases nested <;> rfl) rfl nofun rfl rfl
    have h1 := accepts_level (l := ⟨.expr1, [.and], none⟩) h2 .expect
      (by cases nested <;> rfl) rfl nofun rfl rfl
    exact accepts_level (l := ⟨.expr, [.or], none⟩) h1 .expect
      (by cases nested <;> rfl) rfl nofun rfl rfl

/-! ## Declarations of variables and constants -/

theorem accepts_initialiser : Accepts (initialiser n) (Grouped [.token .equal, .rule .expr])
    (exprFollow false).Holds n :=
  .token_same accepts_expr.last

/-- What may follow the type and the first value of a variable. -/
def varFollow : Follow := (exprFollow false).with [.equal]

theorem accepts_varInit : Accepts (ifNext [.equal] (initialiser n)
    (seq [typ n, optional [.equal] (initialiser n)])) (Grouped [.choice .far [[.rule .typ],
      [.token .equal, .rule .expr], [.rule .typ, .token .equal, .rule .expr]]])
      varFollow.Holds n := by
  have hinit := accepts_initialiser (n := n)
  refine .choice (.ifNext rfl (.alt rfl (hinit.before fun _ => Follow.Holds.of_with)) ?_)
  have h : Accepts (seq [typ n, optional [.equal] (initialiser n)])
      (Grouped [.rule .typ, .option [.token .equal, .rule .expr]]) varFollow.Holds n :=
    .cons_any accepts_typ (.last (.optional rfl hinit))
  refine h.weaken ?_
  rintro u ds ⟨a, ha, cs, hcs, hl, hg⟩
  refine ⟨cs, ?_, hl, hg⟩
  have ha : a ∈ [[.rule .typ], [.rule .typ, .token .equal, .rule .expr]] := ha
  simp only [List.mem_cons, List.not_mem_nil, or_false] at ha
  rcases ha with rfl | rfl
  · simpa using hcs.append (Grammar.grows_option.2 (.inl rfl))
  · obtain ⟨as, bs, rfl, has, hbs⟩ := Grammar.grows_cons.1 hcs
    exact has.cons (Grammar.grows_option.2 (.inr hbs))

theorem accepts_varDecl : Accepts (varDecl n) (Grouped [.rule .varDecl]) F (n + 1) :=
  .only rfl (.token (.token_same (.cons_same accepts_varInit rfl (.token_same .nil))))

theorem accepts_constDecl : Accepts (constDecl n) (Grouped [.rule .constDecl]) F (n + 1) :=
  .only rfl (.token (.token_same (.token_same (.cons_same accepts_expr rfl (.token_same .nil)))))

/-! ## Statements -/

theorem accepts_assignOperator :
    Accepts assignOperator (Grouped [.rule .assignOperator]) F n :=
  .only rfl .oneOf

variable {cs : Forest}

theorem isRead_operand (hcs : miniGo.Grows [.rule .operand] cs) : IsRead cs :=
  isRead_expr6 (by simp [miniGo, Grammar.miniGoAlternatives]) hcs

/-- The target of an assignment is read as an expression. -/
theorem exists_target (hcs : miniGo.Grows [.rule .lhs] cs) :
    ∃ c ps, cs = [c] ∧ IsRead ps ∧ Tree.leavesList ps = c.leaves ∧
      target? (groupedList ps) = some c.grouped := by
  obtain ⟨ds, rfl, a, ha, hds⟩ := Grammar.grows_rule.1 hcs
  simp only [miniGo, Grammar.miniGoAlternatives, List.mem_cons, List.not_mem_nil, or_false] at ha
  rcases ha with rfl | rfl | rfl
  · obtain ⟨t, ht, rfl⟩ := Grammar.grows_token.1 hds
    refine ⟨_, _, rfl, isRead_operand (grows_node 7 rfl hds), by simp, ?_⟩
    simp [Tree.grouped_node, target?, ht]
  · obtain ⟨es, rfl, -⟩ := Grammar.grows_rule.1 hds
    exact ⟨_, _, rfl, isRead_member .access hds, by simp, by simp [Tree.grouped_node, target?]⟩
  · obtain ⟨es, rfl, -⟩ := Grammar.grows_rule.1 hds
    exact ⟨_, _, rfl, isRead_arrayAccess hds, by simp, by simp [Tree.grouped_node, target?]⟩

theorem exists_call
    (hcs : miniGo.Grows [.choice .far [[.rule .funcCall], [.rule .methodCall]]] cs) :
    ∃ c ps, cs = [c] ∧ IsRead ps ∧ Tree.leavesList ps = c.leaves ∧
      call? (groupedList ps) = some c.grouped := by
  obtain ⟨a, ha, hcs⟩ := Grammar.grows_choice.1 hcs
  simp only [List.mem_cons, List.not_mem_nil, or_false] at ha
  rcases ha with rfl | rfl
  · obtain ⟨es, rfl, -⟩ := Grammar.grows_rule.1 hcs
    exact ⟨_, _, rfl, isRead_operand (grows_node 8 rfl hcs), by simp,
      by simp [Tree.grouped_node, call?]⟩
  · obtain ⟨es, rfl, -⟩ := Grammar.grows_rule.1 hcs
    exact ⟨_, _, rfl, isRead_member .call hcs, by simp, by simp [Tree.grouped_node, call?]⟩

theorem rule_seq_pure {q : Rule} {t : SyntaxTree} {ms : List (Reader Forest)} {ds : Forest}
    {ts r : TokenList} (h : seq ms ts = .ok (ds, r)) :
    rule q (seq (pure [t] :: ms)) ts = .ok ([.node q (t :: ds)], r) := by
  simp [rule, seq, bind_apply, map_apply, h]

theorem primary_apply {c : SyntaxTree} {ps rest : Forest} {a : List RulePart} (hps : IsRead ps)
    (hl : Tree.leavesList ps = c.leaves) (hrest : miniGo.Grows a rest)
    (hlen : c.leaves.length < n + 1) (ha : (primaryFollow true).admits a = true)
    (r : TokenList) :
    primary (expr true n) true (n + 1) (c.leaves ++ (Tree.leavesList rest ++ r)) =
      .ok (groupedList ps, Tree.leavesList rest ++ r) :=
  accepts_primary accepts_expr _ _ _ ⟨ps, hps, hl, rfl⟩ hlen
    ((primaryFollow true).holds_of_admits ha hrest r)

theorem accepts_assignStmt :
    Accepts (simpleStmt n) (Grouped [.rule .assignStmt]) F (n + 1) := by
  rintro _ _ r ⟨cs, hcs, rfl, rfl⟩ hlen -
  obtain ⟨ds, rfl, b, hb, hds⟩ := Grammar.grows_rule.1 hcs
  obtain rfl := List.mem_singleton.1 hb
  obtain ⟨as, rest, rfl, has, hrest⟩ := Grammar.grows_cons.1 hds
  obtain ⟨c, ps, rfl, hps, hl, ht⟩ := exists_target has
  have hne := Trees.ne_nil ⟨rfl, has⟩ rfl
  simp only [Tree.leavesList_cons, Tree.leaves_node, Tree.leavesList_append, Tree.leavesList_nil,
    List.append_nil, List.length_append] at hlen hne ⊢
  have hlook : looksLike [Grammar.assignKinds] (Tree.leavesList rest ++ r) = some true :=
    looksLike_of_looks (n := 4) rfl hrest
  have hseq : Accepts (seq [assignOperator, expr false n, expect .semicolon])
      (Grouped [.rule .assignOperator, .rule .expr, .token .semicolon]) (fun _ => True) n :=
    .cons_any accepts_assignOperator (.cons_same accepts_expr rfl (.token_same .nil))
  have hend := rule_seq_pure (q := .assignStmt) (t := c.grouped)
    (hseq _ _ r ⟨rest, hrest, rfl, rfl⟩ (by omega) trivial)
  rw [List.append_assoc, simpleStmt, bind_apply, primary_apply hps hl hrest (by omega) rfl]
  simp [ifNext, ifAhead, hlook, ht, assignTo, hend, Tree.grouped_node]

theorem accepts_callStmt :
    Accepts (simpleStmt n) (Grouped [.rule .callStmt]) F (n + 1) := by
  rintro _ _ r ⟨cs, hcs, rfl, rfl⟩ hlen -
  obtain ⟨ds, rfl, b, hb, hds⟩ := Grammar.grows_rule.1 hcs
  obtain rfl := List.mem_singleton.1 hb
  obtain ⟨as, rest, rfl, has, hrest⟩ := Grammar.grows_cons.1 hds
  obtain ⟨c, ps, rfl, hps, hl, ht⟩ := exists_call has
  have hne := Trees.ne_nil ⟨rfl, has⟩ rfl
  simp only [Tree.leavesList_cons, Tree.leaves_node, Tree.leavesList_append, Tree.leavesList_nil,
    List.append_nil, List.length_append] at hlen hne ⊢
  have hlook : looksLike [Grammar.assignKinds] (Tree.leavesList rest ++ r) = some false :=
    looksLike_of_looks (n := 4) rfl hrest
  have hseq : Accepts (seq [expect .semicolon]) (Grouped [.token .semicolon]) (fun _ => True) n :=
    .token_same .nil
  have hend := rule_seq_pure (q := .callStmt) (t := c.grouped)
    (hseq _ _ r ⟨rest, hrest, rfl, rfl⟩ (by omega) trivial)
  rw [List.append_assoc, simpleStmt, bind_apply, primary_apply hps hl hrest (by omega) rfl]
  simp [ifNext, ifAhead, hlook, ht, hend, Tree.grouped_node]

theorem accepts_simpleStmt :
    Accepts (simpleStmt n) (Branch [[.rule .assignStmt], [.rule .callStmt]]) F (n + 1) := by
  rintro u ds r ⟨a, ha, hu⟩ hlen hr
  simp only [List.mem_cons, List.not_mem_nil, or_false] at ha
  rcases ha with rfl | rfl
  · exact accepts_assignStmt u ds r hu hlen hr
  · exact accepts_callStmt u ds r hu hlen hr

theorem accepts_returnStmt : Accepts (returnStmt n) (Grouped [.rule .returnStmt]) F (n + 1) :=
  .only rfl (.token (.cons_same (.optional rfl accepts_expr) rfl (.token_same .nil)))

theorem accepts_update :
    Accepts (update n) (Grouped [.rule .update]) (exprFollow false).Holds n :=
  .only rfl (.token_same (.cons_any accepts_assignOperator accepts_expr.last))

theorem accepts_initialization :
    Accepts (initialization n) (Grouped [.rule .initialization]) F n := by
  have hinit : Accepts (ifNext [.equal] (initialiser n) (seq [typ n, initialiser n]))
      (Grouped [.choice .next [[.token .equal, .rule .expr],
        [.rule .typ, .token .equal, .rule .expr]]]) (exprFollow false).Holds n :=
    .choice (.ifNext rfl (.alt rfl accepts_initialiser)
      (.alt rfl (.cons_any accepts_typ accepts_initialiser.last)))
  exact .rule rfl (.ifNext rfl
    (.alt rfl (.token_same (.token_same (.cons_same hinit rfl (.token_same .nil)))))
    (.alt rfl (.cons_same accepts_update rfl (.token_same .nil))))

section

variable {b : Reader Forest} (hb : ∀ F, Accepts b (Grouped [.rule .block]) F n)

include hb

theorem accepts_onlyIf : Accepts (onlyIf b n) (Grouped [.rule .onlyIf]) F (n + 1) :=
  .only rfl (.token (.token_same (.cons_same accepts_expr rfl (.token_same (hb _).last))))

theorem accepts_ifStmt : Accepts (ifStmt b n) (Grouped [.rule .ifStmt]) F (n + 1) := by
  have hbody : Accepts (seq [expect .kwElse, onlyIf b n])
      (Grouped [.token .kwElse, .rule .onlyIf]) Follow.any.Holds n :=
    .token_same ((accepts_onlyIf hb).fewer (Nat.le_succ n)).last
  have hlist : Accepts (rule .elseIfList (manyTrees [[.kwElse], [.kwIf]]
      (seq [expect .kwElse, onlyIf b n]) n)) (Grouped [.rule .elseIfList])
      (fun r => looksLike [[.kwElse], [.kwIf]] r = some false) n :=
    .only rfl (hbody.manyTrees_of (Nat.le_refl n) (fun _ hr => ⟨hr, trivial⟩) rfl)
  have helse : Accepts (rule .elseStmt (seq [expect .kwElse, b])) (Grouped [.rule .elseStmt])
      Follow.any.Holds n := .only rfl (.token_same (hb _).last)
  refine .only rfl (.cons rfl (accepts_onlyIf hb) (hlist.seq_cons
    (.cons_same (.optional rfl helse) rfl (.token_same .nil))
    (fun _ _ _ => Nat.le_add_right n _) ?_))
  intro cs r hcs _
  obtain ⟨as, bs, rfl, has, hbs⟩ := Grammar.grows_cons.1 hcs
  rw [Tree.leavesList_append, List.append_assoc]
  rcases Grammar.grows_option.1 has with rfl | has
  · simpa using looksLike_of_looks (n := 4) rfl hbs
  · exact looksLike_of_looks (n := 4) rfl has

theorem accepts_basicFor : Accepts (basicFor b n) (Grouped [.rule .basicFor]) F (n + 1) :=
  .only rfl (.token (.cons_same accepts_expr rfl (.cons_any (hb _) (.token_same .nil))))

theorem accepts_forInitial : Accepts (forInitial b n) (Grouped [.rule .forInitial]) F (n + 1) :=
  .only rfl (.token (.cons_any accepts_initialization (.cons_same accepts_expr rfl
    (.token_same (.cons_same accepts_update rfl (.cons_any (hb _) (.token_same .nil)))))))

theorem accepts_forRange : Accepts (forRange b n) (Grouped [.rule .forRange]) F (n + 1) :=
  .only rfl (.token (.token_same (.token_same (.token_same (.token_same (.token_same
    (.cons_same accepts_expr rfl (.cons_any (hb _) (.token_same .nil)))))))))

omit hb in
theorem looksLike_forInitial {cs : Forest} (hcs : miniGo.Grows [.rule .forInitial] cs)
    (r : TokenList) :
    looksLike [[.kwFor], [.kwVar]] (Tree.leavesList cs ++ r) = some true ∨
      looksLike [[.kwFor], [.kwVar]] (Tree.leavesList cs ++ r) = some false ∧
        looksLike [[.kwFor], [.ident], Grammar.assignKinds] (Tree.leavesList cs ++ r) =
          some true := by
  obtain ⟨as, bs, hl, has, hbs⟩ := grows_only_cons hcs rfl
  obtain ⟨t, ht, rfl⟩ := Grammar.grows_token.1 has
  obtain ⟨ds, es, rfl, hds, -⟩ := Grammar.grows_cons.1 hbs
  obtain ⟨fs, rfl, a, ha, hfs⟩ := Grammar.grows_rule.1 hds
  simp only [miniGo, Grammar.miniGoAlternatives, List.mem_cons, List.not_mem_nil, or_false] at ha
  rcases ha with rfl | rfl
  · have hvar : looksLike [[.kwVar]] (Tree.leavesList fs ++ (Tree.leavesList es ++ r)) =
        some false := looksLike_of_looks (n := 4) rfl hfs
    have hassign : looksLike [[.ident], Grammar.assignKinds]
        (Tree.leavesList fs ++ (Tree.leavesList es ++ r)) = some true :=
      looksLike_of_looks (n := 4) rfl hfs
    simp [hl, looksLike_cons, ht, hvar, hassign]
  · have hvar : looksLike [[.kwVar]] (Tree.leavesList fs ++ (Tree.leavesList es ++ r)) =
        some true := looksLike_of_looks (n := 4) rfl hfs
    simp [hl, looksLike_cons, ht, hvar]

omit hb in
/-- The condition of a loop does not start with an identifier and an assignment or a comma. -/
theorem looksLike_basicFor {cs : Forest} (hcs : miniGo.Grows [.rule .basicFor] cs)
    (r : TokenList) (ks : List TokenKind) (hks : ∀ k ∈ afterIdent, k ∉ ks) :
    looksLike [[.kwFor], [.ident], ks] (Tree.leavesList cs ++ r) = some false := by
  obtain ⟨as, bs, hl, has, hbs⟩ := grows_only_cons hcs rfl
  obtain ⟨t, ht, rfl⟩ := Grammar.grows_token.1 has
  obtain ⟨ds, es, rfl, hds, hes⟩ := Grammar.grows_cons.1 hbs
  obtain ⟨u, us, hu, huk⟩ := hes.leaves_eq_cons rfl
  have huk : u.kind = .openBrace := List.mem_singleton.1 huk
  have h := early_expr hks hds u (us ++ r) (huk ▸ hks .openBrace (by decide))
  simpa [hl, looksLike_cons, ht, hu] using h

theorem accepts_forStmt : Accepts (forStmt b n) (Grouped [.rule .forStmt]) F (n + 1) := by
  refine .rule rfl ?_
  rintro _ _ r ⟨a, ha, cs, hcs, rfl, rfl⟩ hlen hr
  simp only [miniGo, Grammar.miniGoAlternatives, List.mem_cons, List.not_mem_nil, or_false] at ha
  rcases ha with rfl | rfl | rfl
  · have h := accepts_basicFor hb _ _ r ⟨cs, hcs, rfl, rfl⟩ hlen hr
    have h₁ : looksLike [[.kwFor], [.kwVar]] (Tree.leavesList cs ++ r) = some false :=
      looksLike_of_looks (n := 4) rfl hcs
    simp [ifAhead, h₁, looksLike_basicFor hcs r Grammar.assignKinds (by decide),
      looksLike_basicFor hcs r [.comma] (by decide), h]
  · have h := accepts_forInitial hb _ _ r ⟨cs, hcs, rfl, rfl⟩ hlen hr
    rcases looksLike_forInitial hcs r with h₁ | ⟨h₁, h₂⟩
    · simp [ifAhead, h₁, h]
    · simp [ifAhead, h₁, h₂, h]
  · have h := accepts_forRange hb _ _ r ⟨cs, hcs, rfl, rfl⟩ hlen hr
    have h₁ : looksLike [[.kwFor], [.kwVar]] (Tree.leavesList cs ++ r) = some false :=
      looksLike_of_looks (n := 4) rfl hcs
    have h₂ : looksLike [[.kwFor], [.ident], Grammar.assignKinds] (Tree.leavesList cs ++ r) =
      some false := looksLike_of_looks (n := 4) rfl hcs
    have h₃ : looksLike [[.kwFor], [.ident], [.comma]] (Tree.leavesList cs ++ r) = some true :=
      looksLike_of_looks (n := 4) rfl hcs
    simp [ifAhead, h₁, h₂, h₃, h]

end

theorem accepts_block {s : Reader Forest} (hs : ∀ F, Accepts s (Grouped [.rule .stmt]) F n) :
    Accepts (block s n) (Grouped [.rule .block]) F n :=
  .only rfl (.token_same (.cons_many1 (f := .any) (hs _) (Nat.le_refl n) rfl rfl rfl
    (.token_same .nil)))

theorem accepts_stmt : Accepts (stmt n) (Grouped [.rule .stmt]) F n := by
  induction n generalizing F with
  | zero => exact .zero
  | succ n ih =>
    have hb (F) : Accepts (block (stmt n) n) (Grouped [.rule .block]) F n :=
      accepts_block fun _ => ih
    exact .rule rfl (.ifNext rfl (.alt rfl accepts_varDecl)
      (.ifNext rfl (.alt rfl accepts_constDecl) (.ifNext rfl (.alt rfl (accepts_ifStmt hb))
        (.ifNext rfl (.alt rfl (accepts_forStmt hb))
          (.ifNext rfl (.alt rfl (.only rfl (.token_same (.token_same .nil))))
            (.ifNext rfl (.alt rfl (.only rfl (.token_same (.token_same .nil))))
              (.ifNext rfl (.alt rfl accepts_returnStmt) accepts_simpleStmt)))))))

/-! ## Declarations -/

theorem accepts_paramDecl : Accepts (paramDecl n) (Grouped [.rule .paramDecl]) F n := by
  have hname : Accepts (seq [expect .comma, expect .ident]) (Grouped [.token .comma, .token .ident])
      Follow.any.Holds n := .token_same (.token_same .nil)
  exact .only rfl (.token_same (.cons_same (.manyTrees hname (Nat.le_refl n) rfl) rfl
    accepts_typ.last))

theorem Accepts.signature {ms : List (Reader Forest)} {a : List RulePart}
    (hms : Accepts (seq ms) (Grouped a) F n)
    (ha : (Follow.other typeStart).admits a = true) :
    Accepts (seq (Reader.signature n ++ ms)) (Grouped (Grammar.signature ++ a)) F n := by
  have hparam : Accepts (paramDecl n) (Grouped [.rule .paramDecl]) Follow.any.Holds n :=
    accepts_paramDecl
  have htyp : Accepts (typ n) (Grouped [.rule .typ]) Follow.any.Holds n := accepts_typ
  exact .token_same (.cons_same (.optional rfl (.listOf rfl hparam (Nat.le_refl n) rfl)) rfl
    (.token_same (.cons_same (.optional rfl htyp) ha hms)))

theorem accepts_body : Accepts (seq [block (stmt n) n, expect .semicolon])
    (Grouped [.rule .block, .token .semicolon]) F n :=
  .cons_any (accepts_block fun _ => accepts_stmt) (.token_same .nil)

theorem accepts_funcDecl : Accepts (funcDecl n) (Grouped [.rule .funcDecl]) F n :=
  .only rfl (.token_same (.token_same (accepts_body.signature rfl)))

theorem accepts_methodDecl : Accepts (methodDecl n) (Grouped [.rule .methodDecl]) F n :=
  .only rfl (.token_same (.token_same (.token_same (.token_same (.token_same (.token_same
    (accepts_body.signature rfl)))))))

theorem accepts_structDecl : Accepts (structDecl n) (Grouped [.rule .structDecl]) F n := by
  have hfield : Accepts (structField n) (Grouped [.rule .structField]) Follow.any.Holds n :=
    .only rfl (.token_same (.cons_any accepts_typ (.token_same .nil)))
  exact .only rfl (.token_same (.token_same (.token_same (.token_same
    (.cons_many1 hfield (Nat.le_refl n) rfl rfl rfl (.token_same (.token_same .nil)))))))

theorem accepts_interfaceDecl :
    Accepts (interfaceDecl n) (Grouped [.rule .interfaceDecl]) F n := by
  have hend : Accepts (seq [expect .semicolon]) (Grouped [.token .semicolon])
      Follow.any.Holds n := .token_same .nil
  have hmethod : Accepts (interfaceMethod n) (Grouped [.rule .interfaceMethod])
      Follow.any.Holds n := .only rfl (.token_same (hend.signature rfl))
  exact .only rfl (.token_same (.token_same (.token_same (.token_same
    (.cons_many1 hmethod (Nat.le_refl n) rfl rfl rfl (.token_same (.token_same .nil)))))))

theorem accepts_decl : Accepts (decl n) (Grouped [.rule .decl]) F n :=
  .rule rfl (.ifNext rfl (.alt rfl (accepts_varDecl.fewer (Nat.le_succ n)))
    (.ifNext rfl (.alt rfl (accepts_constDecl.fewer (Nat.le_succ n)))
      (.ifNext rfl (.ifAhead rfl (.alt rfl accepts_interfaceDecl) (.alt rfl accepts_structDecl))
        (.ifAhead rfl (.alt rfl accepts_methodDecl) (.alt rfl accepts_funcDecl)))))

theorem accepts_program : Accepts (program n) (Grouped [.rule .program]) F n :=
  .only rfl (.cons_many1 (f := .any) accepts_decl (Nat.le_refl n) rfl rfl rfl (.token_same .nil))

end MiniGoc.Reader
