import MiniGoc.Proofs.Reading

/-!
# Readers keep to the grammar

Each reader of MiniGo reads the phrases of its rule, in the sense of `Reader.Parses`.  The proofs
go along the grammar.  Primary expressions are the exception: they are put together from an
operand, boxes and links, and `Primary.grows` says that the result is a phrase.
-/

namespace MiniGoc.Reader

open Grammar (miniGo RulePart)

variable {n : Nat}

/-! ## Types -/

theorem parses_arrayLiteralBox : Parses arrayLiteralBox (Trees [.rule .arrayLiteralBox]) n :=
  .only rfl rfl (.token_same (.same (.oneOf rfl) (.token_same .nil)))

theorem parses_primitiveType : Parses primitiveType (Trees [.rule .primitiveType]) n :=
  .only_of rfl (.oneOf rfl)

theorem parses_arrayType : Parses (arrayType n) (Trees [.rule .arrayType]) n := by
  induction n with
  | zero => exact .zero
  | succ n ih =>
    have h : Parses (seq [arrayLiteralBox, ifNext [.openBracket] (arrayType n)
        (ifNext [.ident] (expect .ident) primitiveType)]) (Trees [.rule .arrayLiteralBox,
          .choice .next [[.rule .arrayType], [.rule .primitiveType], [.token .ident]]]) (n + 1) :=
      InOrder.parses (.solid rfl parses_arrayLiteralBox (.same (.ifNext (.choice 0 rfl ih)
        (.ifNext (.choice 2 rfl (.expect rfl)) (.choice 1 rfl parses_primitiveType))) .nil)) rfl
    refine .rule (h.weaken ?_)
    rintro ts cs ⟨hl, hg⟩
    refine ⟨hl, ?_⟩
    obtain ⟨box, rest, rfl, hbox, hrest⟩ := Grammar.grows_cons.1 hg
    obtain ⟨a, ha, hrest⟩ := Grammar.grows_choice.1 hrest
    simp only [List.mem_cons, List.not_mem_nil, or_false] at ha
    rcases ha with rfl | ha
    · exact ⟨[.rule .arrayLiteralBox, .rule .arrayType], by
        simp [miniGo, Grammar.miniGoAlternatives], hbox.cons hrest⟩
    · refine ⟨[.rule .arrayLiteralBox, .choice .next [[.rule .primitiveType], [.token .ident]]], by
        simp [miniGo, Grammar.miniGoAlternatives], hbox.cons (Grammar.grows_choice.2
          ⟨a, by simpa using ha, hrest⟩)⟩

theorem parses_typ : Parses (typ n) (Trees [.rule .typ]) n :=
  .rule (.ifNext (.alt 2 rfl parses_arrayType)
    (.ifNext (.alt 1 rfl (.expect rfl)) (.alt 0 rfl parses_primitiveType)))

/-! ## Operands -/

section

variable {e : Reader Forest} {nested : Bool} (he : Parses e (Trees [.rule .expr]) n)

include he

theorem parses_funcCall : Parses (funcCall e (n + 1)) (Trees [.rule .funcCall]) (n + 1) :=
  .only rfl rfl (.token (.token_same (.same
    (.optional (.listOf rfl he (Nat.le_succ n))) (.token_same .nil))))

theorem parses_structEle : Parses (structEle e) (Trees [.rule .structEle]) n :=
  .only rfl rfl (.token_same (.token_same (.same he .nil)))

theorem parses_structLiteral :
    Parses (structLiteral e (n + 1)) (Trees [.rule .structLiteral]) (n + 1) :=
  .only rfl rfl (.token (.token_same (.same
    (.optional (.listOf rfl (parses_structEle he) (Nat.le_succ n))) (.token_same .nil))))

theorem parses_arrayEle {k : Nat} (hk : k ≤ n + 1) :
    Parses (arrayEle e k) (Trees [.rule .arrayEle]) k := by
  induction k with
  | zero => exact .zero
  | succ k ih =>
    have item := ih (Nat.le_of_succ_le hk)
    exact .rule (.ifNext (.alt 7 rfl (.only rfl rfl (.token
        (.same (.listOf rfl item (Nat.le_succ k)) (.token_same .nil)))))
      (.ifAhead (.alt 6 rfl (parses_structLiteral (he.fewer (Nat.le_of_succ_le_succ hk))))
        (.leaf rfl (by simp [miniGo, Grammar.miniGoAlternatives])) rfl))

theorem parses_arrayLiteral :
    Parses (arrayLiteral e (n + 1)) (Trees [.rule .arrayLiteral]) (n + 1) :=
  .only rfl rfl (.same parses_arrayType (.token_same (.same
    (.listOf rfl (parses_arrayEle he (Nat.le_refl _)) (Nat.le_refl _)) (.token_same .nil))))

theorem parses_subExpr : Parses (subExpr e) (Trees [.rule .subExpr]) (n + 1) :=
  .only rfl rfl (.token (.same he (.token_same .nil)))

omit he in
theorem Parses.ifLiteral {yes no : Reader Forest} {Phrase : TokenList → Forest → Prop}
    (hyes : Parses yes Phrase n) (hno : Parses no Phrase n) :
    Parses (ifLiteral nested yes no) Phrase n := by
  unfold Reader.ifLiteral
  split
  · exact .ifAhead hyes hno rfl
  · exact .ifAhead hyes (.ifAhead hyes hno rfl) rfl

theorem parses_operand : Parses (operand e nested (n + 1)) (Trees [.rule .operand]) (n + 1) :=
  .rule (.ifNext (.alt 5 rfl (parses_arrayLiteral he)) (.ifNext (.alt 9 rfl (parses_subExpr he))
    (.ifAhead (.alt 8 rfl (parses_funcCall he)) (.ifLiteral (.alt 6 rfl (parses_structLiteral he))
      (.leaf rfl (by simp [miniGo, Grammar.miniGoAlternatives]))) rfl)))

end

/-! ## Primary expressions -/

/-- The parts of a run of index boxes. -/
abbrev boxParts : List RulePart := [.many .far [.rule .arrayAccessBox]]

/-- The parts of a member, by the rule of an expression that ends in it. -/
inductive MemberParts : Rule → List RulePart → Prop where
  | access : MemberParts .structAccess [.token .dot, .token .ident]
  | call : MemberParts .methodCall [.token .dot, .rule .funcCall]

/-- A link whose member and boxes are phrases. -/
structure Link.Grows (l : Link) : Prop where
  member : ∃ ps, MemberParts l.rule ps ∧ miniGo.Grows ps l.member
  boxes : miniGo.Grows boxParts l.boxes

def Link.leaves (l : Link) : TokenList := Tree.leavesList (l.member ++ l.boxes)

/-- An operand, its boxes and links, all of them phrases. -/
structure Primary (o bs : Forest) (ls : List Link) : Prop where
  operand : miniGo.Grows [.rule .operand] o
  boxes : miniGo.Grows boxParts bs
  links : ∀ l ∈ ls, l.Grows

variable {r : Rule} {ps : List RulePart} {cs bs : Forest} {c t : SyntaxTree}

theorem MemberParts.solid (h : MemberParts r ps) : Grammar.solid ps = true := by
  cases h <;> rfl

theorem MemberParts.grows_choice (hp : MemberParts r ps) (h : miniGo.Grows ps cs) :
    miniGo.Grows [.choice .far [[.token .dot, .token .ident], [.token .dot, .rule .funcCall]]]
      cs := by
  refine Grammar.grows_choice.2 ⟨ps, ?_, h⟩
  cases hp <;> simp

theorem grows_no_boxes : miniGo.Grows boxParts [] := Grammar.grows_many.2 ⟨[], by simp⟩

theorem grows_boxes_of_ne_nil (h : miniGo.Grows boxParts bs) (hne : bs ≠ []) :
    miniGo.Grows [.many1 .far [.rule .arrayAccessBox]] bs := by
  obtain ⟨css, rfl, hcss⟩ := Grammar.grows_many.1 h
  cases css with
  | nil => exact absurd rfl hne
  | cons ds css =>
    refine Grammar.grows_many1.2 ((hcss ds (by simp)).append ?_)
    exact Grammar.grows_many.2 ⟨css, rfl, fun es hes => hcss es (by simp [hes])⟩

theorem grows_node {a : List RulePart} (i : Nat) (ha : (miniGo.alternatives r).alts[i]? = some a)
    (h : miniGo.Grows a cs) : miniGo.Grows [.rule r] [.node r cs] :=
  Grammar.grows_rule.2 ⟨cs, rfl, a, List.mem_of_getElem? ha, h⟩

theorem leaves_grown {f : Forest} : (grown c f).leaves = c.leaves ++ Tree.leavesList f := by
  cases f <;> simp [grown]

theorem grows_grown_member {f : Forest} (hc : miniGo.Grows [.rule .chain] [c])
    (hp : MemberParts r ps) (hf : miniGo.Grows ps f) : miniGo.Grows [.rule .chain] [grown c f] := by
  cases f with
  | nil => exact hc
  | cons d ds =>
    cases hp with
    | access => exact grows_node 1 rfl (hc.cons hf)
    | call => exact grows_node 3 rfl (hc.cons hf)

theorem grows_grown_boxes (hc : miniGo.Grows [.rule .chain] [c]) (hb : miniGo.Grows boxParts bs) :
    miniGo.Grows [.rule .chain] [grown c bs] := by
  cases bs with
  | nil => exact hc
  | cons b bs => exact grows_node 2 rfl (hc.cons (grows_boxes_of_ne_nil hb (by simp)))

section

variable {o bs : Forest} {ls : List Link}

theorem leaves_chain :
    (chain o bs ls).leaves = Tree.leavesList (o ++ bs) ++ ls.flatMap Link.leaves := by
  have hfold : ∀ c : SyntaxTree,
      (ls.foldl (fun c l => grown (grown c l.member) l.boxes) c).leaves =
        c.leaves ++ ls.flatMap Link.leaves := by
    induction ls with
    | nil => simp
    | cons l ls ih => simp [ih, leaves_grown, Link.leaves]
  simp [chain, hfold, leaves_grown]

theorem Primary.grows_chain (h : Primary o bs ls) :
    miniGo.Grows [.rule .chain] [chain o bs ls] := by
  have hfold : ∀ c : SyntaxTree, miniGo.Grows [.rule .chain] [c] → miniGo.Grows [.rule .chain]
      [ls.foldl (fun c l => grown (grown c l.member) l.boxes) c] := by
    have hls := h.links
    clear h
    induction ls with
    | nil => exact fun c hc => hc
    | cons l ls ih =>
      intro c hc
      obtain ⟨⟨ps, hp, hm⟩, hb⟩ := hls l (by simp)
      exact ih (fun k hk => hls k (by simp [hk])) _
        (grows_grown_boxes (grows_grown_member hc hp hm) hb)
  exact hfold _ (grows_grown_boxes (grows_node 0 rfl h.operand) h.boxes)

/-- The alternatives of a primary expression. -/
theorem Primary.grows (h : Primary o bs ls) :
    ∃ r, [.rule r] ∈ (miniGo.alternatives .expr6).alts ∧
      miniGo.Grows [.rule r] (primaryTree o bs ls) := by
  rcases List.eq_nil_or_concat ls with rfl | ⟨ks, l, rfl⟩
  · simp only [primaryTree, List.getLast?_nil, List.isEmpty_iff]
    split
    · exact ⟨.operand, by simp [miniGo, Grammar.miniGoAlternatives], h.operand⟩
    · rename_i hne
      exact ⟨.arrayAccess, by simp [miniGo, Grammar.miniGoAlternatives],
        grows_node 1 rfl (h.operand.append (grows_boxes_of_ne_nil h.boxes hne))⟩
  · have hc : miniGo.Grows [.rule .chain] [chain o bs ks] :=
      Primary.grows_chain ⟨h.operand, h.boxes, fun k hk => h.links k (by simp [hk])⟩
    obtain ⟨⟨ps, hp, hm⟩, hb⟩ := h.links l (by simp)
    simp only [primaryTree, List.concat_eq_append, List.getLast?_append, List.getLast?_singleton,
      Option.some_or, List.dropLast_concat, List.isEmpty_iff]
    split
    · generalize l.rule = r at hp
      cases hp with
      | access =>
        exact ⟨.structAccess, by simp [miniGo, Grammar.miniGoAlternatives],
          grows_node 0 rfl (hc.cons hm)⟩
      | call =>
        exact ⟨.methodCall, by simp [miniGo, Grammar.miniGoAlternatives],
          grows_node 0 rfl (hc.cons hm)⟩
    · rename_i hne
      exact ⟨.arrayAccess, by simp [miniGo, Grammar.miniGoAlternatives],
        grows_node 0 rfl
          (hc.cons ((hp.grows_choice hm).append (grows_boxes_of_ne_nil hb hne)))⟩

theorem leavesList_primaryTree :
    Tree.leavesList (primaryTree o bs ls) =
      Tree.leavesList (o ++ bs) ++ ls.flatMap Link.leaves := by
  rcases List.eq_nil_or_concat ls with rfl | ⟨ks, l, rfl⟩
  · simp only [primaryTree, List.getLast?_nil, List.isEmpty_iff]
    split <;> simp [*]
  · simp only [primaryTree, List.concat_eq_append, List.getLast?_append, List.getLast?_singleton,
      Option.some_or, List.dropLast_concat, List.isEmpty_iff]
    split <;> simp [*, leaves_chain, Link.leaves]

end

section

variable {e : Reader Forest} {nested : Bool} (he : Parses e (Trees [.rule .expr]) n)

include he

theorem parses_boxes : Parses (boxes e (n + 1)) (Trees boxParts) (n + 1) :=
  .manyTrees rfl (.only rfl rfl (.token (.same he (.token_same .nil)))) (Nat.le_refl _) rfl

def IsMember (ts : TokenList) (m : Rule × Forest) : Prop :=
  ∃ ps, MemberParts m.1 ps ∧ Trees ps ts m.2

theorem parses_member : Parses (member e (n + 1)) IsMember (n + 1) := by
  have hcall : Parses (member e (n + 1)) (fun ts m => ∃ d us vs, ts = us ++ vs ∧
      Trees [.token .dot] us d ∧ ∃ ps, MemberParts m.1 (.token .dot :: ps) ∧
        ∃ c, Trees ps vs c ∧ m.2 = d ++ c) (n + 1) := by
    refine Parses.bind (k := n + 1) (.expect rfl) (fun _ d _ => .ifAhead ?_ ?_ rfl)
      (fun _ _ _ => Nat.le_add_right _ _) ?_
    · exact (parses_funcCall he).map fun _ c hc => ⟨_, .call, c, hc, rfl⟩
    · exact (Parses.expect (t := .ident) rfl).map fun _ c hc => ⟨_, .access, c, hc, rfl⟩
    · intro us d _
      obtain ⟨c, hc⟩ := exists_grows_rule .funcCall
      exact ⟨_, (.methodCall, d ++ c), _, .call, c, ⟨rfl, hc⟩, rfl⟩
  refine hcall.weaken ?_
  rintro ts ⟨r, f⟩ ⟨d, us, vs, rfl, ⟨rfl, hd⟩, ps, hp, c, ⟨rfl, hc⟩, rfl⟩
  exact ⟨_, hp, by simp, hd.cons hc⟩

def IsLink (ts : TokenList) (l : Link) : Prop := l.leaves = ts ∧ l.Grows

theorem parses_link : Parses (link e (n + 1)) IsLink (n + 1) := by
  refine ((parses_member he).bind (k := n + 1) (fun _ m _ => (parses_boxes he).map
    (R := fun ts l => ∃ bs, Trees boxParts ts bs ∧ l = (⟨m.1, m.2, bs⟩ : Link))
    fun ts bs hbs => ⟨bs, hbs, rfl⟩) (fun _ _ _ => Nat.le_add_right _ _) ?_).weaken ?_
  · exact fun _ m _ => ⟨[], ⟨m.1, m.2, []⟩, [], ⟨rfl, grows_no_boxes⟩, rfl⟩
  · rintro ts l ⟨⟨r, f⟩, us, vs, rfl, ⟨ps, hp, rfl, hf⟩, bs, ⟨rfl, hbs⟩, rfl⟩
    exact ⟨by simp [Link.leaves], ⟨ps, hp, hf⟩, hbs⟩

def IsPrimary (ts : TokenList) (cs : Forest) : Prop :=
  ∃ o bs ls, Primary o bs ls ∧ cs = primaryTree o bs ls ∧ Tree.leavesList cs = ts

variable {ts : TokenList}

omit he in
theorem IsPrimary.one_le_length {cs : Forest} (h : IsPrimary ts cs) : 1 ≤ ts.length := by
  obtain ⟨o, bs, ls, h, rfl, rfl⟩ := h
  have := Trees.ne_nil ⟨rfl, h.operand⟩ rfl
  simp only [leavesList_primaryTree, Tree.leavesList_append, List.length_append]
  omega

omit he in
theorem grows_of_rounds {ls : List Link} (h : Parses.Rounds IsLink ts ls) :
    ls.flatMap Link.leaves = ts ∧ ∀ l ∈ ls, l.Grows := by
  induction h with
  | nil => simp
  | cons hl _ ih => exact ⟨by simp [hl.1, ih.1], List.forall_mem_cons.2 ⟨hl.2, ih.2⟩⟩

omit he in
theorem IsLink.one_le_length {l : Link} (h : IsLink ts l) : 1 ≤ ts.length := by
  obtain ⟨rfl, ⟨ps, hp, hm⟩, -⟩ := h
  have := Trees.ne_nil ⟨rfl, hm⟩ hp.solid
  simp only [Link.leaves, Tree.leavesList_append, List.length_append]
  omega

theorem parses_primary : Parses (primary e nested (n + 1)) IsPrimary (n + 1) := by
  have hlinks (o bs : Forest) : Parses (many [[.dot]] (link e (n + 1)) (n + 1) >>= fun ls =>
      pure (primaryTree o bs ls)) (fun ts cs => ∃ ls, Parses.Rounds IsLink ts ls ∧
        cs = primaryTree o bs ls) (n + 1) :=
    ((parses_link he).many (fun _ _ => IsLink.one_le_length) (Nat.le_refl _) rfl).map
      fun _ ls h => ⟨ls, h, rfl⟩
  have hboxes (o : Forest) := (parses_boxes he).bind (fun _ bs _ => hlinks o bs)
    (fun _ _ _ => Nat.le_add_right _ _) (fun _ bs _ => ⟨[], _, [], .nil, rfl⟩)
  refine ((parses_operand he).bind (fun _ o _ => hboxes o) (fun _ _ _ => Nat.le_add_right _ _)
    (fun _ o _ => ⟨[], _, [], [], [], rfl, ⟨rfl, grows_no_boxes⟩, [], .nil, rfl⟩)).weaken ?_
  rintro ts cs ⟨o, us, vs, rfl, ⟨rfl, ho⟩, bs, us', vs', rfl, ⟨rfl, hbs⟩, ls, hls, rfl⟩
  obtain ⟨rfl, hg⟩ := grows_of_rounds hls
  exact ⟨o, bs, ls, ⟨ho, hbs, hg⟩, rfl, by simp [leavesList_primaryTree]⟩

end

/-! ## Expressions -/

theorem parses_unary {p : Reader Forest} (hp : Parses p IsPrimary n) {k : Nat} (hk : k ≤ n) :
    Parses (unary p k) (Trees [.rule .expr5]) k := by
  induction k with
  | zero => exact .zero
  | succ k ih =>
    refine .rule (.ifNext (.alt 0 rfl (InOrder.parses (.solid rfl (.oneOf rfl)
        (.same (ih (Nat.le_of_succ_le hk)) .nil)) rfl))
      (.alt 1 rfl (.rule ((hp.fewer hk).weaken ?_))))
    rintro ts cs ⟨o, bs, ls, h, rfl, hl⟩
    obtain ⟨r, hr, hg⟩ := h.grows
    exact ⟨hl, _, hr, hg⟩

theorem parses_level {l : Level} {next : Reader Forest} {s : Rule} {p : RulePart}
    (hnext : Parses next (Trees [.rule s]) n) (hop : Parses l.operator (Trees [p]) n)
    (hr : miniGo.alternatives l.rule = ⟨.next, [[.rule l.rule, p, .rule s], [.rule s]]⟩)
    (hp : readable [p, .rule s] = true) (hs : Grammar.solid [p, .rule s] = true) :
    Parses (level l next n) (Trees [.rule l.rule]) n := by
  have htail : Parses (seq [l.operator, next]) (Trees [p, .rule s]) n :=
    InOrder.parses (.same hop (.same hnext .nil)) hp
  have hnode (t : SyntaxTree) (cs : Forest) (ht : miniGo.Grows [.rule l.rule] [t])
      (hcs : miniGo.Grows [p, .rule s] cs) :
      miniGo.Grows [.rule l.rule] [.node l.rule (t :: cs)] :=
    grows_node 0 (by rw [hr]; rfl) (ht.cons hcs)
  have hfirst (cs : Forest) (hcs : miniGo.Grows [.rule s] cs) :
      miniGo.Grows [.rule l.rule] [.node l.rule cs] :=
    grows_node 1 (by rw [hr]; rfl) hcs
  refine (hnext.bind (fun _ cs hcs => htail.joined (Nat.le_refl n) hnode hs (hfirst cs hcs.2))
    (fun _ _ _ => Nat.le_add_right _ _) ?_).weaken ?_
  · exact fun _ cs hcs => ⟨[], _, by simp, hfirst cs hcs.2⟩
  · rintro ts ds ⟨cs, us, vs, rfl, ⟨rfl, -⟩, hl, hds⟩
    exact ⟨by simpa using hl, hds⟩

theorem parses_expr {nested : Bool} : Parses (expr nested n) (Trees [.rule .expr]) n := by
  induction n generalizing nested with
  | zero => exact .zero
  | succ n ih =>
    have hprimary : Parses (primary (expr true n) nested (n + 1)) IsPrimary (n + 1) :=
      parses_primary ih
    have h5 := parses_unary hprimary (Nat.le_refl _)
    refine parses_level (parses_level (parses_level (parses_level (parses_level h5
      (.only_of ?_ (.oneOf ?_)) ?_ ?_ ?_) (.only_of ?_ (.oneOf ?_)) ?_ ?_ ?_)
        (.only_of ?_ (.oneOf ?_)) ?_ ?_ ?_) (.expect ?_) ?_ ?_ ?_) (.expect ?_) ?_ ?_ ?_
    all_goals rfl

/-! ## Declarations of variables and constants -/

theorem parses_initialiser : Parses (initialiser n) (Trees [.token .equal, .rule .expr]) n :=
  InOrder.parses (.token_same (.same parses_expr .nil)) rfl

/-- The type and the first value of a variable. -/
theorem parses_varInit : Parses (ifNext [.equal] (initialiser n)
    (seq [typ n, optional [.equal] (initialiser n)])) (Trees [.choice .far [[.rule .typ],
      [.token .equal, .rule .expr], [.rule .typ, .token .equal, .rule .expr]]]) n := by
  refine .ifNext (.choice 1 rfl parses_initialiser) ?_
  have h : Parses (seq [typ n, optional [.equal] (initialiser n)])
      (Trees [.rule .typ, .option [.token .equal, .rule .expr]]) n :=
    InOrder.parses (.same parses_typ (.same (.optional parses_initialiser) .nil)) rfl
  refine h.weaken ?_
  rintro ts cs ⟨hl, hg⟩
  obtain ⟨as, bs, rfl, ha, hb⟩ := Grammar.grows_cons.1 hg
  refine ⟨hl, Grammar.grows_choice.2 ?_⟩
  rcases Grammar.grows_option.1 hb with rfl | hb
  · exact ⟨[.rule .typ], by simp, by simpa using ha⟩
  · exact ⟨[.rule .typ, .token .equal, .rule .expr], by simp, ha.cons hb⟩

theorem parses_varDecl : Parses (varDecl n) (Trees [.rule .varDecl]) (n + 1) :=
  .only rfl rfl (.token (.token_same (.same parses_varInit (.token_same .nil))))

theorem parses_constDecl : Parses (constDecl n) (Trees [.rule .constDecl]) (n + 1) :=
  .only rfl rfl (.token (.token_same (.token_same (.same parses_expr (.token_same .nil)))))

/-! ## Statements -/

theorem parses_assignOperator : Parses assignOperator (Trees [.rule .assignOperator]) n :=
  .only_of rfl (.oneOf rfl)

theorem target?_grows (hcs : miniGo.Grows [.rule r] cs) (ht : target? cs = some t) :
    miniGo.Grows [.rule .lhs] [t] ∧ t.leaves = Tree.leavesList cs := by
  obtain ⟨ds, rfl, hds⟩ := Grammar.grows_rule.1 hcs
  unfold target? at ht
  split at ht
  · rename_i u heq
    split at ht
    · cases heq
      cases ht
      exact ⟨grows_node 0 rfl (Grammar.grows_token.2 ⟨u, ‹_›, rfl⟩), by simp⟩
    · cases ht
  · rename_i heq
    cases heq
    cases ht
    exact ⟨grows_node 1 rfl hcs, by simp⟩
  · rename_i heq
    cases heq
    cases ht
    exact ⟨grows_node 2 rfl hcs, by simp⟩
  · cases ht

theorem call?_grows (hcs : miniGo.Grows [.rule r] cs) (ht : call? cs = some t) :
    miniGo.Grows [.choice .far [[.rule .funcCall], [.rule .methodCall]]] [t] ∧
      t.leaves = Tree.leavesList cs := by
  obtain ⟨ds, rfl, a, ha, hds⟩ := Grammar.grows_rule.1 hcs
  rw [Grammar.grows_choice]
  unfold call? at ht
  split at ht
  · rename_i es heq
    cases heq
    cases ht
    have hcall := hds.2 (.node .funcCall es) (by simp)
    exact ⟨⟨[.rule .funcCall], by simp, Grammar.grows_rule.2
      ⟨es, rfl, Grammar.derives_node.1 hcall⟩⟩, by simp⟩
  · rename_i heq
    cases heq
    cases ht
    exact ⟨⟨[.rule .methodCall], by simp, hcs⟩, by simp⟩
  · cases ht

/-- A primary expression can always be completed to an assignment, by a field and the rest. -/
theorem Primary.exists_assign {o : Forest} {ls : List Link} (h : Primary o bs ls) :
    ∃ vs cs, miniGo.Grows [.rule .assignStmt] cs ∧
      Tree.leavesList cs = Tree.leavesList (primaryTree o bs ls) ++ vs := by
  obtain ⟨name, hname⟩ : ∃ cs, miniGo.Grows [.token .dot, .token .ident] cs := exists_grows rfl
  obtain ⟨rest, hrest⟩ : ∃ cs, miniGo.Grows
    [.rule .assignOperator, .rule .expr, .token .semicolon] cs := exists_grows rfl
  have hlhs : miniGo.Grows [.rule .lhs]
      [.node .lhs [.node .structAccess (chain o bs ls :: name)]] :=
    grows_node 1 rfl (grows_node 0 rfl (h.grows_chain.cons hname))
  refine ⟨Tree.leavesList name ++ Tree.leavesList rest, _,
    grows_node 0 rfl (hlhs.cons hrest), ?_⟩
  simp [leaves_chain, leavesList_primaryTree]

theorem Parses.reject {α : Type} {P : TokenList → α → Prop} (h : ∃ v a, P v a) :
    Parses reject P n := by
  intro ts hts _
  obtain ⟨t, r, rfl⟩ := hts.exists_cons
  obtain ⟨v, a, h⟩ := h
  exact .stuck (u := []) rfl h

theorem Parses.only_after {p : RulePart} {q : List RulePart} {ms : List (Reader Forest)}
    (hr : miniGo.alternatives r = Grammar.one (p :: q)) (hq : readable q = true)
    (ht : miniGo.Grows [p] [t]) (hms : InOrder ms q n) :
    Parses (Reader.rule r (seq (pure [t] :: ms)))
      (fun ts cs => Tree.leavesList cs = t.leaves ++ ts ∧ miniGo.Grows [.rule r] cs) n := by
  refine Parses.map (P := fun ts ds => ∃ cs, Trees q ts cs ∧ ds = [t] ++ cs)
    ((hms hq).map fun _ cs h => ⟨cs, h, rfl⟩) ?_
  rintro ts ds ⟨cs, ⟨rfl, hg⟩, rfl⟩
  exact ⟨by simp, grows_node 0 (by rw [hr]; rfl) (ht.cons hg)⟩

theorem parses_simpleStmt : Parses (simpleStmt n) (Children .stmt) (n + 1) := by
  refine (Parses.bind (k := n) (R := fun t vs cs => Tree.leavesList cs = Tree.leavesList t ++ vs ∧
    (miniGo.Grows [.rule .assignStmt] cs ∨ miniGo.Grows [.rule .callStmt] cs))
    (parses_primary parses_expr) ?_ ?_ ?_).weaken ?_
  · rintro _ _ ⟨o, bs, ls, h, rfl, -⟩
    obtain ⟨r, -, hg⟩ := h.grows
    have hex := h.exists_assign
    refine .ifNext ?_ ?_
    · split
      · obtain ⟨ht, hl⟩ := target?_grows hg ‹_›
        refine Parses.weaken (.only_after rfl rfl ht (.same parses_assignOperator
          (.same parses_expr (.token_same .nil)))) ?_
        exact fun ts cs h => ⟨hl ▸ h.1, .inl h.2⟩
      · obtain ⟨vs, cs, hcs, hl⟩ := hex
        exact .reject ⟨vs, cs, hl, .inl hcs⟩
    · split
      · obtain ⟨ht, hl⟩ := call?_grows hg ‹_›
        refine Parses.weaken (.only_after rfl rfl ht (.token_same .nil)) ?_
        exact fun ts cs h => ⟨hl ▸ h.1, .inr h.2⟩
      · obtain ⟨vs, cs, hcs, hl⟩ := hex
        exact .reject ⟨vs, cs, hl, .inl hcs⟩
  · intro ts cs h
    have := h.one_le_length
    omega
  · rintro ts cs ⟨o, bs, ls, h, rfl, -⟩
    obtain ⟨vs, cs, hcs, hl⟩ := h.exists_assign
    exact ⟨vs, cs, hl, .inl hcs⟩
  · rintro ts cs ⟨t, us, vs, rfl, ⟨o, bs, ls, -, rfl, rfl⟩, hl, hg | hg⟩
    · exact ⟨hl, _, by simp [miniGo, Grammar.miniGoAlternatives], hg⟩
    · exact ⟨hl, _, by simp [miniGo, Grammar.miniGoAlternatives], hg⟩

theorem parses_returnStmt : Parses (returnStmt n) (Trees [.rule .returnStmt]) (n + 1) :=
  .only rfl rfl (.token (.same (.optional parses_expr) (.token_same .nil)))

theorem parses_update : Parses (update n) (Trees [.rule .update]) n :=
  .only rfl rfl (.token_same (.same parses_assignOperator (.same parses_expr .nil)))

theorem parses_initialization :
    Parses (initialization n) (Trees [.rule .initialization]) n := by
  have hinit : Parses (ifNext [.equal] (initialiser n) (seq [typ n, initialiser n]))
      (Trees [.choice .next [[.token .equal, .rule .expr],
        [.rule .typ, .token .equal, .rule .expr]]]) n :=
    .ifNext (.choice 0 rfl parses_initialiser)
      (.choice 1 rfl (InOrder.parses (.same parses_typ (.last parses_initialiser)) rfl))
  exact .rule (.ifNext
    (.alt 1 rfl (InOrder.parses (.token_same (.token_same (.same hinit (.token_same .nil)))) rfl))
    (.alt 0 rfl (InOrder.parses (.same parses_update (.token_same .nil)) rfl)))

section

variable {b : Reader Forest} (hb : Parses b (Trees [.rule .block]) n)

include hb

theorem parses_onlyIf : Parses (onlyIf b n) (Trees [.rule .onlyIf]) (n + 1) :=
  .only rfl rfl (.token (.token_same (.same parses_expr (.token_same (.same hb .nil)))))

theorem parses_ifStmt : Parses (ifStmt b n) (Trees [.rule .ifStmt]) (n + 1) :=
  .only rfl rfl (.solid rfl (parses_onlyIf hb) (.same
    (.only_of rfl (.manyTrees rfl (InOrder.parses (.token_same
      (.same ((parses_onlyIf hb).fewer (Nat.le_succ n)) .nil)) rfl) (Nat.le_refl n) rfl))
    (.same (.optional (.only rfl rfl (.token_same (.same hb .nil))))
      (.token_same .nil))))

theorem parses_basicFor : Parses (basicFor b n) (Trees [.rule .basicFor]) (n + 1) :=
  .only rfl rfl (.token (.same parses_expr (.same hb (.token_same .nil))))

theorem parses_forInitial : Parses (forInitial b n) (Trees [.rule .forInitial]) (n + 1) :=
  .only rfl rfl (.token (.same parses_initialization (.same parses_expr (.token_same
    (.same parses_update (.same hb (.token_same .nil)))))))

theorem parses_forRange : Parses (forRange b n) (Trees [.rule .forRange]) (n + 1) :=
  .only rfl rfl (.token (.token_same (.token_same (.token_same (.token_same (.token_same
    (.same parses_expr (.same hb (.token_same .nil)))))))))

theorem parses_forStmt : Parses (forStmt b n) (Trees [.rule .forStmt]) (n + 1) :=
  .rule (.ifAhead (.alt 1 rfl (parses_forInitial hb)) (.ifAhead (.alt 1 rfl (parses_forInitial hb))
    (.ifAhead (.alt 2 rfl (parses_forRange hb)) (.alt 0 rfl (parses_basicFor hb)) rfl) rfl) rfl)

end

theorem parses_block {s : Reader Forest} (hs : Parses s (Trees [.rule .stmt]) n) :
    Parses (block s n) (Trees [.rule .block]) n :=
  .only rfl rfl (.token_same (.many1 rfl hs (Nat.le_refl n) rfl (.token_same .nil)))

theorem parses_stmt : Parses (stmt n) (Trees [.rule .stmt]) n := by
  induction n with
  | zero => exact .zero
  | succ n ih =>
    have hb := parses_block ih
    exact .rule (.ifNext (.alt 0 rfl parses_varDecl) (.ifNext (.alt 1 rfl parses_constDecl)
      (.ifNext (.alt 3 rfl (parses_ifStmt hb)) (.ifNext (.alt 4 rfl (parses_forStmt hb))
        (.ifNext (.alt 5 rfl (.only rfl rfl (.token_same (.token_same .nil))))
          (.ifNext (.alt 6 rfl (.only rfl rfl (.token_same (.token_same .nil))))
            (.ifNext (.alt 8 rfl parses_returnStmt) parses_simpleStmt)))))))

/-! ## Declarations -/

theorem parses_paramDecl : Parses (paramDecl n) (Trees [.rule .paramDecl]) n :=
  .only rfl rfl (.token_same (.same
    (.manyTrees rfl (InOrder.parses (.token_same (.token_same .nil)) rfl) (Nat.le_refl n) rfl)
    (.same parses_typ .nil)))

theorem InOrder.signature {ms : List (Reader Forest)} {a : List RulePart} (hms : InOrder ms a n) :
    InOrder (Reader.signature n ++ ms) (Grammar.signature ++ a) n :=
  .token_same (.same (.optional (.listOf rfl parses_paramDecl (Nat.le_refl n)))
    (.token_same (.same (.optional parses_typ) hms)))

theorem parses_funcDecl : Parses (funcDecl n) (Trees [.rule .funcDecl]) n :=
  .only rfl rfl (.token_same (.token_same (.signature
    (.same (parses_block parses_stmt) (.token_same .nil)))))

theorem parses_methodDecl : Parses (methodDecl n) (Trees [.rule .methodDecl]) n :=
  .only rfl rfl (.token_same (.token_same (.token_same (.token_same (.token_same (.token_same
    (.signature (.same (parses_block parses_stmt) (.token_same .nil)))))))))

theorem parses_structDecl : Parses (structDecl n) (Trees [.rule .structDecl]) n := by
  have hfield : Parses (structField n) (Trees [.rule .structField]) n :=
    .only rfl rfl (.token_same (.same parses_typ (.token_same .nil)))
  exact .only rfl rfl (.token_same (.token_same (.token_same (.token_same (.many1 rfl hfield
    (Nat.le_refl n) rfl (.token_same (.token_same .nil)))))))

theorem parses_interfaceDecl : Parses (interfaceDecl n) (Trees [.rule .interfaceDecl]) n := by
  have hmethod : Parses (interfaceMethod n) (Trees [.rule .interfaceMethod]) n :=
    .only rfl rfl (.token_same (.signature (.token_same .nil)))
  exact .only rfl rfl (.token_same (.token_same (.token_same (.token_same (.many1 rfl hmethod
    (Nat.le_refl n) rfl (.token_same (.token_same .nil)))))))

theorem parses_decl : Parses (decl n) (Trees [.rule .decl]) n :=
  .rule (.ifNext (.alt 0 rfl (parses_varDecl.fewer (Nat.le_succ n)))
    (.ifNext (.alt 1 rfl (parses_constDecl.fewer (Nat.le_succ n)))
      (.ifNext (.ifAhead (.alt 3 rfl parses_interfaceDecl) (.alt 2 rfl parses_structDecl) rfl)
        (.ifAhead (.alt 5 rfl parses_methodDecl) (.alt 4 rfl parses_funcDecl) rfl))))

/-- A program takes all tokens, or it stops at a token and those before can be completed to
a program. -/
theorem program_outcome {ts : TokenList} (hts : Closed ts) (hlen : ts.length < n) :
    (∃ t, program n ts = .ok ([t], []) ∧ Trees [.rule .program] ts [t]) ∨
      ∃ u t r v cs, program n ts = .error (.unexpected t r) ∧ ts = u ++ t :: r ∧
        Trees [.rule .program] (u ++ v) cs := by
  have hbody : Parses (seq [decl n, manyTrees [declStart] (decl n) n])
      (Trees [.many1 .next [.rule .decl]]) n :=
    InOrder.parses (.many1 rfl parses_decl (Nat.le_refl n) rfl .nil) rfl
  have hprogram : program n = rule .program
      (seq ([decl n, manyTrees [declStart] (decl n) n] ++ [expect .eof])) := rfl
  have hnode (cs : Forest) (t : Token TokenKind) (ht : t.kind = .eof)
      (hcs : miniGo.Grows [.many1 .next [.rule .decl]] cs) :
      miniGo.Grows [.rule .program] [.node .program (cs ++ [Tree.leaf t])] :=
    grows_node 0 rfl (hcs.append (Grammar.grows_token.2 ⟨t, ht, rfl⟩))
  rw [hprogram, seq_append, rule, bind_apply, bind_apply]
  let stop : Token TokenKind := ⟨.eof, "", default⟩
  have h := hbody ts hts hlen
  generalize seq [decl n, manyTrees [declStart] (decl n) n] ts = res at h
  cases h with
  | @stuck u r v t cs heq hcs =>
    obtain ⟨hl, hg⟩ := hcs
    exact .inr ⟨u, t, r, v ++ [stop], _, rfl, heq, by simp [hl], hnode cs stop rfl hg⟩
  | @done u r cs heq hcs hr =>
    obtain ⟨rfl, hg⟩ := hcs
    obtain ⟨t, r, rfl⟩ := hr.exists_cons
    by_cases ht : t.kind = .eof
    · obtain rfl := hr.eq_nil ht
      exact .inl ⟨_, by simp [bind_apply, expect, oneOf, ht], by simp [heq], hnode cs t ht hg⟩
    · exact .inr ⟨_, t, r, [stop], _, by simp [bind_apply, expect, oneOf, ht], heq, by simp,
        hnode cs stop rfl hg⟩

end MiniGoc.Reader
