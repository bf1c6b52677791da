import MiniGoc.Proofs.Building
import MiniGoc.Proofs.Parsing

/-!
# Every phrase has a form

`Build.makes_of_derives` says that a phrase of the grammar has one of the forms of `Build.Makes`
and that its node is the one of this form.  There is one lemma for each rule: the alternatives of
the rule are inverted with the punctuation left out, and the node is computed from the children.
What is then proved of all phrases goes by the forms and needs neither the grammar nor the rules
of the builder.
-/

namespace MiniGoc

open Grammar (miniGo RulePart)

namespace Build

open SyntaxTree

/-! ## Parts of given children -/

@[simp] theorem ok_bind {α β : Type} (a : α) (f : α → Except Fault β) :
    (Except.ok a : Except Fault α) >>= f = f a := rfl

@[simp] theorem text_leaf (t : Token TokenKind) : (Tree.leaf t : SyntaxTree).text = t.text := by
  simp [Tree.text, String.join]

namespace Parts

variable {r s : Rule} {k : TokenKind} {t : Token TokenKind} {cs ds : Forest}

@[simp] theorem child?_nil : child? (parts []) r = none := by rw [parts]; rfl

@[simp] theorem child?_node : child? (parts (.node s ds :: cs)) r =
    if s = r then some ⟨.node s ds, toNode (.node s ds)⟩ else child? (parts cs) r := by
  rw [parts]
  by_cases h : s = r <;> simp [child?, Tree.isRule, h]

@[simp] theorem child?_leaf : child? (parts (.leaf t :: cs)) r = child? (parts cs) r := by
  rw [parts]
  simp [child?, Tree.isRule]

@[simp] theorem token?_nil : token? (parts []) k = none := by rw [parts]; rfl

@[simp] theorem token?_node : token? (parts (.node s ds :: cs)) k = token? (parts cs) k := by
  rw [parts]
  simp [token?, Tree.isToken]

@[simp] theorem token?_leaf : token? (parts (.leaf t :: cs)) k =
    if t.kind = k then some (.leaf t) else token? (parts cs) k := by
  rw [parts]
  by_cases h : t.kind = k <;> simp [token?, Tree.isToken, h]

@[simp] theorem texts_nil : texts (parts []) k = [] := by rw [parts]; rfl

@[simp] theorem texts_node : texts (parts (.node s ds :: cs)) k = texts (parts cs) k := by
  rw [parts]
  simp [texts, Tree.isToken]

@[simp] theorem texts_leaf : texts (parts (.leaf t :: cs)) k =
    if t.kind = k then t.text :: texts (parts cs) k else texts (parts cs) k := by
  rw [parts]
  by_cases h : t.kind = k <;> simp [texts, Tree.isToken, h]

@[simp] theorem first_parts {c : SyntaxTree} : first (parts (c :: cs)) = toNode c := by
  rw [parts]
  rfl

@[simp] theorem firstText_parts {c : SyntaxTree} : firstText (parts (c :: cs)) = .ok c.text := by
  rw [parts]
  rfl

@[simp] theorem getAll_node : getAll (parts (.node s ds :: cs)) r =
    if s = r then do return (← toNode (.node s ds)) :: (← getAll (parts cs) r)
    else getAll (parts cs) r := by
  rw [parts]
  by_cases h : s = r <;> simp [getAll, Tree.isRule, h, -bind_pure_comp]

@[simp] theorem getAll_leaf : getAll (parts (.leaf t :: cs)) r = getAll (parts cs) r := by
  rw [parts]
  simp [getAll, Tree.isRule]

theorem getAll_uniform (h : Uniform r cs) : getAll (parts cs) r = cs.mapM toNode := by
  rw [getAll, parts_eq, List.filter_eq_self.2, List.mapM_map]
  · rfl
  · simpa [Uniform] using h

theorem child?_leaves (xs : TokenList) :
    child? (parts (xs.map Tree.leaf ++ cs)) r = child? (parts cs) r := by
  induction xs with
  | nil => rfl
  | cons x xs ih => simp [ih]

theorem texts_leaves {xs : TokenList} (hxs : ∀ x ∈ xs, x.kind = k) :
    texts (parts (xs.map Tree.leaf ++ cs)) k = xs.map Token.text ++ texts (parts cs) k := by
  induction xs with
  | nil => rfl
  | cons x xs ih =>
    obtain ⟨hx, hxs⟩ := List.forall_mem_cons.1 hxs
    simp [hx, ih hxs]

theorem child?_uniform (h : Uniform s cs) (hs : s ≠ r) : child? (parts cs) r = none := by
  rw [child?, parts_eq, List.find?_eq_none]
  intro b hb
  obtain ⟨c, hc, rfl⟩ := List.mem_map.1 hb
  have := h c hc
  cases c <;> simp_all [Tree.isRule]

theorem token?_uniform (h : Uniform s cs) : token? (parts cs) k = none := by
  rw [token?, parts_eq, Option.map_eq_none_iff, List.find?_eq_none]
  intro b hb
  obtain ⟨c, hc, rfl⟩ := List.mem_map.1 hb
  have := h c hc
  cases c <;> simp_all [Tree.isRule, Tree.isToken]

end Parts

open Parts

/-! ## The rules -/

/-- All phrases of the rule have one of the forms. -/
def Forms (r : Rule) : Prop :=
  ∀ cs, ShapeAny TokenKind.punctuation (miniGo.alternatives r).alts (· = []) cs →
    Makes r cs (node r (parts cs))

variable {r s : Rule} {cs : Forest} {ks : List TokenKind}

theorem Makes.of_eq {x y : Except Fault Node} (h : Makes r cs x) (e : y = x) : Makes r cs y := e ▸ h

/-! ### Phrases that are another phrase, or a list -/

theorem forms_inner (hr : (miniGo.alternatives r).alts = (inner r).map fun s => [.rule s])
    (hn : ∀ ps, node r ps = ps.first) : Forms r := by
  intro cs h
  obtain ⟨a, ha, h⟩ := h.exists_mem
  rw [hr] at ha
  obtain ⟨s, hs, rfl⟩ := List.mem_map.1 ha
  obtain ⟨ds, _, -, rfl, rfl⟩ := h
  exact (Makes.inner hs).of_eq (by simp [hn])

theorem Makes.of_list {f : List Node → Node} (hl : listed r = some (s, f))
    (hn : ∀ ps, node r ps = do return f (← ps.getAll s)) (h : Uniform s cs) :
    Makes r cs (node r (parts cs)) :=
  (Makes.list hl h).of_eq (by rw [hn, getAll_uniform h])

theorem forms_decl : Forms .decl := forms_inner rfl fun _ => rfl

theorem forms_stmt : Forms .stmt := forms_inner rfl fun _ => rfl

theorem forms_forStmt : Forms .forStmt := forms_inner rfl fun _ => rfl

theorem forms_expr6 : Forms .expr6 := forms_inner rfl fun _ => rfl

theorem forms_callStmt : Forms .callStmt := by
  rintro _ (⟨ds, _, -, rfl, rfl⟩ | ⟨ds, _, -, rfl, rfl⟩) <;>
  exact (Makes.inner (by decide)).of_eq (by simp [node])

theorem uniform_listOf (h : ShapeAny TokenKind.punctuation (Grammar.listOf r).alts (· = []) cs) :
    Uniform r cs := by
  obtain ⟨ds, _, -, rfl, as, _, hu, rfl, rfl⟩ := h
  simpa using Uniform.cons hu ds

theorem forms_argumentList : Forms .argumentList := fun _ h =>
  .of_list rfl (fun _ => rfl) (uniform_listOf h)

theorem forms_arrayEleList : Forms .arrayEleList := fun _ h =>
  .of_list rfl (fun _ => rfl) (uniform_listOf h)

theorem forms_structEleList : Forms .structEleList := fun _ h =>
  .of_list rfl (fun _ => rfl) (uniform_listOf h)

theorem forms_elseIfList : Forms .elseIfList := by
  rintro _ ⟨as, _, hu, rfl, rfl⟩
  rw [List.append_nil]
  exact .of_list rfl (fun _ => rfl) hu

theorem forms_program : Forms .program := by
  rintro _ ⟨ds, _, -, rfl, as, _, hu, rfl, rfl⟩
  exact .of_list rfl (fun _ => rfl) (by simpa using Uniform.cons hu ds)

theorem forms_block : Forms .block := by
  rintro _ ⟨ds, _, -, rfl, as, _, hu, rfl, rfl⟩
  exact .of_list rfl (fun _ => rfl) (by simpa using Uniform.cons hu ds)

/-! ### Declarations and statements -/

theorem forms_varDecl : Forms .varDecl := by
  rintro _ ⟨x, _, hx, rfl, ⟨ts, _, -, rfl, rfl⟩ | ⟨es, _, -, rfl, rfl⟩ |
    ⟨ts, _, -, rfl, es, _, -, rfl, rfl⟩⟩
  · refine (Makes.varType hx).of_eq ?_
    simp [-bind_pure_comp, node, Parts.text, getOr, hx]
  · refine (Makes.varInit (by simp) hx).of_eq ?_
    simp [-bind_pure_comp, node, Parts.text, getOr, hx]
  · refine (Makes.varBoth (by simp) hx).of_eq ?_
    simp [-bind_pure_comp, node, Parts.text, getOr, hx]

theorem forms_constDecl : Forms .constDecl := by
  rintro _ ⟨x, _, hx, rfl, es, _, -, rfl, rfl⟩
  refine (Makes.const hx).of_eq ?_
  simp [-bind_pure_comp, node, Parts.text, Parts.get, hx]

theorem exists_of_operator (hr : miniGo.alternatives r = Grammar.one [.anyOf ks])
    (h : Tree.Derives miniGo (.node r cs)) :
    ∃ o : Token TokenKind, o.kind ∈ ks ∧ cs = [.leaf o] := by
  obtain ⟨a, ha, hgrows⟩ := Grammar.derives_node.1 h
  rw [hr] at ha
  obtain rfl := List.mem_singleton.1 ha
  exact Grammar.grows_anyOf.1 hgrows

theorem forms_assignStmt : Forms .assignStmt := by
  rintro _ ⟨ls, _, -, rfl, os, _, hos, rfl, es, _, -, rfl, rfl⟩
  obtain ⟨o, ho, rfl⟩ := exists_of_operator rfl hos
  refine (Makes.assign ho).of_eq ?_
  simp [node, Parts.get, ruleText, Tree.text, String.join]

theorem forms_update : Forms .update := by
  rintro _ ⟨x, _, hx, rfl, os, _, hos, rfl, es, _, -, rfl, rfl⟩
  obtain ⟨o, ho, rfl⟩ := exists_of_operator rfl hos
  refine (Makes.update hx ho).of_eq ?_
  simp [node, Parts.get, Parts.text, ruleText, hx, Tree.text, String.join]

theorem forms_ifStmt : Forms .ifStmt := by
  rintro _ ⟨cs, _, -, rfl, ds, _, -, rfl, o, _, rfl, rfl⟩
  rw [List.append_nil]
  refine Makes.branch.of_eq ?_
  cases o <;> simp [node, Parts.get, getOr, maybe, nodeOr]

theorem forms_onlyIf : Forms .onlyIf := by
  rintro _ ⟨es, _, -, rfl, bs, _, -, rfl, rfl⟩
  exact Makes.onlyIf.of_eq (by simp [node, Parts.get])

theorem forms_elseStmt : Forms .elseStmt := by
  rintro _ ⟨bs, _, -, rfl, rfl⟩
  exact (Makes.inner (by decide)).of_eq (by simp [node, Parts.get])

theorem forms_basicFor : Forms .basicFor := by
  rintro _ ⟨es, _, -, rfl, bs, _, -, rfl, rfl⟩
  exact Makes.forBasic.of_eq (by simp [node, Parts.get])

theorem forms_forInitial : Forms .forInitial := by
  rintro _ ⟨is, _, -, rfl, es, _, -, rfl, us, _, -, rfl, bs, _, -, rfl, rfl⟩
  exact Makes.forStep.of_eq (by simp [node, Parts.get])

theorem forms_initialization : Forms .initialization := by
  rintro _ (⟨us, _, -, rfl, rfl⟩ | ⟨x, _, hx, rfl, ⟨es, _, -, rfl, rfl⟩ |
    ⟨ts, _, -, rfl, es, _, -, rfl, rfl⟩⟩)
  · refine (Makes.inner (by decide)).of_eq ?_
    simp [node, Parts.get, has]
  · refine (Makes.varInit (by simp) hx).of_eq ?_
    simp [-bind_pure_comp, node, Parts.text, has, Parts.get, getOr, hx]
  · refine (Makes.varBoth (by simp) hx).of_eq ?_
    simp [-bind_pure_comp, node, Parts.text, has, Parts.get, getOr, hx]

theorem forms_forRange : Forms .forRange := by
  rintro _ ⟨x, _, hx, rfl, y, _, hy, rfl, d, _, hd, rfl, es, _, -, rfl, bs, _, -, rfl, rfl⟩
  refine (Makes.forEach hx hy hd).of_eq ?_
  simp [node, Parts.get, textAt, hx, hy, hd]

theorem forms_breakStmt : Forms .breakStmt := by
  rintro _ rfl
  exact .breakLoop

theorem forms_continueStmt : Forms .continueStmt := by
  rintro _ rfl
  exact .continueLoop

theorem forms_returnStmt : Forms .returnStmt := by
  rintro _ ⟨o, _, rfl, rfl⟩
  rw [List.append_nil]
  refine Makes.ret.of_eq ?_
  cases o <;> simp [node, getOr, maybe, nodeOr]

/-! ### Functions and calls -/

@[simp] theorem function_leaf {t : Token TokenKind} (n : String) :
    function (parts (.leaf t :: cs)) n = function (parts cs) n := by
  simp [function, heading, getOr, Parts.get]

@[simp] theorem function_parts {ps t : Option Forest} {bs : Forest} (n : String) :
    function (parts (maybe .paramList ps ++ (maybe .typ t ++ [Tree.node .block bs]))) n =
      functionOf n ps t bs := by
  simp only [function, heading, functionOf, getOr, Parts.get]
  cases ps <;> cases t <;> simp [maybe, nodeOr]

theorem forms_funcDecl : Forms .funcDecl := by
  rintro _ ⟨x, _, hx, rfl, ps, _, rfl, t, _, rfl, bs, _, -, rfl, rfl⟩
  refine (Makes.func hx).of_eq ?_
  simp [node, Parts.text, hx]

theorem forms_methodDecl : Forms .methodDecl := by
  rintro _ ⟨x, _, hx, rfl, y, _, hy, rfl, z, _, hz, rfl, ps, _, rfl, t, _, rfl, bs, _, -, rfl, rfl⟩
  refine (Makes.method hx hy hz).of_eq ?_
  simp [-bind_pure_comp, node, Parts.textAt, hx, hy, hz]

theorem forms_funcCall : Forms .funcCall := by
  rintro _ ⟨x, _, hx, rfl, o, _, rfl, rfl⟩
  rw [List.append_nil]
  refine (Makes.call hx).of_eq ?_
  cases o <;> simp [node, Parts.text, getOr, hx, maybe, nodeOr]

theorem forms_methodCall : Forms .methodCall := by
  rintro _ ⟨cs, _, -, rfl, fs, _, -, rfl, rfl⟩
  exact Makes.methodCall.of_eq (by simp [node, Parts.get])

/-! ### Types -/

theorem forms_primitiveType : Forms .primitiveType := by
  rintro _ ⟨t, _, ht, rfl, rfl⟩
  refine (Makes.primitive ht).of_eq ?_
  simp only [Grammar.primitiveKinds, List.mem_cons, List.not_mem_nil, or_false] at ht
  obtain ht | ht | ht | ht := ht <;> simp [node, ht, primitive]

theorem forms_typ : Forms .typ := by
  rintro _ (⟨ts, _, -, rfl, rfl⟩ | ⟨x, _, hx, rfl, rfl⟩ | ⟨ts, _, -, rfl, rfl⟩)
  · exact (Makes.inner (by decide)).of_eq (by simp [node])
  · exact (Makes.name (by simp) hx).of_eq (by simp [node, hx])
  · exact (Makes.inner (by decide)).of_eq (by simp [node])

theorem forms_arrayType : Forms .arrayType := by
  rintro _ (⟨ds, _, -, rfl, ts, _, -, rfl, rfl⟩ |
    ⟨ds, _, -, rfl, ⟨ts, _, -, rfl, rfl⟩ | ⟨x, _, hx, rfl, rfl⟩⟩)
  · exact Makes.arrayMore.of_eq (by simp [node, has, Parts.get])
  · exact Makes.arrayPrimitive.of_eq (by simp [node, has, Parts.get])
  · exact (Makes.arrayNamed hx).of_eq
      (by simp [-bind_pure_comp, node, has, Parts.get, Parts.text, hx])

theorem forms_arrayLiteralBox : Forms .arrayLiteralBox := by
  rintro _ ⟨t, _, ht, rfl, rfl⟩
  simp only [List.mem_cons, List.not_mem_nil, or_false] at ht
  obtain ht | ht := ht
  · exact (Makes.sizeLit ht).of_eq (by simp [node, ht])
  · exact (Makes.sizeName ht).of_eq (by simp [-bind_pure_comp, node, ht, Parts.text]; rfl)

theorem forms_arrayAccessBox : Forms .arrayAccessBox := by
  rintro _ ⟨es, _, -, rfl, rfl⟩
  exact (Makes.inner (by decide)).of_eq (by simp [node, Parts.get])

/-! ### Expressions -/

theorem forms_subExpr : Forms .subExpr := by
  rintro _ ⟨es, _, -, rfl, rfl⟩
  exact (Makes.inner (by decide)).of_eq (by simp [node, Parts.get])

theorem forms_lhs : Forms .lhs := by
  rintro _ (⟨x, _, hx, rfl, rfl⟩ | ⟨ds, _, -, rfl, rfl⟩ | ⟨ds, _, -, rfl, rfl⟩)
  · exact (Makes.name (by simp) hx).of_eq (by simp [node, hx])
  · exact (Makes.inner (by decide)).of_eq (by simp [node])
  · exact (Makes.inner (by decide)).of_eq (by simp [node])

theorem makes_tokenLevel {k : TokenKind} {o : Token TokenKind} {ls rs : Forest}
    (hl : levels r = some (s, none)) (hrs : r ≠ s) (hk : k ∈ binaryKinds)
    (hn : ∀ ps, node r ps = level ps (tokenOperator? ps k) r s) (ho : o.kind = k) :
    Makes r [.node r ls, .leaf o, .node s rs]
      (node r (parts [.node r ls, .leaf o, .node s rs])) := by
  refine (@Makes.binary _ _ none o ls rs hl (ho ▸ hk)).of_eq ?_
  simp [hn, ho, hrs, level, tokenOperator?, Parts.get]

theorem makes_ruleLevel {q : Rule} {ls os rs : Forest}
    (hq : miniGo.alternatives q = Grammar.one [.anyOf ks]) (hl : levels r = some (s, some q))
    (hne : r ≠ s ∧ r ≠ q ∧ q ≠ s) (hks : ∀ k ∈ ks, k ∈ binaryKinds)
    (hn : ∀ ps, node r ps = level ps (operator? ps q) r s)
    (hos : Tree.Derives miniGo (.node q os)) :
    Makes r [.node r ls, .node q os, .node s rs]
      (node r (parts [.node r ls, .node q os, .node s rs])) := by
  obtain ⟨o, ho, rfl⟩ := exists_of_operator hq hos
  refine (@Makes.binary _ _ (some q) o ls rs hl (hks _ ho)).of_eq ?_
  simp [hn, hne, level, operator?, Parts.get, Tree.text, String.join]

theorem forms_expr : Forms .expr := by
  rintro _ (⟨ls, _, -, rfl, o, _, ho, rfl, rs, _, -, rfl, rfl⟩ | ⟨es, _, -, rfl, rfl⟩)
  · exact makes_tokenLevel rfl (by decide) (by decide) (fun _ => rfl) ho
  · exact (Makes.inner (by decide)).of_eq (by simp [node, level, tokenOperator?, Parts.get])

theorem forms_expr1 : Forms .expr1 := by
  rintro _ (⟨ls, _, -, rfl, o, _, ho, rfl, rs, _, -, rfl, rfl⟩ | ⟨es, _, -, rfl, rfl⟩)
  · exact makes_tokenLevel rfl (by decide) (by decide) (fun _ => rfl) ho
  · exact (Makes.inner (by decide)).of_eq (by simp [node, level, tokenOperator?, Parts.get])

theorem forms_expr2 : Forms .expr2 := by
  rintro _ (⟨ls, _, -, rfl, os, _, hos, rfl, rs, _, -, rfl, rfl⟩ | ⟨es, _, -, rfl, rfl⟩)
  · exact makes_ruleLevel rfl rfl (by decide) (by decide) (fun _ => rfl) hos
  · exact (Makes.inner (by decide)).of_eq (by simp [node, level, operator?, Parts.get])

theorem forms_expr3 : Forms .expr3 := by
  rintro _ (⟨ls, _, -, rfl, os, _, hos, rfl, rs, _, -, rfl, rfl⟩ | ⟨es, _, -, rfl, rfl⟩)
  · exact makes_ruleLevel rfl rfl (by decide) (by decide) (fun _ => rfl) hos
  · exact (Makes.inner (by decide)).of_eq (by simp [node, level, operator?, Parts.get])

theorem forms_expr4 : Forms .expr4 := by
  rintro _ (⟨ls, _, -, rfl, os, _, hos, rfl, rs, _, -, rfl, rfl⟩ | ⟨es, _, -, rfl, rfl⟩)
  · exact makes_ruleLevel rfl rfl (by decide) (by decide) (fun _ => rfl) hos
  · exact (Makes.inner (by decide)).of_eq (by simp [node, level, operator?, Parts.get])

theorem forms_expr5 : Forms .expr5 := by
  rintro _ (⟨o, _, ho, rfl, es, _, -, rfl, rfl⟩ | ⟨es, _, -, rfl, rfl⟩)
  · exact (Makes.unary ho).of_eq (by simp [node, has, Parts.get])
  · exact (Makes.inner (by decide)).of_eq (by simp [node, has, Parts.get])

theorem literal?_leaf {t : Token TokenKind} (ht : t.kind ∈ literalKinds) (isOperand : Bool) :
    literal? (parts [.leaf t]) (if isOperand then readInt else spelling)
      (if isOperand then readFloat else spelling) = some (literal isOperand t) := by
  simp only [literalKinds, List.mem_cons, List.not_mem_nil, or_false] at ht
  obtain ht | ht | ht | ht | ht := ht <;> cases isOperand <;> simp [literal?, literal, ht] <;> rfl

theorem literal?_name {x : Token TokenKind} (hx : x.kind = .ident)
    (number decimal : String → Except Fault Node) :
    literal? (parts [.leaf x]) number decimal = some (.ok (.id x.text)) := by
  simp [literal?, hx]

theorem literal?_node {ds : Forest} (number decimal : String → Except Fault Node) :
    literal? (parts [.node r ds]) number decimal = none := by
  simp [literal?]

theorem forms_atom (hr : ∀ a ∈ (miniGo.alternatives r).alts,
      (∃ k ∈ TokenKind.ident :: literalKinds, a = [.token k]) ∨ ∃ s ∈ inner r, a = [.rule s])
    (hm : r = .operand ∨ r = .arrayEle)
    (hn : ∀ ps, node r ps = (literal? ps (if r == .operand then readInt else spelling)
      (if r == .operand then readFloat else spelling)).getD ps.first) : Forms r := by
  intro cs h
  obtain ⟨a, ha, h⟩ := h.exists_mem
  obtain ⟨k, hk, rfl⟩ | ⟨s, hs, rfl⟩ := hr a ha
  · have hp : k ∉ TokenKind.punctuation :=
      (by decide : ∀ k ∈ TokenKind.ident :: literalKinds, k ∉ TokenKind.punctuation) k hk
    rw [ShapeAll, Shape, if_neg hp] at h
    obtain ⟨t, _, rfl, rfl, rfl⟩ := h
    obtain ht | ht := List.mem_cons.1 hk
    · refine (Makes.name (by grind) ht).of_eq ?_
      rw [hn, literal?_name ht, Option.getD_some]
    · refine (Makes.literal (by grind) ht).of_eq ?_
      rw [hn, literal?_leaf ht, Option.getD_some]
  · obtain ⟨ds, _, -, rfl, rfl⟩ := h
    refine (Makes.inner hs).of_eq ?_
    simp [hn, literal?_node]

theorem forms_operand : Forms .operand :=
  forms_atom (by simp [miniGo, Grammar.miniGoAlternatives, literalKinds, inner]) (.inl rfl)
    fun ps => by cases h : literal? ps readInt readFloat <;> simp [node, h]

theorem forms_arrayEle : Forms .arrayEle :=
  forms_atom (by simp [miniGo, Grammar.miniGoAlternatives, literalKinds, inner]) (.inr rfl)
    fun ps => by cases h : literal? ps spelling spelling <;> simp [node, h]

theorem forms_arrayLiteral : Forms .arrayLiteral := by
  rintro _ ⟨ts, _, -, rfl, es, _, -, rfl, rfl⟩
  exact Makes.arrayLit.of_eq (by simp [node, Parts.get])

theorem forms_shortArrayLiteral : Forms .shortArrayLiteral := by
  rintro _ ⟨es, _, -, rfl, rfl⟩
  exact Makes.shortArray.of_eq (by simp [node, Parts.get])

theorem forms_structLiteral : Forms .structLiteral := by
  rintro _ ⟨x, _, hx, rfl, o, _, rfl, rfl⟩
  rw [List.append_nil]
  refine (Makes.structLit hx).of_eq ?_
  cases o <;> simp [node, Parts.text, getOr, hx, maybe, nodeOr]

theorem forms_structEle : Forms .structEle := by
  rintro _ ⟨x, _, hx, rfl, es, _, -, rfl, rfl⟩
  exact (Makes.pair (by simp) hx).of_eq (by simp [node, Parts.text, Parts.get, hx])

theorem forms_structAccess : Forms .structAccess := by
  rintro _ ⟨cs, _, -, rfl, x, _, hx, rfl, rfl⟩
  exact (Makes.field (by simp) hx).of_eq
    (by simp [-bind_pure_comp, node, Parts.text, Parts.get, hx])

theorem forms_arrayAccess : Forms .arrayAccess := by
  rintro _ (⟨cs, _, -, rfl, ⟨x, _, hx, rfl, ds, _, -, rfl, as, _, hu, rfl, rfl⟩ |
    ⟨fs, _, -, rfl, ds, _, -, rfl, as, _, hu, rfl, rfl⟩⟩ |
    ⟨os, _, -, rfl, ds, _, -, rfl, as, _, hu, rfl, rfl⟩) <;>
  rw [List.append_nil]
  · have hu := Uniform.cons hu ds
    refine (Makes.cellField hx hu).of_eq ?_
    simp [node, has, Parts.get, child?_uniform hu, getAll_uniform hu, hx]
  · have hu := Uniform.cons hu ds
    refine (Makes.cellCall hu).of_eq ?_
    simp [node, has, Parts.get, child?_uniform hu, token?_uniform hu, getAll_uniform hu]
  · have hu := Uniform.cons hu ds
    refine (Makes.cell (by simp) (by simp) hu).of_eq ?_
    simp [node, has, Parts.get, getAll_uniform hu]

theorem forms_chain : Forms .chain := by
  rintro _ (⟨os, _, -, rfl, rfl⟩ | ⟨cs, _, -, rfl, x, _, hx, rfl, rfl⟩ |
    ⟨cs, _, -, rfl, ds, _, -, rfl, as, _, hu, rfl, rfl⟩ | ⟨cs, _, -, rfl, fs, _, -, rfl, rfl⟩)
  · exact (Makes.inner (by decide)).of_eq (by simp [node, has, Parts.get])
  · exact (Makes.field (by simp) hx).of_eq (by simp [node, has, Parts.get, hx])
  · rw [List.append_nil]
    have hu := Uniform.cons hu ds
    refine (Makes.cell (by simp) (by simp) hu).of_eq ?_
    simp [node, has, Parts.get, child?_uniform hu, token?_uniform hu, getAll_uniform hu]
  · exact Makes.chainCall.of_eq (by simp [node, has, Parts.get])

/-! ### Structs, interfaces and parameters -/

theorem forms_structDecl : Forms .structDecl := by
  rintro _ ⟨x, _, hx, rfl, ds, _, -, rfl, as, _, hu, rfl, rfl⟩
  rw [List.append_nil]
  have hu := Uniform.cons hu ds
  refine (Makes.structDecl hx hu).of_eq ?_
  rw [node, Parts.text, getAll_leaf, getAll_uniform hu]
  simp [hx]

theorem forms_structField : Forms .structField := by
  rintro _ ⟨x, _, hx, rfl, es, _, -, rfl, rfl⟩
  exact (Makes.pair (by simp) hx).of_eq (by simp [node, Parts.text, Parts.get, hx])

theorem forms_interfaceDecl : Forms .interfaceDecl := by
  rintro _ ⟨x, _, hx, rfl, ds, _, -, rfl, as, _, hu, rfl, rfl⟩
  rw [List.append_nil]
  have hu := Uniform.cons hu ds
  refine (Makes.interfaceDecl hx hu).of_eq ?_
  rw [node, Parts.text, getAll_leaf, getAll_uniform hu]
  simp [hx]

theorem forms_interfaceMethod : Forms .interfaceMethod := by
  rintro _ ⟨x, _, hx, rfl, ps, _, rfl, t, _, rfl, rfl⟩
  rw [List.append_nil]
  refine (Makes.prototype hx).of_eq ?_
  cases ps <;> cases t <;>
    simp [node, heading, Parts.text, getOr, hx, maybe, nodeOr]

theorem forms_paramList : Forms .paramList := by
  intro cs h
  have hu := uniform_listOf h
  refine (Makes.paramList hu).of_eq ?_
  simp [node, getAll_uniform hu]

theorem forms_paramDecl : Forms .paramDecl := by
  rintro _ ⟨x, _, hx, rfl, _, _, ⟨ys, hys, rfl⟩, rfl, ts, _, -, rfl, rfl⟩
  have hxs : ∀ y ∈ x :: ys, y.kind = .ident := List.forall_mem_cons.2 ⟨hx, hys⟩
  refine (Makes.paramDecl hxs : Makes _ ((x :: ys).map Tree.leaf ++ _) _).of_eq ?_
  simp [node, Parts.get, child?_leaves, texts_leaves hys, hx]

theorem makes_operator {o : Token TokenKind}
    (hr : r ∈ [.highOperator, .lowOperator, .relationalOperator, .assignOperator])
    (hks : ∀ k ∈ ks, k ∈ binaryKinds ++ Grammar.assignKinds)
    (hn : ∀ ps, node r ps = do return .text (← ps.firstText)) (ho : o.kind ∈ ks) :
    Makes r [.leaf o] (node r (parts [.leaf o])) := by
  refine (Makes.operator hr (hks _ ho)).of_eq ?_
  simp only [hn, firstText_parts, text_leaf]
  rfl

/-- Every phrase of the grammar has one of the forms. -/
theorem forms (r : Rule) : Forms r := by
  cases r with
  | highOperator | lowOperator | relationalOperator | assignOperator =>
    rintro _ ⟨o, _, ho, rfl, rfl⟩
    exact makes_operator (by decide) (by decide) (fun _ => rfl) ho
  | program => exact forms_program
  | decl => exact forms_decl
  | stmt => exact forms_stmt
  | block => exact forms_block
  | varDecl => exact forms_varDecl
  | constDecl => exact forms_constDecl
  | assignStmt => exact forms_assignStmt
  | lhs => exact forms_lhs
  | ifStmt => exact forms_ifStmt
  | onlyIf => exact forms_onlyIf
  | elseIfList => exact forms_elseIfList
  | elseStmt => exact forms_elseStmt
  | forStmt => exact forms_forStmt
  | basicFor => exact forms_basicFor
  | forInitial => exact forms_forInitial
  | initialization => exact forms_initialization
  | update => exact forms_update
  | forRange => exact forms_forRange
  | breakStmt => exact forms_breakStmt
  | continueStmt => exact forms_continueStmt
  | callStmt => exact forms_callStmt
  | returnStmt => exact forms_returnStmt
  | funcDecl => exact forms_funcDecl
  | funcCall => exact forms_funcCall
  | argumentList => exact forms_argumentList
  | methodDecl => exact forms_methodDecl
  | methodCall => exact forms_methodCall
  | primitiveType => exact forms_primitiveType
  | typ => exact forms_typ
  | expr => exact forms_expr
  | expr1 => exact forms_expr1
  | expr2 => exact forms_expr2
  | expr3 => exact forms_expr3
  | expr4 => exact forms_expr4
  | expr5 => exact forms_expr5
  | expr6 => exact forms_expr6
  | subExpr => exact forms_subExpr
  | operand => exact forms_operand
  | arrayType => exact forms_arrayType
  | arrayLiteralBox => exact forms_arrayLiteralBox
  | arrayAccessBox => exact forms_arrayAccessBox
  | arrayLiteral => exact forms_arrayLiteral
  | arrayEleList => exact forms_arrayEleList
  | arrayEle => exact forms_arrayEle
  | shortArrayLiteral => exact forms_shortArrayLiteral
  | arrayAccess => exact forms_arrayAccess
  | structDecl => exact forms_structDecl
  | structField => exact forms_structField
  | structLiteral => exact forms_structLiteral
  | structEleList => exact forms_structEleList
  | structEle => exact forms_structEle
  | structAccess => exact forms_structAccess
  | chain => exact forms_chain
  | interfaceDecl => exact forms_interfaceDecl
  | interfaceMethod => exact forms_interfaceMethod
  | paramList => exact forms_paramList
  | paramDecl => exact forms_paramDecl

/-! ## The node of a phrase -/

theorem parts_core (cs : Forest) : parts (SyntaxTree.core cs) = Parts.core (parts cs) := by
  simp only [parts_eq, Parts.core, SyntaxTree.kept, List.filter_map]
  rfl

/-- A part that is one child that counts. -/
def isSolid : RulePart → Bool
  | .rule _ => true
  | .token k => k ∉ TokenKind.punctuation
  | .anyOf ks => ks.all (· ∉ TokenKind.punctuation)
  | _ => false

theorem core_of_solid {ps : List RulePart} (hps : ∀ p ∈ ps, isSolid p = true)
    (h : miniGo.Grows ps cs) : SyntaxTree.kept TokenKind.punctuation cs = cs := by
  induction ps generalizing cs with
  | nil => simp [Grammar.grows_nil.1 h]
  | cons p ps ih =>
    obtain ⟨hp, hps⟩ := List.forall_mem_cons.1 hps
    obtain ⟨as, bs, rfl, ha, hb⟩ := Grammar.grows_cons.1 h
    rw [SyntaxTree.kept_append, ih hps hb]
    cases p with
    | rule r =>
      obtain ⟨ds, rfl, -⟩ := Grammar.grows_rule.1 ha
      simp
    | token k =>
      obtain ⟨t, rfl, rfl⟩ := Grammar.grows_token.1 ha
      simp [SyntaxTree.kept_leaf (by simpa [isSolid] using hp)]
    | anyOf ks =>
      obtain ⟨t, ht, rfl⟩ := Grammar.grows_anyOf.1 ha
      have hp : ∀ k ∈ ks, k ∉ TokenKind.punctuation := by simpa [isSolid] using hp
      simp [SyntaxTree.kept_leaf (hp _ ht)]
    | _ => simp [isSolid] at hp

theorem solid_of_leading : ∀ r ∈ leading,
    r = .callStmt ∨ ∀ a ∈ (miniGo.alternatives r).alts, ∀ p ∈ a, isSolid p = true := by
  decide

theorem toNode_core (h : Tree.Derives miniGo (.node r cs)) :
    toNode (.node r cs) = node r (parts (SyntaxTree.core cs)) := by
  rw [toNode]
  by_cases hr : r ∉ leading
  · rw [parts_core, node_core hr]
  obtain rfl | hsolid := solid_of_leading r (Decidable.not_not.1 hr)
  · have hcs := shape_of_derives [] h
    rw [kept_all] at hcs
    obtain ⟨ds, _, -, rfl, t, _, ht, rfl, rfl⟩ | ⟨ds, _, -, rfl, t, _, ht, rfl, rfl⟩ := hcs <;>
      simp [node]
  · obtain ⟨a, ha, hgrows⟩ := Grammar.derives_node.1 h
    rw [SyntaxTree.core, core_of_solid (hsolid a ha) hgrows]

/-- A phrase has one of the forms, and its node is made from what counts in it. -/
theorem makes_of_derives (h : Tree.Derives miniGo (.node r cs)) :
    Makes r (SyntaxTree.core cs) (toNode (.node r cs)) := by
  rw [toNode_core h]
  exact forms r _ (shape_of_derives _ h)

/-! ## The helpers of the builder -/

section Helpers

variable {n : Node} {ns : List Node}

theorem items_eq_ok : items n = .ok ns ↔ n = .list ns := by
  cases n <;> simp [items]

theorem callee_eq_ok {p : String × List Node} : callee n = .ok p ↔ n = .call p.1 p.2 := by
  cases n <;> simp [callee, Prod.ext_iff]

theorem arrayParts_eq_ok {p : List Node × Node} :
    arrayParts n = .ok p ↔ n = .arrayType p.1 p.2 := by
  cases n <;> simp [arrayParts, Prod.ext_iff]

theorem assignment_eq_ok {l e : Node} {op : String} : assignment l e op = .ok n ↔
    op = ":=" ∧ n = .assign l e ∨
    op ≠ ":=" ∧ ∃ c cs, op.toList = c :: cs ∧ n = .assign l (.binary c.toString l e) := by
  by_cases h : op = ":="
  · simp [assignment, h, @eq_comm _ n]
  · cases hop : op.toList <;> simp [assignment, h, hop, @eq_comm _ n]

theorem params_eq_ok {x : String} {xs : List String} {t : Except Fault Node} :
    params (x :: xs) t = .ok ns ↔ ∃ type, t = .ok type ∧ ns = (x :: xs).map (.param · type) := by
  cases t with
  | error e => simp [params, bind, Except.bind]
  | ok type =>
    have h : ∀ xs, params xs (.ok type) = .ok (xs.map (.param · type)) := by
      intro xs
      induction xs with
      | nil => rfl
      | cons x xs ih => simp [params, ih, pure, Except.pure]
    simp [h, eq_comm]

theorem paramTypes_map (ps : List (String × Node)) :
    paramTypes (ps.map fun p => .param p.1 p.2) = .ok (ps.map Prod.snd) := by
  induction ps with
  | nil => rfl
  | cons p ps ih => simp [paramTypes, ih, pure, Except.pure]

theorem conditional_reverse (ps : List (Node × Node)) (no : Node) :
    conditional (ps.map fun p => .ifElse p.1 p.2 .none).reverse no =
      .ok (ps.foldr (fun p n => .ifElse p.1 p.2 n) no) := by
  suffices h : ∀ (ps : List (Node × Node)) no,
      conditional (ps.map fun p => .ifElse p.1 p.2 .none) no =
      .ok (ps.foldl (fun n p => .ifElse p.1 p.2 n) no) by
    rw [← List.map_reverse, h, List.foldl_reverse]
  intro ps
  induction ps with
  | nil => simp [conditional]
  | cons p ps ih => simp [conditional, ih]

theorem functionOf_eq_ok {x : String} {ps t : Option Forest} {bs : Forest} :
    functionOf x ps t bs = .ok n ↔ ∃ m, nodeOr .paramList ps (.list []) = .ok m ∧
      ∃ qs, items m = .ok qs ∧ ∃ r, nodeOr .typ t .voidType = .ok r ∧
      ∃ b, toNode (.node .block bs) = .ok b ∧ .func x qs r b = n := by
  simp only [functionOf, bind_eq_ok, pure_eq_ok]

/-- The node of a literal that is one token, in an operand or in an array. -/
inductive Reads (isOperand : Bool) (t : Token TokenKind) : Node → Prop where
  | int {i : Int} : t.kind = .intLit → isOperand = true → Numeral.readInt? t.text = some i →
      Reads isOperand t (.intLit (.int i))
  | intText : t.kind = .intLit → isOperand = false → Reads isOperand t (.intLit (.text t.text))
  | float {x : Binary64} : t.kind = .floatLit → isOperand = true →
      Numeral.readFloat? t.text = some x → Reads isOperand t (.floatLit (.float x))
  | floatText : t.kind = .floatLit → isOperand = false →
      Reads isOperand t (.floatLit (.text t.text))
  | string : t.kind = .stringLit → Reads isOperand t (.stringLit (.text t.text))
  | bool : t.kind = .boolLit → Reads isOperand t (.boolLit (.bool (t.text == "true")))
  | nil : t.kind = .nilLit → Reads isOperand t .nilLit

theorem reads_of_literal {isOperand : Bool} {t : Token TokenKind} (ht : t.kind ∈ literalKinds)
    (hn : literal isOperand t = .ok n) : Reads isOperand t n := by
  simp only [literalKinds, List.mem_cons, List.not_mem_nil, or_false] at ht
  obtain ht | ht | ht | ht | ht := ht <;> rw [literal, ht] at hn
  · cases isOperand with
    | false => exact Except.ok.inj hn ▸ .intText ht rfl
    | true =>
      obtain ⟨m, hm, hn⟩ := bind_eq_ok.1 hn
      cases hi : Numeral.readInt? t.text <;> simp [readInt, hi] at hm
      exact Except.ok.inj hn ▸ hm ▸ .int ht rfl hi
  · cases isOperand with
    | false => exact Except.ok.inj hn ▸ .floatText ht rfl
    | true =>
      obtain ⟨m, hm, hn⟩ := bind_eq_ok.1 hn
      cases hx : Numeral.readFloat? t.text <;> simp [readFloat, hx] at hm
      exact Except.ok.inj hn ▸ hm ▸ .float ht rfl hx
  · exact Except.ok.inj hn ▸ .string ht
  · exact Except.ok.inj hn ▸ .bool ht
  · exact Except.ok.inj hn ▸ .nil ht

variable {cs : Forest}

theorem exists_of_onlyIf (h : toNode (.node .onlyIf cs) = .ok n) :
    ∃ p : Node × Node, n = .ifElse p.1 p.2 .none := by
  simp only [toNode, node, bind_eq_ok, pure_eq_ok] at h
  obtain ⟨c, -, y, -, rfl⟩ := h
  exact ⟨(c, y), rfl⟩

theorem exists_of_onlyIfs (hu : Uniform .onlyIf cs) (h : cs.mapM toNode = .ok ns) :
    ∃ ps : List (Node × Node), ns = ps.map fun p => .ifElse p.1 p.2 .none := by
  induction cs generalizing ns with
  | nil => exact ⟨[], by simpa [pure, Except.pure, eq_comm] using h⟩
  | cons c cs ih =>
    simp only [List.mapM_cons, bind_eq_ok, pure_eq_ok] at h
    obtain ⟨m, hm, ms, hms, rfl⟩ := h
    obtain ⟨ds, rfl⟩ := exists_of_isRule (hu c (by simp))
    obtain ⟨p, rfl⟩ := exists_of_onlyIf hm
    obtain ⟨ps, rfl⟩ := ih (fun d hd => hu d (by simp [hd])) hms
    exact ⟨p :: ps, rfl⟩

theorem exists_of_elseIfList (h : toNode (.node .elseIfList cs) = .ok n) :
    ∃ ps : List (Node × Node), n = .list (ps.map fun p => .ifElse p.1 p.2 .none) := by
  have hall : getAll (parts cs) .onlyIf = (cs.filter (Tree.isRule .onlyIf)).mapM toNode := by
    rw [getAll, parts_eq, List.filter_map, List.mapM_map]
    rfl
  simp only [toNode, node, bind_eq_ok, pure_eq_ok, hall] at h
  obtain ⟨ns, hns, rfl⟩ := h
  obtain ⟨ps, rfl⟩ := exists_of_onlyIfs (fun c hc => (List.mem_filter.1 hc).2) hns
  exact ⟨ps, rfl⟩

/-- The node of a conditional is a chain of its conditions. -/
theorem exists_of_conditional {ds : Forest} {c m no : Node} {ms : List Node}
    (hc : toNode (.node .onlyIf cs) = .ok c) (hm : toNode (.node .elseIfList ds) = .ok m)
    (hms : items m = .ok ms) (hn : conditional (ms.reverse ++ [c]) no = .ok n) :
    ∃ (p : Node × Node) (ps : List (Node × Node)), c = .ifElse p.1 p.2 .none ∧
      m = .list (ps.map fun p => .ifElse p.1 p.2 .none) ∧
      n = (p :: ps).foldr (fun p n => .ifElse p.1 p.2 n) no := by
  obtain ⟨p, rfl⟩ := exists_of_onlyIf hc
  obtain ⟨ps, rfl⟩ := exists_of_elseIfList hm
  obtain rfl := Except.ok.inj hms
  have hall := conditional_reverse (p :: ps) no
  rw [List.map_cons, List.reverse_cons, hn] at hall
  exact ⟨p, ps, rfl, rfl, Except.ok.inj hall⟩

end Helpers

end Build

namespace SyntaxTree

/-- The tree of a source is a derivation from its tokens. -/
theorem derives_of_parse {source : String} {t : SyntaxTree} (h : parse source = .ok t) :
    t.leaves = (Tokens.ofSource source).tokens ∧
      ∃ cs, t = .node .program cs ∧ t.Derives miniGo := by
  obtain ⟨hleaves, hgrows⟩ := trees_of_parse h
  obtain ⟨cs, hcs, hd⟩ := Grammar.grows_rule.1 hgrows
  obtain rfl := List.singleton_inj.1 hcs
  exact ⟨by simpa using hleaves, cs, rfl, Grammar.derives_node.2 hd⟩

/-- Runs the parser and the builder on one source. -/
theorem exists_built {α : Type} {source : String} {f : SyntaxTree → Node → α} {a : α}
    (h : ((parse source).toOption.bind fun t => t.toNode.toOption.map (f t)) = some a) :
    ∃ t n, parse source = .ok t ∧ t.toNode = .ok n ∧ f t n = a := by
  cases ht : parse source with
  | error e => simp [ht, Except.toOption] at h
  | ok t =>
    cases hn : t.toNode with
    | error e => simp [ht, hn, Except.toOption] at h
    | ok n => exact ⟨t, n, rfl, hn, by simpa [ht, hn, Except.toOption] using h⟩

end SyntaxTree

end MiniGoc
