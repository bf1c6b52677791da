import MiniGoc.Node.OfTree
import MiniGoc.Proofs.Derivation

/-!
# What nodes are made of

The node of a syntax tree is built from its children, and most tokens among the children only
hold the others together.  Without this punctuation (`SyntaxTree.core`) a derivation has few
forms, and its node is built from what is left (`Build.node_core`).

`Build.Makes` lists the forms, one constructor for each way to build a node, with the node or the
fault that comes of it.  That there are no others is `makes_of_derives` in the next module.
Proofs about the nodes of derivations go by these cases and never look at the builder.
-/

namespace MiniGoc

open Grammar (miniGo RulePart)

/-! ## Punctuation -/

/-- The kinds of tokens that only hold a phrase together. -/
def TokenKind.punctuation : List TokenKind :=
  [.eof, .kwVar, .kwConst, .kwIf, .kwElse, .kwFor, .kwRange, .kwBreak, .kwContinue, .kwReturn,
   .kwFunc, .kwType, .kwStruct, .kwInterface, .equal, .dot, .comma, .semicolon, .colon,
   .openParen, .closeParen, .openBracket, .closeBracket, .openBrace, .closeBrace]

namespace SyntaxTree

variable (mute : List TokenKind)

/-- Whether a child counts, when the tokens of some kinds are passed over. -/
def counts : SyntaxTree → Bool
  | .leaf t => t.kind ∉ mute
  | .node _ _ => true

/-- The children that count. -/
def kept (cs : Forest) : Forest := cs.filter (counts mute)

/-- The children without punctuation. -/
abbrev core (cs : Forest) : Forest := kept TokenKind.punctuation cs

/-- A child that may be left out. -/
def maybe (r : Rule) (o : Option Forest) : Forest := (o.map (Tree.node r)).toList

/-- The rule of a sequence that is one phrase. -/
def oneRule? : List RulePart → Option Rule
  | [.rule r] => some r
  | _ => none

/-- A forest in which all trees are of the rule. -/
def Uniform (r : Rule) (cs : Forest) : Prop := ∀ c ∈ cs, c.isRule r = true

/-- What counts in a repeated sequence: phrases of a rule, or tokens of a kind, with or without a
token before each. -/
def Repeats : List RulePart → Forest → Prop
  | [.rule r], cs => Uniform r cs
  | [.token j, .rule r], cs => if j ∈ mute then Uniform r cs else True
  | [.token j, .token k], cs =>
    if j ∈ mute then ∃ xs : TokenList, (∀ x ∈ xs, x.kind = k) ∧ cs = xs.map Tree.leaf
    else True
  | _, _ => True

mutual

/-- A forest starts with what counts in a phrase of the part, and `rest` holds of what follows. -/
def Shape : RulePart → (Forest → Prop) → Forest → Prop
  | .token k, rest, cs =>
    if k ∈ mute then rest cs
    else ∃ (t : Token TokenKind) (ds : Forest), t.kind = k ∧ cs = .leaf t :: ds ∧ rest ds
  | .anyOf ks, rest, cs =>
    if ∀ k ∈ ks, k ∉ mute then
      ∃ (t : Token TokenKind) (ds : Forest), t.kind ∈ ks ∧ cs = .leaf t :: ds ∧ rest ds
    else True
  | .rule r, rest, cs =>
    ∃ ds es : Forest, Tree.Derives miniGo (.node r ds) ∧ cs = .node r ds :: es ∧ rest es
  | .choice _ alts, rest, cs => ShapeAny alts rest cs
  | .option body, rest, cs =>
    match oneRule? body with
    | some r => ∃ (o : Option Forest) (es : Forest), cs = maybe r o ++ es ∧ rest es
    | none => rest cs ∨ ShapeAll body rest cs
  | .many _ body, rest, cs => ∃ as bs : Forest, Repeats mute body as ∧ cs = as ++ bs ∧ rest bs
  | .many1 _ body, rest, cs => ShapeAll body
      (fun cs => ∃ as bs : Forest, Repeats mute body as ∧ cs = as ++ bs ∧ rest bs) cs

/-- The same for a sequence of parts. -/
def ShapeAll : List RulePart → (Forest → Prop) → Forest → Prop
  | [], rest, cs => rest cs
  | p :: ps, rest, cs => Shape p (ShapeAll ps rest) cs

/-- The same for one of several sequences. -/
def ShapeAny : List (List RulePart) → (Forest → Prop) → Forest → Prop
  | [], _, _ => False
  | a :: as, rest, cs =>
    if as.isEmpty then ShapeAll a rest cs else ShapeAll a rest cs ∨ ShapeAny as rest cs

end

variable {mute} {ps body : List RulePart} {cs : Forest} {k : TokenKind} {r : Rule}
  {how : Lookahead}

@[simp] theorem kept_nil : kept mute [] = [] := rfl

@[simp] theorem kept_append (as bs : Forest) :
    kept mute (as ++ bs) = kept mute as ++ kept mute bs :=
  List.filter_append ..

@[simp] theorem kept_node (ds : Forest) :
    kept mute (.node r ds :: cs) = .node r ds :: kept mute cs := rfl

theorem kept_leaf {t : Token TokenKind} (ht : t.kind ∉ mute) :
    kept mute (.leaf t :: cs) = .leaf t :: kept mute cs := by
  simp [kept, counts, ht]

theorem kept_mute {t : Token TokenKind} (ht : t.kind ∈ mute) :
    kept mute (.leaf t :: cs) = kept mute cs := by
  simp [kept, counts, ht]

@[simp] theorem kept_all (cs : Forest) : kept [] cs = cs :=
  List.filter_eq_self.2 fun c _ => by cases c <;> simp [counts]

theorem counts_of_isRule {c : SyntaxTree} (h : c.isRule r = true) : counts mute c = true := by
  cases c <;> simp_all [Tree.isRule, counts]

theorem counts_of_isToken (hk : k ∉ mute) {c : SyntaxTree} (h : c.isToken k = true) :
    counts mute c = true := by
  cases c <;> simp_all [Tree.isToken, counts]

theorem Uniform.cons (h : Uniform r cs) (ds : Forest) : Uniform r (.node r ds :: cs) := by
  simpa [Uniform, Tree.isRule] using h

theorem eq_of_oneRule? (h : oneRule? body = some r) : body = [.rule r] := by
  unfold oneRule? at h
  split at h <;> simp_all

theorem exists_tokens (h : ∀ c ∈ cs, ∃ x : Token TokenKind, x.kind = k ∧ c = Tree.leaf x) :
    ∃ xs : TokenList, (∀ x ∈ xs, x.kind = k) ∧ cs = xs.map Tree.leaf := by
  induction cs with
  | nil => exact ⟨[], by simp, rfl⟩
  | cons c cs ih =>
    obtain ⟨⟨x, hx, rfl⟩, hcs⟩ := List.forall_mem_cons.1 h
    obtain ⟨xs, hxs, rfl⟩ := ih hcs
    exact ⟨x :: xs, List.forall_mem_cons.2 ⟨hx, hxs⟩, rfl⟩

theorem repeats_of_grows (h : miniGo.Grows [.many how body] cs) :
    Repeats mute body (kept mute cs) := by
  obtain ⟨css, rfl, hcss⟩ := Grammar.grows_many.1 h
  have hmem {c : SyntaxTree} (hc : c ∈ kept mute css.flatten) :
      ∃ ds, miniGo.Grows body ds ∧ c ∈ kept mute ds := by
    obtain ⟨hc, hcounts⟩ := List.mem_filter.1 hc
    obtain ⟨ds, hds, hc⟩ := List.mem_flatten.1 hc
    exact ⟨ds, hcss ds hds, List.mem_filter.2 ⟨hc, hcounts⟩⟩
  unfold Repeats
  split
  · intro c hc
    obtain ⟨ds, hds, hc⟩ := hmem hc
    obtain ⟨es, rfl, -⟩ := Grammar.grows_rule.1 hds
    simp_all [Tree.isRule]
  · split
    next j r hj =>
      intro c hc
      obtain ⟨ds, hds, hc⟩ := hmem hc
      obtain ⟨as, bs, rfl, ha, hb⟩ := Grammar.grows_cons.1 hds
      obtain ⟨t, rfl, rfl⟩ := Grammar.grows_token.1 ha
      obtain ⟨es, rfl, -⟩ := Grammar.grows_rule.1 hb
      simp_all [kept_mute, Tree.isRule]
    next => trivial
  · split
    next j k hj =>
      refine exists_tokens fun c hc => ?_
      obtain ⟨ds, hds, hc⟩ := hmem hc
      obtain ⟨as, bs, rfl, ha, hb⟩ := Grammar.grows_cons.1 hds
      obtain ⟨t, rfl, rfl⟩ := Grammar.grows_token.1 ha
      obtain ⟨u, rfl, rfl⟩ := Grammar.grows_token.1 hb
      rw [kept_append, kept_mute hj, kept_nil, List.nil_append] at hc
      exact ⟨u, rfl, List.mem_singleton.1 (List.mem_filter.1 hc).1⟩
    next => trivial
  · trivial

mutual

/-- What counts in a phrase of a part has the shape of the part. -/
theorem shape_of_grows {rest : Forest → Prop} {bs : Forest} (hrest : rest bs) :
    (p : RulePart) → {as : Forest} → miniGo.Grows [p] as → Shape mute p rest (kept mute as ++ bs)
  | .token k, as, h => by
    obtain ⟨t, rfl, rfl⟩ := Grammar.grows_token.1 h
    rw [Shape]
    split
    next hk => simpa [kept_mute hk] using hrest
    next hk => exact ⟨t, bs, rfl, by simp [kept_leaf hk], hrest⟩
  | .anyOf ks, as, h => by
    obtain ⟨t, ht, rfl⟩ := Grammar.grows_anyOf.1 h
    rw [Shape]
    split
    next hks => exact ⟨t, bs, ht, by simp [kept_leaf (hks _ ht)], hrest⟩
    next => trivial
  | .rule r, as, h => by
    obtain ⟨ds, rfl, hd⟩ := Grammar.grows_rule.1 h
    rw [Shape]
    exact ⟨ds, bs, Grammar.derives_node.2 hd, by simp, hrest⟩
  | .choice how alts, as, h => by
    rw [Shape]
    exact shapeAny_of_grows hrest alts (Grammar.grows_choice.1 h)
  | .option body, as, h => by
    have present (h : miniGo.Grows body as) : ShapeAll mute body rest (kept mute as ++ bs) :=
      shapeAll_of_grows hrest body h
    rw [Shape]
    split
    next r hr =>
      obtain rfl | h := Grammar.grows_option.1 h
      · exact ⟨none, bs, rfl, hrest⟩
      · obtain rfl := eq_of_oneRule? hr
        obtain ⟨ds, rfl, -⟩ := Grammar.grows_rule.1 h
        exact ⟨some ds, bs, rfl, hrest⟩
    next =>
      obtain rfl | h := Grammar.grows_option.1 h
      · exact .inl hrest
      · exact .inr (present h)
  | .many how body, as, h => by
    rw [Shape]
    exact ⟨_, bs, repeats_of_grows h, rfl, hrest⟩
  | .many1 how body, as, h => by
    obtain ⟨as, cs, rfl, ha, hc⟩ := Grammar.grows_append.1 (Grammar.grows_many1.1 h)
    rw [Shape, kept_append, List.append_assoc]
    exact shapeAll_of_grows ⟨_, bs, repeats_of_grows hc, rfl, hrest⟩ body ha

theorem shapeAll_of_grows {rest : Forest → Prop} {bs : Forest} (hrest : rest bs) :
    (ps : List RulePart) → {as : Forest} → miniGo.Grows ps as →
      ShapeAll mute ps rest (kept mute as ++ bs)
  | [], as, h => by
    obtain rfl := Grammar.grows_nil.1 h
    rw [ShapeAll]
    exact hrest
  | p :: ps, as, h => by
    obtain ⟨as, cs, rfl, ha, hc⟩ := Grammar.grows_cons.1 h
    rw [ShapeAll, kept_append, List.append_assoc]
    exact shape_of_grows (shapeAll_of_grows hrest ps hc) p ha

theorem shapeAny_of_grows {rest : Forest → Prop} {bs : Forest} (hrest : rest bs) :
    (alts : List (List RulePart)) → {as : Forest} → (∃ a ∈ alts, miniGo.Grows a as) →
      ShapeAny mute alts rest (kept mute as ++ bs)
  | [], as, h => by simp at h
  | a :: alts, as, h => by
    have first (h : miniGo.Grows a as) : ShapeAll mute a rest (kept mute as ++ bs) :=
      shapeAll_of_grows hrest a h
    have others (h : ∃ a ∈ alts, miniGo.Grows a as) :
        ShapeAny mute alts rest (kept mute as ++ bs) := shapeAny_of_grows hrest alts h
    rw [ShapeAny]
    obtain ⟨c, hc, h⟩ := h
    obtain rfl | hc := List.mem_cons.1 hc
    · split
      · exact first h
      · exact .inl (first h)
    · rw [if_neg (by simpa using List.ne_nil_of_mem hc)]
      exact .inr (others ⟨c, hc, h⟩)

end

theorem ShapeAny.exists_mem {alts : List (List RulePart)} {rest : Forest → Prop}
    (h : ShapeAny mute alts rest cs) : ∃ a ∈ alts, ShapeAll mute a rest cs := by
  induction alts with
  | nil => rw [ShapeAny] at h; exact h.elim
  | cons a alts ih =>
    rw [ShapeAny] at h
    split at h
    · exact ⟨a, by simp, h⟩
    · obtain h | h := h
      · exact ⟨a, by simp, h⟩
      · obtain ⟨c, hc, h⟩ := ih h
        exact ⟨c, by simp [hc], h⟩

theorem shape_of_derives (mute : List TokenKind) (h : Tree.Derives miniGo (.node r cs)) :
    ShapeAny mute (miniGo.alternatives r).alts (· = []) (kept mute cs) := by
  simpa using @shapeAny_of_grows mute (· = []) [] rfl _ _ (Grammar.derives_node.1 h)

end SyntaxTree

/-! ## Building without punctuation -/

namespace Build

open SyntaxTree

namespace Parts

variable (ps : Parts)

/-- The children without punctuation. -/
def core (ps : Parts) : Parts := ps.filter fun b => counts TokenKind.punctuation b.tree

theorem find?_core {p : Built → Bool}
    (hp : ∀ b, p b = true → counts TokenKind.punctuation b.tree = true) :
    ps.core.find? p = ps.find? p := by
  rw [core, List.find?_filter]
  congr 1
  funext b
  cases h : p b with
  | true => simp [hp b h]
  | false => simp

theorem filter_core {p : Built → Bool}
    (hp : ∀ b, p b = true → counts TokenKind.punctuation b.tree = true) :
    ps.core.filter p = ps.filter p := by
  rw [core, List.filter_filter]
  congr 1
  funext b
  cases h : p b with
  | true => simp [hp b h]
  | false => simp

variable (r : Rule) {k : TokenKind}

@[simp] theorem child?_core : ps.core.child? r = ps.child? r :=
  ps.find?_core fun _ => counts_of_isRule

@[simp] theorem has_core : ps.core.has r = ps.has r := by simp [has]

@[simp] theorem get_core : ps.core.get r = ps.get r := by simp [get]

@[simp] theorem getOr_core (n : Node) : ps.core.getOr r n = ps.getOr r n := by simp [getOr]

@[simp] theorem ruleText_core : ps.core.ruleText r = ps.ruleText r := by simp [ruleText]

@[simp] theorem getAll_core : ps.core.getAll r = ps.getAll r := by
  simp [getAll, ps.filter_core fun _ => counts_of_isRule]

theorem token?_core (hk : k ∉ TokenKind.punctuation) : ps.core.token? k = ps.token? k := by
  simp [token?, ps.find?_core fun _ => counts_of_isToken hk]

theorem texts_core (hk : k ∉ TokenKind.punctuation) : ps.core.texts k = ps.texts k := by
  simp [texts, ps.filter_core fun _ => counts_of_isToken hk]

@[simp] theorem token?_ident_core : ps.core.token? .ident = ps.token? .ident :=
  ps.token?_core (by decide)

@[simp] theorem token?_intLit_core : ps.core.token? .intLit = ps.token? .intLit :=
  ps.token?_core (by decide)

@[simp] theorem texts_ident_core : ps.core.texts .ident = ps.texts .ident :=
  ps.texts_core (by decide)

@[simp] theorem text_ident_core : ps.core.text .ident = ps.text .ident := by simp [text]

@[simp] theorem textAt_ident_core (i : Nat) : ps.core.textAt .ident i = ps.textAt .ident i := by
  simp [textAt]

@[simp] theorem heading_core : heading ps.core = heading ps := by simp [heading]

@[simp] theorem function_core (n : String) : function ps.core n = function ps n := by
  simp [function]

end Parts

/-- The rules whose node is built from the first child, whatever it is. -/
def leading : List Rule :=
  [.decl, .stmt, .lhs, .forStmt, .callStmt, .primitiveType, .typ,
   .expr, .expr1, .expr2, .expr3, .expr4, .expr5, .expr6, .operand, .arrayEle,
   .highOperator, .lowOperator, .relationalOperator, .assignOperator]

theorem node_core {r : Rule} (hr : r ∉ leading) (ps : Parts) : node r ps.core = node r ps := by
  cases r <;> simp_all [leading, node]

/-! ## The forms -/

/-- The rules of which a phrase can be all that counts in a phrase of the rule. -/
def inner : Rule → List Rule
  | .decl => [.varDecl, .constDecl, .structDecl, .interfaceDecl, .funcDecl, .methodDecl]
  | .stmt => [.varDecl, .constDecl, .assignStmt, .ifStmt, .forStmt, .breakStmt, .continueStmt,
      .callStmt, .returnStmt]
  | .lhs => [.structAccess, .arrayAccess]
  | .elseStmt => [.block]
  | .forStmt => [.basicFor, .forInitial, .forRange]
  | .initialization => [.update]
  | .callStmt => [.funcCall, .methodCall]
  | .typ => [.primitiveType, .arrayType]
  | .expr => [.expr1]
  | .expr1 => [.expr2]
  | .expr2 => [.expr3]
  | .expr3 => [.expr4]
  | .expr4 => [.expr5]
  | .expr5 => [.expr6]
  | .expr6 => [.structAccess, .arrayAccess, .methodCall, .operand]
  | .subExpr | .arrayAccessBox => [.expr]
  | .operand => [.arrayLiteral, .structLiteral, .funcCall, .subExpr]
  | .arrayEle => [.structLiteral, .shortArrayLiteral]
  | .chain => [.operand]
  | _ => []

/-- The rules whose node is a list of the nodes of another rule. -/
def listed : Rule → Option (Rule × (List Node → Node))
  | .program => some (.decl, .program)
  | .block => some (.stmt, .block)
  | .elseIfList => some (.onlyIf, .list)
  | .argumentList => some (.expr, .list)
  | .arrayEleList => some (.arrayEle, .list)
  | .structEleList => some (.structEle, .list)
  | _ => none

/-- The rules of binary operators: the rule of the right operand, and the rule of the operator if
it has one. -/
def levels : Rule → Option (Rule × Option Rule)
  | .expr => some (.expr1, none)
  | .expr1 => some (.expr2, none)
  | .expr2 => some (.expr3, some .relationalOperator)
  | .expr3 => some (.expr4, some .lowOperator)
  | .expr4 => some (.expr5, some .highOperator)
  | _ => none

def binaryKinds : List TokenKind :=
  ([.or, .and, .add, .sub, .multiply, .divide, .remain] : List TokenKind) ++
    Grammar.relationKinds

/-- A binary operator in a tree: a token, or a rule with this token. -/
def operatorTree (o : Token TokenKind) : Option Rule → SyntaxTree
  | none => .leaf o
  | some r => .node r [.leaf o]

/-- The type of a keyword. -/
def primitive : TokenKind → Node
  | .kwInt => .intType
  | .kwFloat => .floatType
  | .kwString => .stringType
  | _ => .boolType

def literalKinds : List TokenKind := [.intLit, .floatLit, .stringLit, .boolLit, .nilLit]

/-- The node of a literal that is one token.  The numbers of an operand are read, and those of an
array keep their spelling. -/
def literal (isOperand : Bool) (t : Token TokenKind) : Except Fault Node :=
  match t.kind with
  | .intLit => do return .intLit (← if isOperand then readInt t.text else spelling t.text)
  | .floatLit => do return .floatLit (← if isOperand then readFloat t.text else spelling t.text)
  | .stringLit => .ok (.stringLit (.text t.text))
  | .boolLit => .ok (.boolLit (.bool (t.text == "true")))
  | _ => .ok .nilLit

/-- The node of a child that may be left out. -/
def nodeOr (r : Rule) (o : Option Forest) (other : Node) : Except Fault Node :=
  match o with
  | some ds => toNode (.node r ds)
  | none => .ok other

/-- A function from the parts of its heading and its body. -/
def functionOf (name : String) (ps t : Option Forest) (bs : Forest) : Except Fault Node := do
  let params ← items (← nodeOr .paramList ps (.list []))
  let result ← nodeOr .typ t .voidType
  let body ← toNode (.node .block bs)
  return .func name params result body

/-- The children of a phrase, without punctuation, and what is built from them. -/
inductive Makes : Rule → Forest → Except Fault Node → Prop where
  -- Phrases that are another phrase, a name or a list.
  | inner {r s ds} : s ∈ inner r → Makes r [.node s ds] (toNode (.node s ds))
  | name {r x} : r ∈ [.lhs, .typ, .operand, .arrayEle] →
      x.kind = .ident → Makes r [.leaf x] (.ok (.id x.text))
  | list {r s f cs} : listed r = some (s, f) →
      Uniform s cs → Makes r cs do return f (← cs.mapM toNode)
  | operator {r o} :
      r ∈ [.highOperator, .lowOperator, .relationalOperator, .assignOperator] →
      o.kind ∈ binaryKinds ++ Grammar.assignKinds → Makes r [.leaf o] (.ok (.text o.text))
  -- Variables and constants.
  | varType {x ts} : x.kind = .ident →
      Makes .varDecl [.leaf x, .node .typ ts] do
        return .var x.text (← toNode (.node .typ ts)) .none
  | varInit {r x es} : r ∈ [.varDecl, .initialization] →
      x.kind = .ident → Makes r [.leaf x, .node .expr es] do
        return .var x.text .none (← toNode (.node .expr es))
  | varBoth {r x ts es} : r ∈ [.varDecl, .initialization] →
      x.kind = .ident → Makes r [.leaf x, .node .typ ts, .node .expr es] do
        return .var x.text (← toNode (.node .typ ts)) (← toNode (.node .expr es))
  | const {x es} : x.kind = .ident →
      Makes .constDecl [.leaf x, .node .expr es] do
        return .const x.text .none (← toNode (.node .expr es))
  -- Statements.
  | assign {o ls es} : o.kind ∈ Grammar.assignKinds →
      Makes .assignStmt [.node .lhs ls, .node .assignOperator [.leaf o], .node .expr es] do
        let l ← toNode (.node .lhs ls)
        let e ← toNode (.node .expr es)
        assignment l e o.text
  | update {x o es} : x.kind = .ident →
      o.kind ∈ Grammar.assignKinds →
      Makes .update [.leaf x, .node .assignOperator [.leaf o], .node .expr es] do
        let e ← toNode (.node .expr es)
        assignment (.id x.text) e o.text
  | branch {cs ds o} :
      Makes .ifStmt (.node .onlyIf cs :: .node .elseIfList ds :: maybe .elseStmt o) do
        let c ← toNode (.node .onlyIf cs)
        let cs ← items (← toNode (.node .elseIfList ds))
        let no ← nodeOr .elseStmt o .none
        conditional (cs.reverse ++ [c]) no
  | onlyIf {es bs} : Makes .onlyIf [.node .expr es, .node .block bs] do
      return .ifElse (← toNode (.node .expr es)) (← toNode (.node .block bs)) .none
  | forBasic {es bs} : Makes .basicFor [.node .expr es, .node .block bs] do
      return .forBasic (← toNode (.node .expr es)) (← toNode (.node .block bs))
  | forStep {is es us bs} : Makes .forInitial
      [.node .initialization is, .node .expr es, .node .update us, .node .block bs] do
        return .forStep (← toNode (.node .initialization is)) (← toNode (.node .expr es))
          (← toNode (.node .update us)) (← toNode (.node .block bs))
  | forEach {x y d es bs} : x.kind = .ident → y.kind = .ident →
      d.kind = .define →
      Makes .forRange [.leaf x, .leaf y, .leaf d, .node .expr es, .node .block bs] do
        return .forEach (.id x.text) (.id y.text) (← toNode (.node .expr es))
          (← toNode (.node .block bs))
  | breakLoop : Makes .breakStmt [] (.ok .breakLoop)
  | continueLoop : Makes .continueStmt [] (.ok .continueLoop)
  | ret {o} : Makes .returnStmt (maybe .expr o) do
      return .ret (← nodeOr .expr o .none)
  -- Functions, methods and their calls.
  | func {x ps t bs} : x.kind = .ident →
      Makes .funcDecl (.leaf x :: (maybe .paramList ps ++ (maybe .typ t ++ [Tree.node .block bs])))
        (functionOf x.text ps t bs)
  | method {x y z ps t bs} : x.kind = .ident →
      y.kind = .ident → z.kind = .ident →
      Makes .methodDecl (.leaf x :: .leaf y :: .leaf z ::
        (maybe .paramList ps ++ (maybe .typ t ++ [Tree.node .block bs]))) do
        return .method x.text (.id y.text) (← functionOf z.text ps t bs)
  | call {x o} : x.kind = .ident →
      Makes .funcCall (.leaf x :: maybe .argumentList o) do
        return .call x.text (← items (← nodeOr .argumentList o (.list [])))
  | methodCall {cs fs} : Makes .methodCall [.node .chain cs, .node .funcCall fs] do
      let (n, args) ← callee (← toNode (.node .funcCall fs))
      return .methodCall (← toNode (.node .chain cs)) n args
  -- Types.
  | primitive {t} : t.kind ∈ Grammar.primitiveKinds →
      Makes .primitiveType [.leaf t] (.ok (primitive t.kind))
  | arrayMore {ds ts} :
      Makes .arrayType [.node .arrayLiteralBox ds, .node .arrayType ts] do
        let d ← toNode (.node .arrayLiteralBox ds)
        let (ds, e) ← arrayParts (← toNode (.node .arrayType ts))
        return .arrayType (d :: ds) e
  | arrayPrimitive {ds ts} :
      Makes .arrayType [.node .arrayLiteralBox ds, .node .primitiveType ts] do
        return .arrayType [← toNode (.node .arrayLiteralBox ds)]
          (← toNode (.node .primitiveType ts))
  | arrayNamed {ds x} : x.kind = .ident →
      Makes .arrayType [.node .arrayLiteralBox ds, .leaf x] do
        return .arrayType [← toNode (.node .arrayLiteralBox ds)] (.id x.text)
  | sizeLit {t} : t.kind = .intLit →
      Makes .arrayLiteralBox [.leaf t] (.ok (.intLit (.text t.text)))
  | sizeName {x} : x.kind = .ident →
      Makes .arrayLiteralBox [.leaf x] (.ok (.id x.text))
  -- Expressions.
  | binary {r s op o ls rs} :
      levels r = some (s, op) → o.kind ∈ binaryKinds →
      Makes r [.node r ls, operatorTree o op, .node s rs] do
        return .binary o.text (← toNode (.node r ls)) (← toNode (.node s rs))
  | unary {o es} : o.kind ∈ [.not, .sub] →
      Makes .expr5 [.leaf o, .node .expr5 es] do
        return .unary o.text (← toNode (.node .expr5 es))
  | literal {r t} : r ∈ [.operand, .arrayEle] →
      t.kind ∈ literalKinds → Makes r [.leaf t] (literal (r == .operand) t)
  | arrayLit {ts es} : Makes .arrayLiteral [.node .arrayType ts, .node .arrayEleList es] do
      let (ds, e) ← arrayParts (← toNode (.node .arrayType ts))
      return .arrayLit ds e (← toNode (.node .arrayEleList es))
  | shortArray {es} : Makes .shortArrayLiteral [.node .arrayEleList es] do
      return .arrayLit [] .voidType (← toNode (.node .arrayEleList es))
  | structLit {x o} : x.kind = .ident →
      Makes .structLiteral (.leaf x :: maybe .structEleList o) do
        return .structLit x.text (← items (← nodeOr .structEleList o (.list [])))
  | field {r cs x} : r ∈ [.structAccess, .chain] →
      x.kind = .ident → Makes r [.node .chain cs, .leaf x] do
        return .field (← toNode (.node .chain cs)) x.text
  | chainCall {cs fs} : Makes .chain [.node .chain cs, .node .funcCall fs] do
      let c ← toNode (.node .chain cs)
      let (n, args) ← callee (← toNode (.node .funcCall fs))
      return .methodCall c n args
  | cell {r s cs bs} : (r, s) ∈ [(.arrayAccess, .operand), (.chain, .chain)] →
      bs ≠ [] → Uniform .arrayAccessBox bs → Makes r (.node s cs :: bs) do
        return .cell (← toNode (.node s cs)) (← bs.mapM toNode)
  | cellField {cs bs x} : x.kind = .ident →
      Uniform .arrayAccessBox bs → Makes .arrayAccess (.node .chain cs :: .leaf x :: bs) do
        return .cell (.field (← toNode (.node .chain cs)) x.text) (← bs.mapM toNode)
  | cellCall {cs fs bs} : Uniform .arrayAccessBox bs →
      Makes .arrayAccess (.node .chain cs :: .node .funcCall fs :: bs) do
        let (n, args) ← callee (← toNode (.node .funcCall fs))
        let c ← toNode (.node .chain cs)
        return .cell (.methodCall c n args) (← bs.mapM toNode)
  -- Structs, interfaces and parameters.
  | structDecl {x fs} : x.kind = .ident → Uniform .structField fs →
      Makes .structDecl (.leaf x :: fs) do return .structType x.text (← fs.mapM toNode) [] []
  | interfaceDecl {x ms} : x.kind = .ident →
      Uniform .interfaceMethod ms →
      Makes .interfaceDecl (.leaf x :: ms) do return .interfaceType x.text (← ms.mapM toNode)
  | pair {r s x ds} :
      (r, s) ∈ [(.structField, .typ), (.structEle, .expr)] → x.kind = .ident →
      Makes r [.leaf x, .node s ds] do return .pair x.text (← toNode (.node s ds))
  | prototype {x ps t} : x.kind = .ident →
      Makes .interfaceMethod (.leaf x :: (maybe .paramList ps ++ maybe .typ t)) do
        let types ← paramTypes (← items (← nodeOr .paramList ps (.list [])))
        return .prototype x.text types (← nodeOr .typ t .voidType)
  | paramList {cs} : Uniform .paramDecl cs → Makes .paramList cs do
      return .list (← (← cs.mapM toNode).mapM items).flatten
  | paramDecl {xs : TokenList} {ts} : (∀ x ∈ xs, x.kind = .ident) →
      Makes .paramDecl (xs.map Tree.leaf ++ [Tree.node .typ ts]) do
        return .list (← params (xs.map Token.text) (toNode (.node .typ ts)))

end Build

end MiniGoc
