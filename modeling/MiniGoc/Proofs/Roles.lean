import MiniGoc.Proofs.Forms
import MiniGoc.Proofs.Relexing
import MiniGoc.Proofs.Source

/-!
# The roles of nodes

The nodes that are built from a source have an abstract grammar of their own: each stands in a
role, and the role says which nodes can stand there and in which roles their parts do.
`Node.Fits` is this grammar, with one constructor for each way to fill a role.  The names in it
are spelled like identifiers, and the values of literals are those that their role asks for: the
numbers of an operand are numbers, those of an array are texts.

`SyntaxTree.fits_of_makes` is the step, a node made of parts that fit, with one case for each
form, and `SyntaxTree.fits_of_derives` the run over a tree.
-/

namespace MiniGoc

open Grammar (miniGo)

/-! ## The roles -/

/-- Where a node can stand in a program. -/
inductive Role where
  | program
  | decl
  | func
  | stmt
  | block
  /-- What is done when a condition fails. -/
  | branch
  /-- The start of a loop. -/
  | init
  /-- What a loop does after its body. -/
  | update
  | expr
  | target
  | element
  /-- A size in an array type. -/
  | size
  | type
  /-- The type of the elements of an array. -/
  | base
  /-- The type of the result of a function. -/
  | result
  | param
  /-- A field of a struct type. -/
  | field
  /-- A field of a struct with its value. -/
  | item
  /-- A method of an interface. -/
  | prototype
  | list (r : Role)
deriving DecidableEq

/-- The roles of the node of a phrase.  Operators have none. -/
def Rule.roles : Rule → List Role
  | .program => [.program]
  | .decl | .structDecl | .interfaceDecl | .funcDecl | .methodDecl => [.decl]
  | .varDecl | .constDecl => [.decl, .stmt]
  | .stmt | .assignStmt | .onlyIf | .forStmt | .basicFor | .forInitial | .forRange | .breakStmt
  | .continueStmt | .callStmt | .returnStmt => [.stmt]
  | .ifStmt => [.stmt, .branch]
  | .elseIfList => [.list .stmt]
  | .block | .elseStmt => [.block, .branch]
  | .initialization => [.init]
  | .update => [.init, .update]
  | .expr | .expr1 | .expr2 | .expr3 | .expr4 | .expr5 | .expr6 | .subExpr | .operand
  | .arrayAccessBox | .arrayLiteral | .chain => [.expr]
  | .lhs => [.target]
  | .structAccess | .arrayAccess => [.expr, .target]
  | .funcCall | .methodCall => [.expr, .stmt]
  | .structLiteral => [.expr, .element]
  | .arrayEle | .shortArrayLiteral => [.element]
  | .argumentList => [.list .expr]
  | .arrayEleList => [.list .element]
  | .structEleList => [.list .item]
  | .structEle => [.item]
  | .structField => [.field]
  | .typ | .arrayType => [.type, .result]
  | .primitiveType => [.type, .result, .base]
  | .arrayLiteralBox => [.size]
  | .interfaceMethod => [.prototype]
  | .paramList | .paramDecl => [.list .param]
  | .highOperator | .lowOperator | .relationalOperator | .assignOperator => []

namespace Node

section Fits

variable (decimals : Bool)

/-- The nodes that can stand in a role.  `decimals` says whether operands may be floating point
numbers. -/
inductive Fits : Role → Node → Prop where
  | list {r ns} : (∀ n ∈ ns, Fits r n) → Fits (.list r) (.list ns)
  | id {r x} : r ∈ [.expr, .target, .element, .size, .type, .base, .result] →
      TokenKind.ident.Spells x.toList → Fits r (.id x)
  -- Declarations.
  | program {ds} : (∀ d ∈ ds, Fits .decl d) → Fits .program (.program ds)
  | varType {r x t} : r ∈ [.decl, .stmt] → TokenKind.ident.Spells x.toList → Fits .type t →
      Fits r (.var x t .none)
  | varInit {r x e} : r ∈ [.decl, .stmt, .init] → TokenKind.ident.Spells x.toList → Fits .expr e →
      Fits r (.var x .none e)
  | varBoth {r x t e} : r ∈ [.decl, .stmt, .init] → TokenKind.ident.Spells x.toList → Fits .type t →
      Fits .expr e → Fits r (.var x t e)
  | const {r x e} : r ∈ [.decl, .stmt] → TokenKind.ident.Spells x.toList → Fits .expr e →
      Fits r (.const x .none e)
  | func {r x ps t b} : r ∈ [.decl, .func] → TokenKind.ident.Spells x.toList →
      (∀ p ∈ ps, Fits .param p) → Fits .result t → Fits .block b → Fits r (.func x ps t b)
  | method {x y f} : TokenKind.ident.Spells x.toList → TokenKind.ident.Spells y.toList →
      Fits .func f → Fits .decl (.method x (.id y) f)
  | structType {x fs} : TokenKind.ident.Spells x.toList → (∀ f ∈ fs, Fits .field f) →
      Fits .decl (.structType x fs [] [])
  | interfaceType {x ms} : TokenKind.ident.Spells x.toList → (∀ m ∈ ms, Fits .prototype m) →
      Fits .decl (.interfaceType x ms)
  | param {x t} : TokenKind.ident.Spells x.toList → Fits .type t → Fits .param (.param x t)
  | field {x t} : TokenKind.ident.Spells x.toList → Fits .type t → Fits .field (.pair x t)
  | prototype {x ts t} : TokenKind.ident.Spells x.toList → (∀ t ∈ ts, Fits .type t) →
      Fits .result t → Fits .prototype (.prototype x ts t)
  -- Types.
  | intType {r} : r ∈ [.type, .base, .result] → Fits r .intType
  | floatType {r} : r ∈ [.type, .base, .result] → Fits r .floatType
  | stringType {r} : r ∈ [.type, .base, .result] → Fits r .stringType
  | boolType {r} : r ∈ [.type, .base, .result] → Fits r .boolType
  | voidType : Fits .result .voidType
  | arrayType {r ds t} : r ∈ [.type, .result] → (∀ d ∈ ds, Fits .size d) → Fits .base t →
      Fits r (.arrayType ds t)
  -- Statements.
  | block {r ss} : r ∈ [.block, .branch] → (∀ s ∈ ss, Fits .stmt s) → Fits r (.block ss)
  | assign {r l e} : r ∈ [.stmt, .init, .update] → Fits .target l → Fits .expr e →
      Fits r (.assign l e)
  | noBranch : Fits .branch .none
  | ifElse {r c y n} : r ∈ [.stmt, .branch] → Fits .expr c → Fits .block y → Fits .branch n →
      Fits r (.ifElse c y n)
  | forBasic {c b} : Fits .expr c → Fits .block b → Fits .stmt (.forBasic c b)
  | forStep {i c u b} : Fits .init i → Fits .expr c → Fits .update u → Fits .block b →
      Fits .stmt (.forStep i c u b)
  | forEach {x y e b} : TokenKind.ident.Spells x.toList → TokenKind.ident.Spells y.toList →
      Fits .expr e → Fits .block b → Fits .stmt (.forEach (.id x) (.id y) e b)
  | breakLoop : Fits .stmt .breakLoop
  | continueLoop : Fits .stmt .continueLoop
  | retVoid : Fits .stmt (.ret .none)
  | ret {e} : Fits .expr e → Fits .stmt (.ret e)
  -- Expressions.
  | cell {r a is} : r ∈ [.expr, .target] → Fits .expr a → (∀ i ∈ is, Fits .expr i) →
      Fits r (.cell a is)
  | select {r e x} : r ∈ [.expr, .target] → Fits .expr e → TokenKind.ident.Spells x.toList →
      Fits r (.field e x)
  | binary {op l e} : op ∈ binaryOperators → Fits .expr l → Fits .expr e →
      Fits .expr (.binary op l e)
  | unary {op e} : op ∈ ["!", "-"] → Fits .expr e → Fits .expr (.unary op e)
  | call {r x as} : r ∈ [.expr, .stmt] → TokenKind.ident.Spells x.toList →
      (∀ a ∈ as, Fits .expr a) → Fits r (.call x as)
  | methodCall {r e x as} : r ∈ [.expr, .stmt] → Fits .expr e → TokenKind.ident.Spells x.toList →
      (∀ a ∈ as, Fits .expr a) → Fits r (.methodCall e x as)
  | arrayLit {ds t vs} : (∀ d ∈ ds, Fits .size d) → Fits .base t → (∀ v ∈ vs, Fits .element v) →
      Fits .expr (.arrayLit ds t (.list vs))
  | shortArray {vs} : (∀ v ∈ vs, Fits .element v) →
      Fits .element (.arrayLit [] .voidType (.list vs))
  | structLit {r x es} : r ∈ [.expr, .element] → TokenKind.ident.Spells x.toList →
      (∀ e ∈ es, Fits .item e) → Fits r (.structLit x es)
  | item {x e} : TokenKind.ident.Spells x.toList → Fits .expr e → Fits .item (.pair x e)
  -- Literals.
  | int {i} : Fits .expr (.intLit (.int i))
  | float {s x} : decimals = true → TokenKind.floatLit.Spells s.toList →
      Numeral.readFloat? s = some x → Fits .expr (.floatLit (.float x))
  | intText {r s} : r ∈ [.element, .size] → TokenKind.intLit.Spells s.toList →
      Fits r (.intLit (.text s))
  | floatText {s} : TokenKind.floatLit.Spells s.toList → Fits .element (.floatLit (.text s))
  | string {r s} : r ∈ [.expr, .element] → TokenKind.stringLit.Spells s.toList →
      Fits r (.stringLit (.text s))
  | bool {r b} : r ∈ [.expr, .element] → Fits r (.boolLit (.bool b))
  | nil {r} : r ∈ [.expr, .element] → Fits r .nilLit

end Fits

variable {decimals : Bool} {n : Node}

theorem Fits.expr_of_target (h : n.Fits decimals .target) : n.Fits decimals .expr := by
  cases h with
  | id _ hx => exact .id (by decide) hx
  | cell _ ha hi => exact .cell (by decide) ha hi
  | select _ he hx => exact .select (by decide) he hx
  | _ => simp_all

theorem Fits.exists_program (h : n.Fits decimals .program) :
    ∃ ds, n = .program ds ∧ ∀ d ∈ ds, d.Fits decimals .decl := by
  cases h with
  | program h => exact ⟨_, rfl, h⟩
  | _ => simp_all

theorem Fits.exists_list {decimals : Bool} {r : Role} {n : Node} (h : n.Fits decimals (.list r)) :
    ∃ ns, n = .list ns ∧ ∀ m ∈ ns, m.Fits decimals r := by
  cases h with
  | list h => exact ⟨_, rfl, h⟩
  | _ => simp_all

theorem Fits.withBranch {c y : Node} {r : Role} (h : (Node.ifElse c y .none).Fits decimals .stmt)
    (hr : r ∈ [.stmt, .branch]) (hn : n.Fits decimals .branch) :
    (Node.ifElse c y n).Fits decimals r := by
  cases h with
  | ifElse _ hc hy => exact .ifElse hr hc hy hn

end Node

/-! ## Operators -/

theorem TokenKind.Spells.eq_literal {k : TokenKind} {s : String} {w : List Char} (h : k.Spells w)
    (hk : k.literal? = some s) : w = s.toList := by
  simp only [Spells, matcher, hk, Pattern.lit, Pattern.matches_word] at h
  exact (List.map_inj_right fun _ _ => Option.some.inj).1 h

namespace SyntaxTree

open Build

/-! ## The nodes of trees -/

/-- All tokens in the trees are spelled as their kinds say. -/
def Spelled (cs : Forest) : Prop :=
  ∀ t ∈ Tree.leavesList cs, t.kind ≠ .eof → t.kind.Spells t.text.toList

/-- The nodes of all phrases among the trees fit the roles of their rules. -/
def Fitting (decimals : Bool) (cs : Forest) : Prop :=
  ∀ s ds n, .node s ds ∈ cs → toNode (.node s ds) = .ok n → ∀ r ∈ s.roles, n.Fits decimals r

variable {decimals : Bool} {cs ds : Forest} {n m : Node} {ns : List Node} {r s : Rule}

theorem Spelled.of_mem {t : Token TokenKind} {k : TokenKind} (h : Spelled cs) (hk : t.kind = k)
    (ht : t ∈ Tree.leavesList cs := by simp) (hne : k ≠ .eof := by decide) :
    k.Spells t.text.toList :=
  hk ▸ h t ht (hk ▸ hne)

theorem Spelled.mono (h : Spelled cs) (hsub : ∀ d ∈ ds, d ∈ cs) : Spelled ds := by
  intro t ht
  obtain ⟨d, hd, ht⟩ := Tree.mem_leavesList.1 ht
  exact h t (Tree.mem_leavesList.2 ⟨d, hsub d hd, ht⟩)

theorem Spelled.text_mem {o : Token TokenKind} {ks : List TokenKind} (h : Spelled cs)
    (ht : o ∈ Tree.leavesList cs) (ho : o.kind ∈ ks)
    (hks : ∀ k ∈ ks, k ≠ .eof ∧ k.literal?.isSome = true) :
    o.text ∈ ks.filterMap TokenKind.literal? := by
  obtain ⟨s, hs⟩ := Option.isSome_iff_exists.1 (hks _ ho).2
  obtain rfl : o.text = s := String.toList_inj.1 ((h o ht (hks _ ho).1).eq_literal hs)
  exact List.mem_filterMap.2 ⟨o.kind, ho, hs⟩

theorem Fitting.node (h : Fitting decimals cs) (hn : toNode (.node s ds) = .ok n)
    (hc : .node s ds ∈ cs := by simp) {q : Role} (hq : q ∈ s.roles := by decide) :
    n.Fits decimals q :=
  h s ds n hc hn q hq

theorem Fitting.mono (h : Fitting decimals cs) (hsub : ∀ d ∈ ds, d ∈ cs) : Fitting decimals ds :=
  fun s es n hc => h s es n (hsub _ hc)

variable {q : Role} {t : SyntaxTree}

theorem Fitting.mapM (h : Fitting decimals cs) (hu : Uniform s cs) (hq : q ∈ s.roles)
    (hns : cs.mapM toNode = .ok ns) : ∀ n ∈ ns, n.Fits decimals q := by
  induction cs generalizing ns with
  | nil =>
    obtain rfl : ns = [] := by simpa [pure, Except.pure, eq_comm] using hns
    simp
  | cons c cs ih =>
    simp only [List.mapM_cons, bind_eq_ok, pure_eq_ok] at hns
    obtain ⟨m, hm, ms, hms, rfl⟩ := hns
    obtain ⟨ds, rfl⟩ := exists_of_isRule (hu c (by simp))
    exact List.forall_mem_cons.2 ⟨h.node hm (by simp) hq,
      ih (h.mono (by simp +contextual)) (fun d hd => hu d (by simp [hd])) hms⟩

theorem Fitting.nodeOr {o : Option Forest} {other : Node} (h : Fitting decimals cs)
    (hn : Build.nodeOr s o other = .ok n) (ho : ∀ c ∈ maybe s o, c ∈ cs) (hq : q ∈ s.roles)
    (hother : other.Fits decimals q) : n.Fits decimals q := by
  cases o with
  | none =>
    obtain rfl : other = n := by simpa [Build.nodeOr] using hn
    exact hother
  | some ds => exact h.node hn (ho _ (by simp [maybe])) hq

theorem Fitting.items {o : Option Forest} (h : Fitting decimals cs)
    (hn : Build.nodeOr s o (.list []) = .ok n) (ho : ∀ c ∈ maybe s o, c ∈ cs)
    (hns : Build.items n = .ok ns) (hq : .list q ∈ s.roles) : ∀ n ∈ ns, n.Fits decimals q := by
  obtain rfl := items_eq_ok.1 hns
  obtain ⟨_, hlist, hfits⟩ := (h.nodeOr hn ho hq (.list (by simp))).exists_list
  exact Node.list.inj hlist ▸ hfits

theorem Fitting.functionOf {x : String} {ps t : Option Forest} {bs : Forest}
    (h : Fitting decimals cs) (hx : TokenKind.ident.Spells x.toList)
    (hn : Build.functionOf x ps t bs = .ok n)
    (hcs : ∀ c ∈ maybe .paramList ps ++ (maybe .typ t ++ [Tree.node .block bs]), c ∈ cs)
    (hq : q ∈ [.decl, .func]) : n.Fits decimals q := by
  obtain ⟨m, hm, qs, hqs, r, hr, b, hb, rfl⟩ := functionOf_eq_ok.1 hn
  refine .func hq hx ?_ ?_ ?_
  · exact h.items hm (fun c hc => hcs c (by simp [hc])) hqs (by decide)
  · exact h.nodeOr hr (fun c hc => hcs c (by simp [hc])) (by decide) .voidType
  · exact h.node hb (hcs _ (by simp)) (by decide)

theorem fits_of_assignment {l e : Node} (hq : q ∈ [.stmt, .init, .update])
    (hl : l.Fits decimals .target) (he : e.Fits decimals .expr) {op : String}
    (ho : op ∈ Grammar.assignKinds.filterMap TokenKind.literal?) (hn : assignment l e op = .ok n) :
    n.Fits decimals q := by
  obtain ⟨-, rfl⟩ | ⟨hop, c, w, hw, rfl⟩ := assignment_eq_ok.1 hn
  · exact .assign hq hl he
  · have hc : ∀ s ∈ Grammar.assignKinds.filterMap TokenKind.literal?, s ≠ ":=" →
        s.toList.head?.all (fun d => d.toString ∈ Node.binaryOperators) = true := by decide
    have hmem : c.toString ∈ Node.binaryOperators := by simpa [hw] using hc op ho hop
    exact .assign hq hl (.binary hmem hl.expr_of_target he)

theorem fits_of_reads {t : Token TokenKind} {isOperand : Bool}
    (hq : q = if isOperand then .expr else .element) (hs : t.kind.Spells t.text.toList)
    (hf : t.kind = .floatLit → isOperand = true → decimals = true) (h : Build.Reads isOperand t n) :
    n.Fits decimals q := by
  subst hq
  cases h with
  | int hk ho => simpa [ho] using .int
  | intText hk ho => simpa [ho] using .intText (by decide) (hk ▸ hs)
  | float hk ho hx => simpa [ho] using .float (hf hk ho) (hk ▸ hs) hx
  | floatText hk ho => simpa [ho] using .floatText (hk ▸ hs)
  | string hk => exact .string (by split <;> decide) (hk ▸ hs)
  | bool => exact .bool (by split <;> decide)
  | nil => exact .nil (by split <;> decide)

theorem fits_primitive {t : Token TokenKind} (hq : q ∈ [.type, .base, .result])
    (ht : t.kind ∈ Grammar.primitiveKinds) : (primitive t.kind).Fits decimals q := by
  simp only [Grammar.primitiveKinds, List.mem_cons, List.not_mem_nil, or_false] at ht
  obtain ht | ht | ht | ht := ht <;> rw [ht]
  · exact .intType hq
  · exact .floatType hq
  · exact .stringType hq
  · exact .boolType hq

theorem fits_of_paramTypes {ps ts : List Node} (hps : ∀ p ∈ ps, p.Fits decimals .param)
    (h : paramTypes ps = .ok ts) : ∀ t ∈ ts, t.Fits decimals .type := by
  induction ps generalizing ts with
  | nil =>
    obtain rfl := Except.ok.inj h
    simp
  | cons p ps ih =>
    obtain ⟨hp, hmore⟩ := List.forall_mem_cons.1 hps
    cases hp with
    | param _ ht =>
      simp only [paramTypes, bind_eq_ok, pure_eq_ok] at h
      obtain ⟨ts, hts, rfl⟩ := h
      exact List.forall_mem_cons.2 ⟨ht, ih hmore hts⟩
    | _ => simp_all

theorem fits_of_groups {ns : List Node} {gs : List (List Node)}
    (hns : ∀ n ∈ ns, n.Fits decimals (.list q)) (h : ns.mapM items = .ok gs) :
    ∀ n ∈ gs.flatten, n.Fits decimals q := by
  induction ns generalizing gs with
  | nil =>
    obtain rfl : gs = [] := by simpa [pure, Except.pure, eq_comm] using h
    simp
  | cons n ns ih =>
    obtain ⟨hn, hmore⟩ := List.forall_mem_cons.1 hns
    simp only [List.mapM_cons, bind_eq_ok, pure_eq_ok] at h
    obtain ⟨g, hg, gs, hgs, rfl⟩ := h
    obtain ⟨_, rfl, hfits⟩ := hn.exists_list
    obtain rfl := Node.list.inj (items_eq_ok.1 hg)
    rw [List.flatten_cons]
    exact List.forall_mem_append.2 ⟨hfits, ih hmore hgs⟩

theorem fits_foldr (hq : q ∈ [.stmt, .branch]) {no : Node} {p : Node × Node}
    {ps : List (Node × Node)} (hp : (Node.ifElse p.1 p.2 .none).Fits decimals .stmt)
    (hps : ∀ p ∈ ps, (Node.ifElse p.1 p.2 .none).Fits decimals .stmt)
    (hno : no.Fits decimals .branch) :
    ((p :: ps).foldr (fun p n => .ifElse p.1 p.2 n) no).Fits decimals q := by
  induction ps generalizing p q with
  | nil => exact hp.withBranch hq hno
  | cons p' ps ih =>
    obtain ⟨hp', hps⟩ := List.forall_mem_cons.1 hps
    exact hp.withBranch hq (ih (by decide) hp' hps)

theorem roles_of_inner (r : Rule) : ∀ s ∈ inner r, ∀ q ∈ r.roles, q ∈ s.roles := by
  cases r <;> decide

theorem roles_of_listed {f : List Node → Node} (hl : listed r = some (s, f)) (hq : q ∈ r.roles) :
    ∃ q' ∈ s.roles, ∀ ns : List Node, (∀ n ∈ ns, n.Fits decimals q') →
      (f ns).Fits decimals q := by
  revert hl
  cases r <;> simp [listed] <;> rintro rfl rfl <;> simp only [Rule.roles, List.mem_cons,
    List.not_mem_nil, or_false] at hq
  · exact hq ▸ ⟨.decl, by decide, fun _ => .program⟩
  · exact ⟨.stmt, by decide, fun _ => .block (by simpa using hq)⟩
  · exact hq ▸ ⟨.stmt, by decide, fun _ => .list⟩
  · exact hq ▸ ⟨.expr, by decide, fun _ => .list⟩
  · exact hq ▸ ⟨.element, by decide, fun _ => .list⟩
  · exact hq ▸ ⟨.item, by decide, fun _ => .list⟩

theorem roles_of_levels {op : Option Rule} (hl : levels r = some (s, op)) :
    r.roles = [.expr] ∧ s.roles = [.expr] := by
  revert hl
  cases r <;> simp [levels] <;> rintro rfl rfl <;> decide

theorem mem_of_roles {rs : List Rule} {qs : List Role} (h : ∀ r ∈ rs, ∀ q ∈ r.roles, q ∈ qs)
    (hr : r ∈ rs) (hq : q ∈ r.roles) : q ∈ qs :=
  h r hr q hq

/-- The node of a form with fitting children fits the roles of its rule. -/
theorem fits_of_makes {x : Except Fault Node} (h : Makes r cs x) (hs : Spelled cs)
    (hc : Fitting decimals cs)
    (hf : r = .operand → decimals = false → ∀ t, .leaf t ∈ cs → t.kind ≠ .floatLit)
    (hn : x = .ok n) (hq : q ∈ r.roles) : n.Fits decimals q := by
  cases h with (try simp only [bind_eq_ok, pure_eq_ok, Except.ok.injEq] at hn
                try obtain rfl := List.mem_singleton.1 hq)
  | inner hr => exact hc.node hn (by simp) (roles_of_inner r _ hr q hq)
  | name hr hx =>
    subst hn
    exact .id (mem_of_roles (by decide) hr hq) (hs.of_mem hx)
  | list hl hu =>
    obtain ⟨ns, hns, rfl⟩ := hn
    obtain ⟨q', hq', hfits⟩ := roles_of_listed hl hq
    exact hfits ns (hc.mapM hu hq' hns)
  | operator hr =>
    exact absurd (mem_of_roles (by decide) hr hq) List.not_mem_nil
  | varType hx =>
    obtain ⟨t, ht, rfl⟩ := hn
    exact .varType hq (hs.of_mem hx) (hc.node ht)
  | varInit hr hx =>
    obtain ⟨e, he, rfl⟩ := hn
    exact .varInit (mem_of_roles (by decide) hr hq) (hs.of_mem hx) (hc.node he)
  | varBoth hr hx =>
    obtain ⟨t, ht, e, he, rfl⟩ := hn
    exact .varBoth (mem_of_roles (by decide) hr hq) (hs.of_mem hx) (hc.node ht) (hc.node he)
  | const hx =>
    obtain ⟨e, he, rfl⟩ := hn
    exact .const hq (hs.of_mem hx) (hc.node he)
  | @assign o _ _ ho =>
    obtain ⟨l, hl, e, he, hn⟩ := hn
    exact fits_of_assignment (mem_of_roles (by decide) (List.mem_singleton_self _) hq)
      (hc.node hl) (hc.node he) (hs.text_mem (by simp) ho (by decide)) hn
  | @update x o _ hx ho =>
    obtain ⟨e, he, hn⟩ := hn
    exact fits_of_assignment (mem_of_roles (by decide) (List.mem_singleton_self _) hq)
      (.id (by decide) (hs.of_mem hx)) (hc.node he) (hs.text_mem (by simp) ho (by decide)) hn
  | branch =>
    obtain ⟨c, hcond, m, hm, ms, hms, no, hno, hn⟩ := hn
    obtain ⟨p, ps, rfl, rfl, rfl⟩ := exists_of_conditional hcond hm hms hn
    have hfits : (Node.list _).Fits decimals (.list .stmt) := hc.node hm
    cases hfits with
    | list hms =>
      refine fits_foldr hq (hc.node hcond) (fun p hp => hms _ (List.mem_map_of_mem hp)) ?_
      exact hc.nodeOr hno (by simp +contextual) (by decide) .noBranch
  | onlyIf =>
    obtain ⟨e, he, b, hb, rfl⟩ := hn
    exact .ifElse (by decide) (hc.node he) (hc.node hb) .noBranch
  | forBasic =>
    obtain ⟨e, he, b, hb, rfl⟩ := hn
    exact .forBasic (hc.node he) (hc.node hb)
  | forStep =>
    obtain ⟨i, hi, e, he, u, hu, b, hb, rfl⟩ := hn
    exact .forStep (hc.node hi) (hc.node he) (hc.node hu) (hc.node hb)
  | forEach hx hy =>
    obtain ⟨e, he, b, hb, rfl⟩ := hn
    exact .forEach (hs.of_mem hx) (hs.of_mem hy) (hc.node he) (hc.node hb)
  | breakLoop =>
    subst hn
    exact .breakLoop
  | continueLoop =>
    subst hn
    exact .continueLoop
  | @ret o =>
    obtain ⟨e, he, rfl⟩ := hn
    cases o with
    | none =>
      obtain rfl := Except.ok.inj he
      exact .retVoid
    | some ds => exact .ret (@Fitting.node _ _ ds _ .expr hc he (by simp [maybe]) _ (by decide))
  | func hx =>
    exact hc.functionOf (hs.of_mem hx) hn (by simp +contextual) (by decide)
  | method hx hy hz =>
    obtain ⟨f, hfunc, rfl⟩ := hn
    exact .method (hs.of_mem hx) (hs.of_mem hy)
      (hc.functionOf (hs.of_mem hz) hfunc (by simp +contextual) (by decide))
  | call hx =>
    obtain ⟨m, hm, as, has, rfl⟩ := hn
    exact .call hq (hs.of_mem hx) (hc.items hm (by simp +contextual) has (by decide))
  | methodCall =>
    obtain ⟨m, hm, p, hp, c, hcs, rfl⟩ := hn
    obtain rfl := callee_eq_ok.1 hp
    have hcall : (Node.call _ _).Fits decimals .expr := hc.node hm
    cases hcall with
    | call _ hx has => exact .methodCall hq (hc.node hcs) hx has
  | primitive ht =>
    subst hn
    exact fits_primitive (mem_of_roles (by decide) (List.mem_singleton_self _) hq) ht
  | arrayMore =>
    obtain ⟨d, hd, m, hm, p, hp, rfl⟩ := hn
    obtain rfl := arrayParts_eq_ok.1 hp
    have harray : (Node.arrayType _ _).Fits decimals .type := hc.node hm
    cases harray with
    | arrayType _ hds ht =>
      exact .arrayType hq (List.forall_mem_cons.2 ⟨hc.node hd, hds⟩) ht
  | arrayPrimitive =>
    obtain ⟨d, hd, t, ht, rfl⟩ := hn
    exact .arrayType hq (by simpa using hc.node hd) (hc.node ht)
  | arrayNamed hx =>
    obtain ⟨d, hd, rfl⟩ := hn
    exact .arrayType hq (by simpa using hc.node hd) (.id (by decide) (hs.of_mem hx))
  | sizeLit ht =>
    subst hn
    exact .intText (by decide) (hs.of_mem ht)
  | sizeName hx =>
    subst hn
    exact .id (by decide) (hs.of_mem hx)
  | @binary _ s op o _ _ hl ho =>
    obtain ⟨l, hl', e, he, rfl⟩ := hn
    obtain ⟨hr, hs'⟩ := roles_of_levels hl
    obtain rfl := List.mem_singleton.1 (hr ▸ hq)
    have hmem : ∀ s ∈ binaryKinds.filterMap TokenKind.literal?, s ∈ Node.binaryOperators := by
      decide
    exact .binary (hmem _ (hs.text_mem (by cases op <;> simp [operatorTree]) ho (by decide)))
      (hc.node hl' (by simp) (by simp [hr])) (hc.node he (by simp) (by simp [hs']))
  | @unary o _ ho =>
    obtain ⟨e, he, rfl⟩ := hn
    exact .unary (hs.text_mem (by simp) ho (by decide)) (hc.node he)
  | @literal _ t hr ht =>
    have hne : t.kind ≠ .eof := fun h => absurd (h ▸ ht) (by decide)
    refine fits_of_reads ?_ (hs t (by simp) hne) (fun hk ho => ?_) (reads_of_literal ht hn)
    · simp only [List.mem_cons, List.not_mem_nil, or_false] at hr
      obtain rfl | rfl := hr <;> exact List.mem_singleton.1 hq
    · by_contra hd
      exact hf (by simpa using ho) (by simpa using hd) t (by simp) hk
  | arrayLit =>
    obtain ⟨m, hm, p, hp, v, hv, rfl⟩ := hn
    obtain rfl := arrayParts_eq_ok.1 hp
    have harray : (Node.arrayType _ _).Fits decimals .type := hc.node hm
    obtain ⟨vs, rfl, hvs⟩ := @Node.Fits.exists_list _ .element _ (hc.node hv)
    cases harray with
    | arrayType _ hds ht =>
      exact .arrayLit hds ht hvs
  | shortArray =>
    obtain ⟨v, hv, rfl⟩ := hn
    obtain ⟨vs, rfl, hvs⟩ := @Node.Fits.exists_list _ .element _ (hc.node hv)
    exact .shortArray hvs
  | structLit hx =>
    obtain ⟨m, hm, es, hes, rfl⟩ := hn
    exact .structLit hq (hs.of_mem hx) (hc.items hm (by simp +contextual) hes (by decide))
  | field hr hx =>
    obtain ⟨c, hcs, rfl⟩ := hn
    exact .select (mem_of_roles (by decide) hr hq) (hc.node hcs) (hs.of_mem hx)
  | chainCall =>
    obtain ⟨c, hcs, m, hm, p, hp, rfl⟩ := hn
    obtain rfl := callee_eq_ok.1 hp
    have hcall : (Node.call _ _).Fits decimals .expr := hc.node hm
    cases hcall with
    | call _ hx has => exact .methodCall (by decide) (hc.node hcs) hx has
  | @cell _ s _ _ hrs _ hu =>
    obtain ⟨a, ha, is, his, rfl⟩ := hn
    have hroles : q ∈ [.expr, .target] ∧ .expr ∈ s.roles := by
      simp only [List.mem_cons, Prod.mk.injEq, List.not_mem_nil, or_false] at hrs
      obtain ⟨rfl, rfl⟩ | ⟨rfl, rfl⟩ := hrs
      · exact ⟨hq, by decide⟩
      · exact ⟨by simp_all [Rule.roles], by decide⟩
    exact .cell hroles.1 (hc.node ha (by simp) hroles.2)
      ((hc.mono (by simp +contextual)).mapM hu (by decide) his)
  | cellField hx hu =>
    obtain ⟨c, hcs, is, his, rfl⟩ := hn
    exact .cell hq (.select (by decide) (hc.node hcs)
        (hs.of_mem hx))
      ((hc.mono (by simp +contextual)).mapM hu (by decide) his)
  | cellCall hu =>
    obtain ⟨m, hm, p, hp, c, hcs, is, his, rfl⟩ := hn
    obtain rfl := callee_eq_ok.1 hp
    have hcall : (Node.call _ _).Fits decimals .expr := hc.node hm
    cases hcall with
    | call _ hx has =>
      exact .cell hq (.methodCall (by decide) (hc.node hcs) hx has)
        ((hc.mono (by simp +contextual)).mapM hu (by decide) his)
  | structDecl hx hu =>
    obtain ⟨fs, hfs, rfl⟩ := hn
    exact .structType (hs.of_mem hx) ((hc.mono (by simp +contextual)).mapM hu (by decide) hfs)
  | interfaceDecl hx hu =>
    obtain ⟨ms, hms, rfl⟩ := hn
    exact .interfaceType (hs.of_mem hx) ((hc.mono (by simp +contextual)).mapM hu (by decide) hms)
  | pair hrs hx =>
    obtain ⟨v, hv, rfl⟩ := hn
    have hname := hs.of_mem hx
    simp only [List.mem_cons, Prod.mk.injEq, List.not_mem_nil, or_false] at hrs
    obtain ⟨rfl, rfl⟩ | ⟨rfl, rfl⟩ := hrs
    · obtain rfl := List.mem_singleton.1 hq
      exact .field hname (hc.node hv)
    · obtain rfl := List.mem_singleton.1 hq
      exact .item hname (hc.node hv)
  | prototype hx =>
    obtain ⟨m, hm, ps, hps, ts, hts, t, ht, rfl⟩ := hn
    have hparams : ∀ p ∈ ps, p.Fits decimals .param :=
      hc.items hm (by simp +contextual) hps (by decide)
    exact .prototype (hs.of_mem hx) (fits_of_paramTypes hparams hts)
      (hc.nodeOr ht (by simp +contextual) (by decide) .voidType)
  | paramList hu =>
    obtain ⟨ns, hns, gs, hgs, rfl⟩ := hn
    exact .list (fits_of_groups (hc.mapM hu (by decide) hns) hgs)
  | @paramDecl xs ts hxs =>
    obtain ⟨ps, hps, rfl⟩ := hn
    cases xs with
    | nil =>
      obtain rfl : ps = [] := by simpa [params, eq_comm] using hps
      exact .list (by simp)
    | cons x xs =>
      obtain ⟨t, ht, rfl⟩ := params_eq_ok.1 hps
      refine .list fun p hp => ?_
      obtain ⟨_, hname, rfl⟩ := List.mem_map.1 hp
      rw [← List.map_cons] at hname
      obtain ⟨y, hy, rfl⟩ := List.mem_map.1 hname
      have hleaf : y ∈ Tree.leavesList ((x :: xs).map Tree.leaf ++ [Tree.node .typ ts]) :=
        Tree.mem_leavesList.2 ⟨.leaf y, List.mem_append_left _ (List.mem_map_of_mem hy), by simp⟩
      exact .param (hs.of_mem (hxs y hy) hleaf) (hc.node ht)

/-! ## The nodes of sources -/

/-- Whether a floating point number stands as an operand. -/
def hasFloatOperand (t : SyntaxTree) : Bool :=
  t.nodes.any fun p => p.1 == .operand && p.2.any (Tree.isToken .floatLit)

theorem kind_ne_of_mem_nodes (h : t.hasFloatOperand = false) (hcs : (Rule.operand, cs) ∈ t.nodes)
    {u : Token TokenKind} (hu : .leaf u ∈ cs) : u.kind ≠ .floatLit := by
  intro hk
  have := List.any_eq_false.1 h _ hcs
  simp only [beq_self_eq_true, Bool.true_and, List.any_eq_true, not_exists, not_and] at this
  exact this _ hu (by simp [Tree.isToken, hk])

theorem fits_of_derives (h : t.Derives miniGo) (hs : Spelled [t]) (hf : decimals = false →
      ∀ cs, (Rule.operand, cs) ∈ t.nodes → ∀ u, .leaf u ∈ cs → u.kind ≠ .floatLit) :
    Fitting decimals [t] := by
  induction h with
  | leaf t => intro s ds n hmem; simp at hmem
  | @node r cs a ha hgrows hc ih =>
    intro s ds n hmem hn q hq
    obtain ⟨rfl, rfl⟩ : s = r ∧ ds = cs := by simpa using hmem
    have hsub : ∀ d ∈ core ds, d ∈ ds := fun d hd => (List.mem_filter.1 hd).1
    have hs : Spelled ds := by simpa [Spelled] using hs
    have hmore : ∀ d ∈ ds, Fitting decimals [d] := fun d hd =>
      ih d hd (hs.mono (by simpa using hd)) fun hdec es hes =>
        hf hdec es (by simpa [Tree.nodes] using .inr (Tree.mem_nodesList.2 ⟨d, hd, hes⟩))
    refine fits_of_makes (makes_of_derives (.node ha hgrows hc)) (hs.mono hsub)
      (fun s' es m hmem => hmore _ (hsub _ hmem) s' es m (by simp)) ?_ hn hq
    rintro rfl hdec u hu
    exact hf hdec ds (by simp [Tree.nodes]) u (hsub _ hu)

theorem spelled_of_parse {source : String} (h : parse source = .ok t) : Spelled [t] := by
  intro u hu hne
  rw [Tree.leavesList_cons, Tree.leavesList_nil, List.append_nil, (derives_of_parse h).1] at hu
  exact (Tokens.stands_of_mem hu hne).spelled

/-- The node of a source is a program. -/
theorem fits_of_source {source : String} (ht : parse source = .ok t) (hn : t.toNode = .ok n) :
    n.Fits t.hasFloatOperand .program := by
  obtain ⟨-, cs, rfl, hd⟩ := derives_of_parse ht
  exact fits_of_derives hd (spelled_of_parse ht)
    (fun hf cs hcs u hu => kind_ne_of_mem_nodes hf hcs hu) .program cs n (by simp) hn .program
    (by decide)

end SyntaxTree

end MiniGoc
