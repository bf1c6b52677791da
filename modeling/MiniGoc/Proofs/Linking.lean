import MiniGoc.Proofs.Names
import MiniGoc.Proofs.Resolution

/-!
# Programs whose files link

The files of a program are closed under linking if every reference in them resolves
(`Reference.Resolves`).  They need not be: a struct literal names its class by the descriptor,
as in `new LP;`, and no class has such a name; a call of the main function names it with the
type it was declared with, while its method has the type of the entry point; and a function that
is used as a value is looked for among the fields.

Where a source has none of these (`linkable`), all references resolve (`references_resolve`).
Then no expression has a struct for its type, since struct literals are the only way to get at
one.  So there are no references to fields of objects, and what is left are the variables and
functions of the program.
-/

namespace MiniGoc

open Emit

/-! ## Sources that link -/

/-- The name of a function, a struct or an interface. -/
def Node.definedName? : Node → Option String
  | func n _ _ _ => some n
  | structType n _ _ _ => some n
  | interfaceType n _ => some n
  | _ => Option.none

namespace Node

mutual

/-- A value is made without struct literals and without calls of the main function, and none of
some names is used as a value. -/
def links (names : List String) : Node → Bool
  | id n => !names.contains n
  | cell a is => links names a && allLink names is
  | field r _ => links names r
  | binary _ l r => links names l && links names r
  | unary _ e => links names e
  | call n as => n != "main" && allLink names as
  | methodCall r _ as => links names r && allLink names as
  | arrayLit ds _ v => allLink names ds && links names v
  | list es => allLink names es
  | structLit _ _ => false
  | _ => true

/-- The same for values in a row. -/
def allLink (names : List String) : List Node → Bool
  | [] => true
  | e :: es => links names e && allLink names es

end

attribute [local simp] links allLink

mutual

/-- The values of a statement are made so.  A call that stands as a statement has no code. -/
def stmtLinks (names : List String) : Node → Bool
  | var _ _ i | const _ _ i | ret i => links names i
  | assign l e => links names l && links names e
  | block ms => stmtsLink names ms
  | ifElse c y n => links names c && stmtLinks names y && stmtLinks names n
  | _ => true

/-- The same for statements in a row. -/
def stmtsLink (names : List String) : List Node → Bool
  | [] => true
  | m :: ms => stmtLinks names m && stmtsLink names ms

end

attribute [local simp] stmtLinks stmtsLink

def declLinks (names : List String) : Node → Bool
  | func _ _ _ b => stmtLinks names b
  | var _ _ i => links names i
  | _ => true

end Node

/-- The names of the functions, structs and interfaces of a program. -/
def definedNames (ds : List Node) : List String := ds.filterMap Node.definedName?

/-- A program has no struct literals and no calls of its main function that have code, and uses
no function and no type as a value. -/
def linkable (ds : List Node) : Bool := ds.all (Node.declLinks (definedNames ds))

/-! ## The names at the top level -/

/-- Types of values in such a program: no structs and no functions. -/
def Node.isPlain : Node → Bool
  | arrayType _ e => isElementTree e
  | structType .. | structLit .. | arrayLit .. | funcType .. | checkedFuncType .. => false
  | _ => true

variable {t : Node} {ds : List Node} {env : List Symbol} {f g : Frame} {c : Code}

theorem Node.isPlain_of_isTypeTree (h : t.isTypeTree) : t.isPlain := by
  cases t <;> simp_all [isTypeTree, isPlain]

theorem Node.isPlain_of_element? {e : Node} (h : t.isPlain) (he : t.element? = some e) :
    e.isPlain := by
  cases t with
  | arrayType ds u =>
    cases he
    cases e <;> simp_all [isPlain, isElementTree]
  | arrayLit => simp [isPlain] at h
  | _ => cases he

theorem Node.elements?_of_isPlain (h : t.isPlain) : t.elements? = Option.none := by
  cases t <;> simp_all [isPlain, elements?]

theorem Node.funcParts?_of_isPlain (h : t.isPlain) : t.funcParts? = Option.none := by
  cases t <;> simp_all [isPlain, funcParts?]

section Globals

variable {ds : List Node} {n : String} {s : Symbol}

/-- A name at the top level that is neither a function nor a type belongs to every program, or
it is a variable. -/
theorem value_of_find? (hds : ds.all Node.isDeclTree)
    (hs : Symbol.find? n (globalSymbols ds) = some s) (hn : n ∉ definedNames ds) :
    s.home = .member "io" true ∨
      ((∃ d ∈ ds, d.declared? = some n) ∧ s.home = .member mainClass true ∧ s.type.isPlain) := by
  have hname := Symbol.name_of_find? hs
  rcases mem_globalSymbols (Symbol.mem_of_find? hs) with hs | ⟨d, hd, hs⟩
  · exact .inl (Symbol.home_of_builtin hs)
  · have defined {m : String} (hm : d.definedName? = some m) (hmn : m = n) : False :=
      hn (List.mem_filterMap.2 ⟨d, hd, by rw [hm, hmn]⟩)
    have hdecl := List.all_eq_true.1 hds d hd
    cases d with
    | func m ps r b | structType m es ms is | interfaceType m ms =>
      obtain rfl := List.mem_singleton.1 hs
      exact absurd hname (defined rfl)
    | var m t i =>
      obtain rfl := List.mem_singleton.1 hs
      refine .inr ⟨⟨_, hd, congrArg some hname⟩, rfl, ?_⟩
      simp only [Node.isDeclTree, Bool.and_eq_true, Bool.or_eq_true, Node.isNone_iff] at hdecl
      rcases hdecl.1 with rfl | ht
      · rfl
      · exact Node.isPlain_of_isTypeTree ht
    | _ => cases hs

end Globals

/-! ## References that are declared -/

/-- Every reference of some code is declared, or goes to classes outside of the program. -/
def Code.Linked (ds : List Node) (c : Code) : Prop :=
  ∀ r ∈ c.references, r.IsExternal ∨ r.Declared ds

namespace Code.Linked

variable {ds : List Node} {c d : Code}

theorem of_references_nil (h : c.references = []) : c.Linked ds := by
  intro r hr
  rw [h] at hr
  cases hr

theorem append (hc : c.Linked ds) (hd : d.Linked ds) : Code.Linked ds (c ++ d) := by
  intro r hr
  rw [Code.references_append] at hr
  rcases List.mem_append.1 hr with hr | hr
  · exact hc r hr
  · exact hd r hr

variable {i : Instr}

theorem one {r : Reference} (hi : (Line.instr i).reference? = some r)
    (hr : r.IsExternal ∨ r.Declared ds) : Code.Linked ds (Emit.one i) := by
  intro r' hr'
  have hreferences : Code.references (Emit.one i) = [r] := by simp [Code.references, Emit.one, hi]
  rw [hreferences] at hr'
  obtain rfl := List.mem_singleton.1 hr'
  exact hr

theorem plain (hi : (Line.instr i).reference? = none) : Code.Linked ds (Emit.one i) :=
  of_references_nil (by simp [Code.references, Emit.one, hi])

theorem constant {i : Instr} (h : i.isConstant) : Code.Linked ds (Emit.one i) :=
  plain (by cases i <;> first | rfl | simp [Instr.isConstant] at h)

theorem makesArray (h : i.makesArray) : Code.Linked ds (Emit.one i) :=
  plain (by cases i <;> first | rfl | simp [Instr.makesArray] at h)

theorem onTexts {m t : String} (h : m = "java/lang/String/concat" ∨
    m = "java/lang/String/compareTo") : Code.Linked ds (Emit.one (.invokeVirtual m t)) := by
  refine one rfl (.inl ?_)
  rcases h with rfl | rfl
  · exact ⟨"String/concat", .inr rfl⟩
  · exact ⟨"String/compareTo", .inr rfl⟩

theorem operator (h : i.isOperator) : Code.Linked ds (Emit.one i) := by
  cases i with
  | invokeVirtual m t => exact onTexts (by simpa [Instr.isOperator] using h)
  | iadd | isub | imul | idiv | irem | iand | ior | fadd | fsub | fmul | fdiv | fcmpl =>
    exact plain rfl
  | _ => cases h

theorem compares {op : String} {l : Nat} {t : Node} {f g : Frame} (h : Compares op l t f c g) :
    c.Linked ds := by
  have test {make : Cond → Operand → Instr}
      (hmake : ∀ c o, (Line.instr (make c o)).reference? = none) (o : Operand) :
      Code.Linked ds (failJump make op o) := by
    unfold failJump
    split
    · exact plain (hmake _ _)
    · exact of_references_nil rfl
  have ends : Code.Linked ds (outcomes l (l + 1)) := of_references_nil rfl
  cases h with
  | ints => exact (test (fun _ _ => rfl) _).append ends
  | floats => exact ((plain rfl).append (test (fun _ _ => rfl) _)).append ends
  | texts => exact ((onTexts (.inr rfl)).append (test (fun _ _ => rfl) _)).append ends
  | other => exact of_references_nil rfl

end Code.Linked

/-- The environments inside of functions: names that are not at the top level have plain types. -/
abbrev LinkEnv (ds : List Node) (env : List Symbol) : Prop :=
  Nested Node.isPlain (globalSymbols ds) env

section Uses

variable {ds : List Node} {env : List Symbol} {n : String} {s : Symbol} {owner : String} {x : Bool}

/-- A variable of the program that is used as a value is declared. -/
theorem Nested.static (henv : LinkEnv ds env) (hds : ds.all Node.isDeclTree)
    (hs : Symbol.find? n env = some s) (hhome : s.home = .member owner x)
    (hn : n ∉ definedNames ds) {d : String} (hd : s.type.descriptor = .ok d) :
    ((Reference.static (owner ++ "/" ++ n) d).IsExternal ∨
      (Reference.static (owner ++ "/" ++ n) d).Declared ds) ∧
      (owner = mainClass → s.type.isPlain) := by
  rcases henv n s hs with ⟨⟨i, hslot⟩, -⟩ | hglobal
  · cases hhome.symm.trans hslot
  · rcases value_of_find? hds hglobal hn with hio | ⟨hvar, hmain, hplain⟩
    · cases hhome.symm.trans hio
      exact ⟨.inl ⟨n, .inl (by simp [Reference.target])⟩, fun h => absurd h (by decide)⟩
    · cases hhome.symm.trans hmain
      exact ⟨.inr ⟨n, rfl, hvar, s, true, hglobal, hmain, hd⟩, fun _ => hplain⟩

/-- A function other than the main one that is called is declared. -/
theorem Nested.call (henv : LinkEnv ds env) (hds : ds.all Node.isDeclTree)
    (hs : Symbol.find? n env = some s) (howner : s.home.word? = some owner) {ps : List Node}
    {r : Node} (hparts : s.type.funcParts? = some (ps, r)) (hn : n ≠ "main") {d : String}
    (hd : s.type.descriptor = .ok d) :
    ((Reference.call (owner ++ "/" ++ n) d).IsExternal ∨
      (Reference.call (owner ++ "/" ++ n) d).Declared ds) ∧ r.isPlain := by
  rcases henv n s hs with ⟨-, hplain⟩ | hglobal
  · rw [Node.funcParts?_of_isPlain hplain] at hparts
    cases hparts
  · obtain ⟨htree, hclass⟩ := function_of_mem hds (Symbol.mem_of_find? hglobal) hparts
    have hresult := Node.isPlain_of_isTypeTree htree
    rw [Symbol.name_of_find? hs] at hclass
    rcases hclass with hio | ⟨hmain, qs, b, hfunc, htype⟩
    · rw [hio] at howner
      cases howner
      exact ⟨.inl ⟨n, .inl (by simp [Reference.target])⟩, hresult⟩
    · rw [hmain] at howner
      cases howner
      refine ⟨.inr ⟨n, rfl, .inr ⟨qs, r, b, hfunc, ?_⟩⟩, hresult⟩
      rwa [methodType, if_neg hn, ← htype]

end Uses

/-! ## Expressions and statements -/

/-- A part of an expression as it is written, which links. -/
def Fragment.Links (names : List String) : Fragment → Prop
  | expr e => e.isExprTree ∧ e.links names
  | args es | elems _ _ _ _ es => Node.areExprTrees es ∧ Node.allLink names es
  | cells t es => t.isPlain ∧ Node.areExprTrees es ∧ Node.allLink names es
  | fields .. => False

/-- The code of an expression that links has references that are declared, and its type is
plain. -/
theorem Coded.linked (hds : ds.all Node.isDeclTree) (henv : LinkEnv ds env) {part : Fragment}
    (h : Coded env part f c t g) (hpart : part.Links (definedNames ds)) :
    c.Linked ds ∧ t.isPlain := by
  have expr {e : Node} (h : e.isExprTree) (h' : e.links (definedNames ds)) :
      Fragment.Links (definedNames ds) (.expr e) := ⟨h, h'⟩
  induction h with
    try (obtain ⟨htree, hlinks⟩ := hpart
         simp only [Node.isExprTree, Node.isElementList, Node.links, Bool.and_eq_true,
           bne_iff_ne] at htree hlinks)
  | @name n f c t g h =>
    have hn : n ∉ definedNames ds := by simpa using hlinks
    cases h with
    | slot hs hi _ =>
      rcases henv n _ hs with ⟨-, hplain⟩ | hglobal
      · exact ⟨.plain rfl, hplain⟩
      · exact absurd hi (globalSymbols_home (Symbol.mem_of_find? hglobal) _)
    | static hs hhome hd =>
      obtain ⟨hstatic, hplain⟩ := henv.static hds hs hhome hn hd
      exact ⟨.one rfl hstatic, hplain rfl⟩
  | cell _ _ iha ihis =>
    obtain ⟨array, hplain⟩ := iha (expr htree.1 hlinks.1)
    obtain ⟨indices, helement⟩ := ihis ⟨hplain, htree.2, hlinks.2⟩
    exact ⟨array.append indices, helement⟩
  | field _ hes _ _ _ _ _ ih =>
    rw [Node.elements?_of_isPlain (ih (expr htree hlinks)).2] at hes
    cases hes
  | @arithmetic op l r f c lt g d rt h x k m _ _ _ _ _ _ ihl ihr =>
    obtain ⟨left, -⟩ := ihl (expr htree.1.2 hlinks.1)
    obtain ⟨right, -⟩ := ihr (expr htree.2 hlinks.2)
    have hplain : x.type.isPlain := by cases x <;> rfl
    refine ⟨Code.Linked.append ?_ (.operator (isOperator_arithmeticInstr op x.type)), hplain⟩
    cases x with
    | apart => exact .of_references_nil rfl
    | intFloat => exact (left.append (.plain rfl)).append right
    | floatInt => exact (left.append right).append (.plain rfl)
    | ints | texts | floats => exact left.append right
  | comparison _ _ _ hc ihl ihr =>
    exact ⟨((ihl (expr htree.1.2 hlinks.1)).1.append (ihr (expr htree.2 hlinks.2)).1).append
      (.compares hc), rfl⟩
  | both _ _ _ ihl ihr | either _ _ _ ihl ihr =>
    exact ⟨((ihl (expr htree.1.2 hlinks.1)).1.append (ihr (expr htree.2 hlinks.2)).1).append
      (.plain rfl), rfl⟩
  | call hs _ howner hparts hd _ ih =>
    obtain ⟨hcall, hresult⟩ := henv.call hds hs howner hparts hlinks.1 hd
    exact ⟨(ih ⟨htree, hlinks.2⟩).1.append (.one rfl hcall), hresult⟩
  | number h | text h | truth _ h => exact ⟨.constant (isConstant_of_intInstr? h), rfl⟩
  | decimal | nil => exact ⟨.plain rfl, rfl⟩
  | array _ hi _ ih =>
    exact ⟨(ih ⟨htree.1.1, hlinks.1⟩).1.append (.makesArray (makesArray_of_arrayInstr? hi)),
      htree.1.2⟩
  | arrayOf _ hi _ _ _ ih ih' =>
    exact ⟨((((ih ⟨htree.1.1, hlinks.1⟩).1.append
      (.makesArray (makesArray_of_arrayInstr? hi))).append (.plain rfl)).append
      (ih' ⟨htree.2, hlinks.2⟩).1).append (.plain rfl), htree.1.2⟩
  | struct | structOf =>
    cases hlinks
  | noArgs | noElems => exact ⟨.of_references_nil rfl, rfl⟩
  | noCells => exact ⟨.of_references_nil rfl, hpart.1⟩
  | arg _ _ ih ih' =>
    obtain ⟨htree, hlinks⟩ := hpart
    simp only [Node.areExprTrees, Node.allLink, Bool.and_eq_true] at htree hlinks
    exact ⟨(ih (expr htree.1 hlinks.1)).1.append (ih' ⟨htree.2, hlinks.2⟩).1, rfl⟩
  | index _ he _ _ _ ih ih' =>
    obtain ⟨hplain, htree, hlinks⟩ := hpart
    simp only [Node.areExprTrees, Node.allLink, Bool.and_eq_true] at htree hlinks
    obtain ⟨rest, hrest⟩ := ih' ⟨Node.isPlain_of_element? hplain he, htree.2, hlinks.2⟩
    exact ⟨((ih (expr htree.1 hlinks.1)).1.append (.plain rfl)).append rest, hrest⟩
  | elem _ _ _ _ _ ih ih' =>
    obtain ⟨htree, hlinks⟩ := hpart
    simp only [Node.areExprTrees, Node.allLink, Bool.and_eq_true] at htree hlinks
    exact ⟨((((Code.Linked.plain rfl).append (.constant (isConstant_intConstant _))).append
      (ih (expr htree.1 hlinks.1)).1).append (.plain rfl)).append
      (ih' ⟨htree.2, hlinks.2⟩).1, rfl⟩
  | noFields | fieldOf => exact hpart.elim

theorem TypeOf.isPlain {u : Node} (h : TypeOf env t f u g) : u.isPlain := by
  cases h with
  | type ht _ => exact Node.isPlain_of_isTypeTree ht
  | value => rfl
  | nothing => rfl

/-- The names of a block have slots and plain types. -/
theorem Declared.linked (hds : ds.all Node.isDeclTree) {outer ls : List Symbol}
    (houter : LinkEnv ds outer) {p : Gen.Pass} {ms : List Node} (h : Declared outer p ms f c ls g)
    (hms : Node.areStmtTrees ms) (hlinks : Node.stmtsLink (definedNames ds) ms)
    (hp : ∀ s ∈ p.locals, (∃ i, s.home = .slot i) ∧ s.type.isPlain) :
    ∀ s ∈ ls, (∃ i, s.home = .slot i) ∧ s.type.isPlain := by
  induction h with
  | done => exact hp
  | @take p m ms f n u g s d c ls h hm _ _ _ ih =>
    simp only [Node.areStmtTrees, Node.stmtsLink, Bool.and_eq_true] at hms hlinks
    have henv := houter.enter fun n s hs => hp s (Symbol.mem_of_find? hs)
    have hplain : u.isPlain := by
      cases hm with
      | typed _ ht => exact ht.isPlain
      | untyped hc =>
        simp only [Node.isStmtTree, Node.stmtLinks, Bool.and_eq_true, Bool.or_eq_true,
          Node.isNone_iff] at hms hlinks
        rcases hms.1.2.2 with rfl | htree
        · cases hc
        · exact (hc.linked hds henv ⟨htree, hlinks.1⟩).2
      | constant _ hc =>
        simp only [Node.isStmtTree, Node.stmtLinks] at hms hlinks
        exact (hc.linked hds henv ⟨hms.1.2, hlinks.1⟩).2
      | assigned _ hc =>
        simp only [Node.isStmtTree, Node.stmtLinks, Bool.and_eq_true] at hms hlinks
        exact (hc.linked hds henv ⟨hms.1.2.2, hlinks.1.2⟩).2
    refine ih hms.2 hlinks.2 fun s hs => ?_
    rcases List.mem_append.1 hs with hs | hs
    · exact hp s hs
    · obtain rfl := List.mem_singleton.1 hs
      exact ⟨⟨g.index, rfl⟩, hplain⟩
  | known _ _ _ _ _ _ ih =>
    simp only [Node.areStmtTrees, Node.stmtsLink, Bool.and_eq_true] at hms hlinks
    exact ih hms.2 hlinks.2 hp
  | skip _ _ ih =>
    simp only [Node.areStmtTrees, Node.stmtsLink, Bool.and_eq_true] at hms hlinks
    exact ih hms.2 hlinks.2 hp

theorem Declared.references_eq_nil {outer ls : List Symbol} {p : Gen.Pass} {ms : List Node}
    (h : Declared outer p ms f c ls g) : c.references = [] := by
  induction h with
  | done => rfl
  | take _ _ _ _ ih | known _ _ _ _ _ _ ih => exact ih
  | skip _ _ ih => exact ih

theorem references_retPiece (h : retPiece t = some c) : c.references = [] := by
  cases t <;> simp [retPiece] at h <;> subst h <;> rfl

/-- Statements as they are written, which link. -/
def Stage.Links (names : List String) : Stage → Prop
  | stmt m => m.isStmtTree ∧ m.stmtLinks names
  | members ms => Node.areStmtTrees ms ∧ Node.stmtsLink names ms

/-- The code of statements that link has references that are declared. -/
theorem Printed.linked (hds : ds.all Node.isDeclTree) {stage : Stage}
    (h : Printed env stage f c g) (henv : LinkEnv ds env) (hstage : stage.Links (definedNames ds)) :
    c.Linked ds := by
  have label (l : Operand) : Code.Linked ds (Emit.label l) := .of_references_nil rfl
  have expr {env : List Symbol} (henv : LinkEnv ds env) {e t : Node} {f g : Frame} {c : Code}
      (h : Coded env (.expr e) f c t g) (htree : e = .none ∨ e.isExprTree)
      (hlinks : e.links (definedNames ds)) : c.Linked ds := by
    rcases htree with rfl | htree
    · cases h
    · exact (h.linked hds henv ⟨htree, hlinks⟩).1
  induction h with
    (obtain ⟨htree, hlinks⟩ := hstage
     simp only [Node.isStmtTree, Node.isExprTree, Node.areStmtTrees, Node.stmtLinks,
      Node.stmtsLink, Node.links, Bool.and_eq_true, Bool.or_eq_true, Node.isNone_iff]
      at htree hlinks)
  | var _ _ hc =>
    exact (expr henv hc htree.2 hlinks).append (.plain rfl)
  | zero _ _ hz => exact (Code.Linked.constant (isConstant_of_zeroInstr? hz)).append (.plain rfl)
  | const _ _ hc =>
    exact (expr henv hc (.inr htree) hlinks).append (.plain rfl)
  | assignSlot _ _ hc =>
    exact (expr henv hc (.inr htree.2) hlinks.2).append (.plain rfl)
  | assignStatic hs hhome hc hd _ =>
    have hn := by simpa using hlinks.1
    exact (expr henv hc (.inr htree.2) hlinks.2).append
      (.one rfl (henv.static hds hs hhome hn hd).1)
  | assignCell ha his _ _ _ _ he =>
    exact (((expr henv ha (.inr htree.1.2.1) hlinks.1.1).append
      (his.linked hds henv ⟨htree.1.2.2, hlinks.1.2⟩).1).append
      (expr henv he (.inr htree.2) hlinks.2)).append (.plain rfl)
  | assignField ha hes _ _ _ _ _ _ =>
    rw [Node.elements?_of_isPlain (ha.linked hds henv ⟨htree.1.2, hlinks.1⟩).2] at hes
    cases hes
  | block hls _ ih =>
    have hlocals := hls.linked hds henv htree hlinks (by simp)
    exact (((label _).append (.of_references_nil hls.references_eq_nil)).append
      (ih (henv.enter fun n s hs => hlocals s (Symbol.mem_of_find? hs)) ⟨htree, hlinks⟩)).append
      (label _)
  | ifOnly he _ _ ih =>
    exact (((expr henv he (.inr htree.1.1.1.1) hlinks.1.1).append (.plain rfl)).append
      (ih henv ⟨htree.1.1.2, hlinks.1.2⟩)).append (label _)
  | ifElse he _ _ _ _ ih ih' =>
    exact ((((((expr henv he (.inr htree.1.1.1.1) hlinks.1.1).append (.plain rfl)).append
      (ih henv ⟨htree.1.1.2, hlinks.1.2⟩)).append (.plain rfl)).append (label _)).append
      (ih' henv ⟨htree.2, hlinks.2⟩)).append (label _)
  | breakLoop | continueLoop | leave => exact .plain rfl
  | ret hc hd _ =>
    exact (expr henv hc htree hlinks).append (.of_references_nil (references_retPiece hd))
  | call | noMembers => exact .of_references_nil rfl
  | member _ _ ih ih' =>
    exact (ih henv ⟨htree.1.2, hlinks.1⟩).append (ih' henv ⟨htree.2, hlinks.2⟩)

/-! ## Classes -/

theorem Params.linked {ps : List (String × Node)} {ss : List Symbol} (h : Params ps f c ss g)
    (hps : ∀ p ∈ ps, p.2.isPlain) :
    c.references = [] ∧ ∀ s ∈ ss, (∃ i, s.home = .slot i) ∧ s.type.isPlain := by
  induction h with
  | nil => exact ⟨rfl, by simp⟩
  | @cons n t ps f s d c ss g _ _ _ ih =>
    obtain ⟨lines, names⟩ := ih fun p hp => hps p (List.mem_cons_of_mem _ hp)
    refine ⟨lines, fun s hs => ?_⟩
    rcases List.mem_cons.1 hs with rfl | hs
    · exact ⟨⟨f.index, rfl⟩, hps (n, t) (List.mem_cons_self ..)⟩
    · exact names s hs

/-- The method of a function that links. -/
theorem MethodOf.linked (hds : ds.all Node.isDeclTree) {d : Node}
    (h : MethodOf (globalSymbols ds) d c) (hd : d.isDeclTree)
    (hlinks : d.declLinks (definedNames ds)) : c.Linked ds := by
  cases h with
  | @intro n ps r b type body _ hbody =>
    simp only [Node.isDeclTree, Node.declLinks, Bool.and_eq_true] at hd hlinks
    cases hbody with
    | @intro c ss f d g rc h hparams hb hr _ =>
      obtain ⟨lines, names⟩ := hparams.linked fun p hp =>
        Node.isPlain_of_isTypeTree (isTypeTree_of_mem_methodParams hd.1.1.1 hp)
      have inside := hb.linked hds
        (Nested.outermost.enter fun n s hs => names s (Symbol.mem_of_find? hs)) ⟨hd.2, hlinks⟩
      have start : Code.Linked ds (Line.method true n type :: label (.ofNat 0) ++ c) :=
        .of_references_nil (by rw [Code.references_append, lines]; rfl)
      have stop : Code.Linked ds (label (.ofNat 1) ++ rc ++ limitLines h ++ [Line.endMethod]) :=
        (((Code.Linked.of_references_nil rfl).append
          (.of_references_nil (references_retPiece hr))).append
          (.of_references_nil rfl)).append (.of_references_nil rfl)
      simpa [methodCode] using (start.append inside).append stop

theorem Fields.references_eq_nil {globals : List Symbol} {items : List (Symbol × Node)}
    (h : Fields globals ds c items) : c.references = [] := by
  induction h with
  | nil => rfl
  | field _ _ _ _ _ ih => exact ih
  | skip _ _ ih => exact ih

theorem Initialised.linked (hds : ds.all Node.isDeclTree) {items : List (Symbol × Node)}
    (h : Initialised (globalSymbols ds) items f c g)
    (hitems : ∀ s d, (s, d) ∈ items → (Gen.initOf d).isExprTree ∧
      (Gen.initOf d).links (definedNames ds) ∧
      ∀ t, s.type.descriptor = .ok t → FieldIn ds s.name t) : c.Linked ds := by
  induction h with
  | nil => exact .of_references_nil rfl
  | @cons s d items f c u g t h c' k hc ht _ _ ih =>
    obtain ⟨htree, hlinks, hfield⟩ := hitems s d (List.mem_cons_self ..)
    have value := (hc.linked hds Nested.outermost ⟨htree, hlinks⟩).1
    have declared : (Reference.static (mainClass ++ "/" ++ s.name) t).Declared ds :=
      ⟨s.name, rfl, hfield t ht⟩
    exact (value.append (.one rfl (.inr declared))).append
      (ih fun s' d' h' => hitems s' d' (List.mem_cons_of_mem _ h'))

/-- The class of a program that links. -/
theorem Compiled.linked (hds : ds.all Node.isDeclTree) (hlink : linkable ds) (h : Compiled ds c) :
    c.Linked ds := by
  cases h with
  | @intro fs items init ms hconst hfs hinit hms =>
    have hlinks := List.all_eq_true.1 hlink
    have heading : Code.Linked ds (prolog mainClass "java.lang.Object" false) :=
      .of_references_nil rfl
    have start : Code.Linked ds (methodCode "<clinit>" "()V" init) := by
      cases hinit with
      | @intro c f hc =>
        have inside := hc.linked hds fun s d hmem => by
          obtain ⟨hd, n, x, hn, hs, hx⟩ := hfs.mem_items hmem
          refine ⟨hfs.initOf_isExprTree hds _ hmem, ?_, fun t ht => ?_⟩
          · cases d with
            | var => exact hlinks _ hd
            | const => exact absurd (hconst _ hd) (by simp [Node.isConst])
            | _ => cases hn
          · rw [Symbol.name_of_find? hs]
            exact ⟨⟨d, hd, hn⟩, s, x, hs, hx, ht⟩
        have first : Code.Linked ds (Line.method true "<clinit>" "()V" :: label (.ofNat 0)) :=
          .of_references_nil rfl
        have last : Code.Linked ds
            (label (.ofNat 1) ++ one .ret ++ limitLines f ++ [Line.endMethod]) :=
          .of_references_nil rfl
        simpa [methodCode] using (first.append inside).append last
    have functions : Code.Linked ds ms.flatten := by
      have hfuncs : ∀ d ∈ ds.filter Node.isFunc, d.isDeclTree ∧
          d.declLinks (definedNames ds) := fun d hd =>
        ⟨List.all_eq_true.1 hds d (List.mem_filter.1 hd).1,
          hlinks d (List.mem_filter.1 hd).1⟩
      clear hfs hinit start
      generalize ds.filter Node.isFunc = fds at hms hfuncs
      induction hms with
      | nil => exact .of_references_nil rfl
      | @cons d m fds ms hm _ ih =>
        obtain ⟨htree, hlinks'⟩ := hfuncs d (List.mem_cons_self ..)
        exact (hm.linked hds htree hlinks').append
          (ih fun d' hd' => hfuncs d' (List.mem_cons_of_mem _ hd'))
    exact ((heading.append (.of_references_nil hfs.references_eq_nil)).append start).append
      functions

/-- The class of a struct, or an interface, refers to classes of the surroundings only. -/
theorem ListingOf.linked {d : Node} {l : Listing} (h : ListingOf d l) : l.code.Linked ds := by
  cases h with
  | @struct n es ms is fs l hfs _ hcode =>
    have fields : fs.references = [] := by
      clear hcode
      induction hfs with
      | nil => rfl
      | cons _ _ ih => exact ih
    have constructor : Code.Linked ds (constructorCode ("L" ++ n ++ ";")) := by
      intro r hr
      have hreferences : Code.references (constructorCode ("L" ++ n ++ ";")) =
          [.construct "java/lang/Object/<init>" "()V"] := rfl
      rw [hreferences] at hr
      obtain rfl := List.mem_singleton.1 hr
      exact .inl ⟨"Object/<init>", .inr rfl⟩
    rw [hcode]
    exact ((Code.Linked.of_references_nil rfl).append (.of_references_nil fields)).append
      constructor
  | @interface n ms c l hms _ hcode =>
    have methods : c.references = [] := by
      clear hcode
      induction hms with
      | nil => rfl
      | cons _ _ ih => exact ih
    rw [hcode]
    exact (Code.Linked.of_references_nil rfl).append (.of_references_nil methods)

/-- No class has the descriptor of a struct for its name, if the names of classes have no
semicolons. -/
theorem not_declared_descriptor (hnames : ∀ n ∈ definedNames ds, ';' ∉ n.toList) (c : String) :
    ¬ (Reference.object ("L" ++ c ++ ";")).Declared ds := by
  have hsemicolon : ';' ∈ ("L" ++ c ++ ";").toList := by simp
  rintro (hmain | ⟨es, ms, is, hlast⟩)
  · rw [hmain] at hsemicolon
    exact absurd hsemicolon (by decide)
  · simp only [lastClass?] at hlast
    split at hlast
    · cases hlast
    · have hmem := List.mem_of_find?_eq_some hlast
      have hd := (List.mem_filter.1 (List.mem_reverse.1 hmem)).1
      exact hnames _ (List.mem_filterMap.2 ⟨_, hd, rfl⟩) hsemicolon

/-- Which references resolve in the files of a program: those to what the program declares.  All
references in them do if the program has no struct literals, does not call its main function,
and uses no function and no type as a value.  The class of a struct literal never does. -/
theorem references_resolve {ds : List Node} {w : Workspace} (hds : (Node.program ds).isProgram)
    (hgen : Gen.run (.program ds) = (.ok (), w)) :
    (w.files = w.written.map fun l => (l.file, l.code.render)) ∧
      (∀ r : Reference, r.Resolves w.written ↔ r.Declared ds) ∧
      (linkable ds → ∀ l ∈ w.written, ∀ r ∈ l.code.references,
        r.IsExternal ∨ r.Resolves w.written) ∧
      ((∀ n ∈ definedNames ds, ';' ∉ n.toList) → ∀ c,
        ¬ (Reference.object ("L" ++ c ++ ";")).Resolves w.written) := by
  have holds := Gen.run_holds hds hgen
  refine ⟨Gen.run_files hds hgen, holds.resolves_iff, fun hlink l hl r hr => ?_, fun hnames c => ?_⟩
  · have linked : l.code.Linked ds := by
      rcases List.mem_append.1 (Workspace.mem_listings_of_mem_written hl) with hother | hmain
      · obtain ⟨d, -, hd⟩ := exists_of_mem_right holds.classes hother
        exact hd.linked
      · obtain rfl := List.mem_singleton.1 hmain
        exact holds.main.linked hds hlink
    exact (linked r hr).imp_right (holds.resolves_iff r).2
  · rw [holds.resolves_iff]
    exact not_declared_descriptor hnames c

/-- A struct that is not used, a function that is called, and variables. -/
def selfContained : List Node :=
  [.structType "P" [.pair "x" .intType] [] [],
   .var "g" .intType (.intLit (.int 1)),
   .func "twice" [.param "x" .intType] .voidType (.block [.var "y" .intType (.id "x")]),
   .func "main" [] .voidType (.block
     [.var "a" .intType (.binary "+" (.id "g") (.intLit (.int 1))),
      .ret (.call "twice" [.id "a"])])]

def pointLiteral : List Node :=
  [.structType "P" [.pair "x" .intType] [] [],
   .func "main" [] .voidType (.block
     [.assign (.id "p") (.structLit "P" [.pair "x" (.intLit (.int 1))])])]

theorem references_resolve_samples :
    (linkable selfContained ∧
      ((Gen.run (.program selfContained)).2.written.map fun l => (l.file, l.code.references)) =
        [("P.j", [.construct "java/lang/Object/<init>" "()V"]),
         ("MiniGoClass.j", [.static "MiniGoClass/g" "I", .static "MiniGoClass/g" "I",
           .call "MiniGoClass/twice" "(I)V"])] ∧
      ∀ l ∈ (Gen.run (.program selfContained)).2.written, ∀ r ∈ l.code.references,
        r.IsExternal ∨ r.Resolves (Gen.run (.program selfContained)).2.written) ∧
    linkable pointLiteral = false ∧
      ((Gen.run (.program pointLiteral)).2.written.map fun l => (l.file, l.code.references)) =
        [("P.j", [.construct "java/lang/Object/<init>" "()V"]),
         ("MiniGoClass.j", [.object "LP;", .construct "LP;/<init>" "()V",
           .field "LP;/x" "I"])] ∧
      ¬ (Reference.object "LP;").Resolves (Gen.run (.program pointLiteral)).2.written := by
  refine ⟨⟨by decide +kernel, by decide +kernel, ?_⟩, by decide +kernel, by decide +kernel, ?_⟩
  · exact (@references_resolve selfContained _ (by decide)
      (Gen.run_eq_of_isOk (by decide +kernel))).2.2.1 (by decide +kernel)
  · exact (@references_resolve pointLiteral _ (by decide)
      (Gen.run_eq_of_isOk (by decide +kernel))).2.2.2 (by decide +kernel) "P"

end MiniGoc
