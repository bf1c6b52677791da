import MiniGoc.Proofs.Files
import MiniGoc.Proofs.StaticInit

/-!
# What has code

Some of what can be written has no code: loops, unary operators, texts, truth values and calls
of methods among others (`Node.isUnsupported`).  A program with one of them is not generated,
wherever it stands (`parts_supported`).

The rules for code leave these nodes out, so the rules say it for every node that they go
through.  That is all nodes: a function is gone through as a whole, and the initial value of a
variable is generated because the name of the variable is declared once.
-/

namespace MiniGoc

open Act (Yields)
open Emit

namespace Node

/-- Whether a node is of a kind that has no code. -/
def isUnsupported : Node → Bool
  | forBasic .. | forStep .. | forEach .. | continueLoop => true
  | unary .. | stringLit _ | boolLit _ | methodCall .. => true
  | arrayLit ds _ _ => ds.length != 1
  | const _ _ v => !v.isConstant
  | _ => false

/-- Whether a node is spelled as in a source: a text has its quotes, a truth value is one of the
two, and a variable has a type or an initial value. -/
def isSpelled : Node → Bool
  | stringLit (text s) => s.toList.head? == some '"'
  | boolLit (bool _) => true
  | stringLit _ | boolLit _ => false
  | var _ t i => !(t.isNone && i.isNone)
  | _ => true

mutual

/-- A node and all that stands in it, at any depth.  Types are not looked into, nor are the
methods of types. -/
def parts : Node → List Node
  | func n ps r b => func n ps r b :: parts b
  | var n t i => var n t i :: parts i
  | const n t i => const n t i :: parts i
  | block ms => block ms :: partsAll ms
  | assign l r => assign l r :: (parts l ++ parts r)
  | ifElse c y n => ifElse c y n :: (parts c ++ parts y ++ parts n)
  | forBasic c b => forBasic c b :: (parts c ++ parts b)
  | forStep i c u b => forStep i c u b :: (parts i ++ parts c ++ parts u ++ parts b)
  | forEach i v a b => forEach i v a b :: (parts a ++ parts b)
  | ret e => ret e :: parts e
  | cell a is => cell a is :: (parts a ++ partsAll is)
  | field r n => field r n :: parts r
  | binary op l r => binary op l r :: (parts l ++ parts r)
  | unary op e => unary op e :: parts e
  | call n as => call n as :: partsAll as
  | methodCall r n as => methodCall r n as :: (parts r ++ partsAll as)
  | arrayLit ds e v => arrayLit ds e v :: (partsAll ds ++ parts v)
  | structLit n es => structLit n es :: partsAll es
  | list es => list es :: partsAll es
  | pair n e => pair n e :: parts e
  | m => [m]

/-- Nodes in a row and all that stands in them. -/
def partsAll : List Node → List Node
  | [] => []
  | m :: ms => parts m ++ partsAll ms

end

attribute [local simp] parts

/-- A node that is spelled as in a source is none of those without code. -/
def Supported (m : Node) : Prop := m.isSpelled → m.isUnsupported = false

end Node

/-! ## Literals -/

theorem Text.trimBlank_cons {c : Char} (hc : isBlank c = false) (cs : List Char) :
    ∃ ds, trimBlank (c :: cs) = c :: ds := by
  refine ⟨(cs.reverse.dropWhile isBlank).reverse, ?_⟩
  rw [trimBlank, List.dropWhile_cons_of_neg (by simp [hc]), List.reverse_cons,
    List.dropWhile_append]
  split
  · next hempty => simp [List.isEmpty_iff.1 hempty, hc]
  · simp

theorem Numeral.readInt?_of_quote {s : String} (h : s.toList.head? = some '"') :
    Numeral.readInt? s = none := by
  obtain ⟨cs, hcs⟩ : ∃ cs, s.toList = '"' :: cs := List.head?_eq_some_iff.1 h
  obtain ⟨ds, hds⟩ := Text.trimBlank_cons (c := '"') (by decide) cs
  simp only [readInt?, hcs, hds]
  rfl

theorem Emit.intInstr?_of_quote {s : String} (h : s.toList.head? = some '"') :
    intInstr? (.text s) = none := by
  have hne {t : String} (ht : t.toList.head? ≠ some '"') : s ≠ t := by
    rintro rfl
    exact ht h
  rw [intInstr?, if_neg (hne (by decide)), if_neg (hne (by decide)), Numeral.readInt?_of_quote h]
  rfl

theorem Emit.intInstr?_of_bool {b : Bool} {s : String} (h : (Node.bool b).render = .ok s) :
    intInstr? (.text s) = none := by
  cases b <;> cases h <;> decide

/-! ## Nodes that have been gone through -/

/-- What stands in a part of an expression. -/
def Fragment.parts : Fragment → List Node
  | expr e => e.parts
  | args es | cells _ es | elems _ _ _ _ es | fields _ _ _ es => Node.partsAll es

variable {f g : Frame} {c : Code} {n : String} {i : Node}

/-- An expression that has code has no part without. -/
theorem Coded.supported {env : List Symbol} {part : Fragment} {t : Node}
    (h : Coded env part f c t g) : ∀ m ∈ part.parts, m.Supported := by
  have ok {m : Node} (hm : m.isUnsupported = false) : m.Supported := fun _ => hm
  induction h with
  | name | number | decimal | nil | struct => exact List.forall_mem_singleton.2 (ok rfl)
  | cell _ _ iha ihis =>
    exact List.forall_mem_cons.2 ⟨ok rfl, List.forall_mem_append.2 ⟨iha, ihis⟩⟩
  | field _ _ _ _ _ _ _ ih => exact List.forall_mem_cons.2 ⟨ok rfl, ih⟩
  | arithmetic _ _ _ _ _ _ ihl ihr | comparison _ _ _ _ ihl ihr | both _ _ _ ihl ihr
  | either _ _ _ ihl ihr =>
    exact List.forall_mem_cons.2 ⟨ok rfl, List.forall_mem_append.2 ⟨ihl, ihr⟩⟩
  | call _ _ _ _ _ _ ih => exact List.forall_mem_cons.2 ⟨ok rfl, ih⟩
  | @text v i f hi =>
    refine List.forall_mem_singleton.2 fun hspelled => ?_
    cases v with
    | text s =>
      rw [intInstr?_of_quote (by simpa [Node.isSpelled] using hspelled)] at hi
      cases hi
    | _ => cases hspelled
  | @truth v s i f hs hi =>
    refine List.forall_mem_singleton.2 fun hspelled => ?_
    cases v with
    | bool b =>
      rw [intInstr?_of_bool hs] at hi
      cases hi
    | _ => cases hspelled
  | array _ _ _ ih =>
    exact List.forall_mem_cons.2 ⟨ok rfl, List.forall_mem_append.2
      ⟨ih, List.forall_mem_singleton.2 (ok rfl)⟩⟩
  | arrayOf _ _ _ _ _ ih ih' =>
    exact List.forall_mem_cons.2 ⟨ok rfl, List.forall_mem_append.2
      ⟨ih, List.forall_mem_cons.2 ⟨ok rfl, ih'⟩⟩⟩
  | structOf _ _ _ _ _ _ ih => exact List.forall_mem_cons.2 ⟨ok rfl, ih⟩
  | noArgs | noCells | noElems | noFields => exact List.forall_mem_nil _
  | arg _ _ ih ih' => exact List.forall_mem_append.2 ⟨ih, ih'⟩
  | index _ _ _ _ _ ih ih' | elem _ _ _ _ _ ih ih' =>
    exact List.forall_mem_append.2 ⟨ih, ih'⟩
  | fieldOf _ _ _ _ _ _ _ ih ih' =>
    exact List.forall_mem_append.2 ⟨List.forall_mem_cons.2 ⟨ok rfl, ih⟩, ih'⟩

/-- The statements at hand. -/
def Stage.nodes : Stage → List Node
  | stmt m => [m]
  | members ms => ms

/-- What stands in statements. -/
def Stage.parts : Stage → List Node
  | stmt m => m.parts
  | members ms => Node.partsAll ms

/-- Statements as they are written. -/
def Stage.isTree : Stage → Bool
  | stmt m => m.isStmtTree
  | members ms => Node.areStmtTrees ms

/-- The first pass has looked at the constants of a block. -/
theorem Declared.isConstant {outer ls : List Symbol} {p : Gen.Pass} {ms : List Node}
    (h : Declared outer p ms f c ls g) : ∀ n t v, .const n t v ∈ ms → v.isConstant := by
  induction h with
  | done => simp
  | take hm _ _ _ ih =>
    intro n t v hmem
    rcases List.mem_cons.1 hmem with rfl | hmem
    · cases hm with
      | constant hv _ => exact hv
    · exact ih n t v hmem
  | known _ _ _ _ _ _ ih =>
    intro n t v hmem
    rcases List.mem_cons.1 hmem with hmem | hmem
    · cases hmem
    · exact ih n t v hmem
  | skip hm _ ih =>
    intro n t v hmem
    rcases List.mem_cons.1 hmem with rfl | hmem
    · cases hm
    · exact ih n t v hmem

theorem Node.ne_const_of_isBlock {m : Node} (h : m.isBlock) (n : String) (t v : Node) :
    .const n t v ∉ [m] := by
  intro hmem
  obtain rfl := List.mem_singleton.1 hmem
  simp [isBlock] at h

theorem Node.ne_const_of_isElseTree {m : Node} (h : m.isElseTree) (n : String) (t v : Node) :
    .const n t v ∉ [m] := by
  intro hmem
  obtain rfl := List.mem_singleton.1 hmem
  simp [isElseTree] at h

/-- A statement that has code has no part without.  Constants have been looked at by the first
pass over their block. -/
theorem Printed.supported {env : List Symbol} {stage : Stage} (h : Printed env stage f c g)
    (htree : stage.isTree) (hloops : f.loops = [])
    (hconst : ∀ n t v, .const n t v ∈ stage.nodes → v.isConstant) :
    ∀ m ∈ stage.parts, m.Supported := by
  have ok {m : Node} (hm : m.isUnsupported = false) : m.Supported := fun _ => hm
  have isNone : ∀ m ∈ Node.none.parts, m.Supported := List.forall_mem_singleton.2 (ok rfl)
  induction h with
  | var _ _ hc _ _ => exact List.forall_mem_cons.2 ⟨ok rfl, hc.supported⟩
  | zero | leave => exact List.forall_mem_cons.2 ⟨ok rfl, isNone⟩
  | @const env n t i s j f c u g b h _ _ hc _ _ =>
    have hvalue := hconst n t i (List.mem_singleton.2 rfl)
    exact List.forall_mem_cons.2 ⟨ok (by simp [Node.isUnsupported, hvalue]), hc.supported⟩
  | assignSlot _ _ hc _ _ | assignStatic _ _ hc _ _ =>
    exact List.forall_mem_cons.2 ⟨ok rfl, List.forall_mem_append.2
      ⟨List.forall_mem_singleton.2 (ok rfl), hc.supported⟩⟩
  | assignCell ha his _ _ _ _ he =>
    exact List.forall_mem_cons.2 ⟨ok rfl, List.forall_mem_append.2
      ⟨List.forall_mem_cons.2 ⟨ok rfl, List.forall_mem_append.2
        ⟨ha.supported, his.supported⟩⟩, he.supported⟩⟩
  | assignField ha _ _ _ _ _ _ he =>
    exact List.forall_mem_cons.2 ⟨ok rfl, List.forall_mem_append.2
      ⟨List.forall_mem_cons.2 ⟨ok rfl, ha.supported⟩, he.supported⟩⟩
  | block hls _ ih =>
    have hinner := hls.advances.loops.trans hloops
    exact List.forall_mem_cons.2 ⟨ok rfl, ih htree hinner hls.isConstant⟩
  | @ifOnly env e y f c t g h d k he hd _ ih =>
    simp only [Stage.isTree, Node.isStmtTree, Bool.and_eq_true] at htree
    obtain ⟨⟨⟨⟨-, hblock⟩, hy⟩, -⟩, -⟩ := htree
    have hinner := ((he.advances.trans (Frame.advances_labelled _ 1)).drops hd).loops.trans hloops
    have yes := ih hy hinner fun n t v hmem => absurd hmem (Node.ne_const_of_isBlock hblock n t v)
    exact List.forall_mem_cons.2 ⟨ok rfl, List.forall_mem_append.2
      ⟨List.forall_mem_append.2 ⟨he.supported, yes⟩, isNone⟩⟩
  | @ifElse env e y n f c t g h d k d' m he hd _ hy _ ih ih' =>
    simp only [Stage.isTree, Node.isStmtTree, Bool.and_eq_true] at htree
    obtain ⟨⟨⟨⟨-, hblock⟩, htreeY⟩, helse⟩, htreeN⟩ := htree
    have hinner := ((he.advances.trans (Frame.advances_labelled _ 2)).drops hd).loops.trans hloops
    have yes := ih htreeY hinner fun n t v hmem =>
      absurd hmem (Node.ne_const_of_isBlock hblock n t v)
    have no := ih' htreeN (hy.advances.loops.trans hinner) fun n t v hmem =>
      absurd hmem (Node.ne_const_of_isElseTree helse n t v)
    exact List.forall_mem_cons.2 ⟨ok rfl, List.forall_mem_append.2
      ⟨List.forall_mem_append.2 ⟨he.supported, yes⟩, no⟩⟩
  | breakLoop => exact List.forall_mem_singleton.2 (ok rfl)
  | continueLoop hl =>
    rw [hloops] at hl
    cases hl
  | ret hc _ _ => exact List.forall_mem_cons.2 ⟨ok rfl, hc.supported⟩
  | call hc => exact hc.supported
  | noMembers => exact List.forall_mem_nil _
  | @member env m ms f c g d h hm _ ih ih' =>
    simp only [Stage.isTree, Node.areStmtTrees, Bool.and_eq_true] at htree
    have first := ih htree.1.2 hloops fun n t v hmem =>
      hconst n t v (List.mem_singleton.1 hmem ▸ List.mem_cons_self ..)
    have rest := ih' htree.2 (hm.advances.loops.trans hloops) fun n t v hmem =>
      hconst n t v (List.mem_cons_of_mem _ hmem)
    exact List.forall_mem_append.2 ⟨first, rest⟩

theorem MethodOf.supported {globals : List Symbol} {d : Node} {m : Code}
    (h : MethodOf globals d m) (hd : d.isDeclTree) : ∀ m ∈ d.parts, m.Supported := by
  cases h with
  | @intro n ps r b type body _ hbody =>
    cases hbody with
    | intro hparams hb _ _ =>
      simp only [Node.isDeclTree, Bool.and_eq_true] at hd
      exact List.forall_mem_cons.2 ⟨fun _ => rfl, hb.supported hd.2 hparams.advances.loops
        fun n t v hmem => absurd hmem (Node.ne_const_of_isBlock hd.1.2 n t v)⟩

theorem Initialised.supported {globals : List Symbol} {items : List (Symbol × Node)}
    (h : Initialised globals items f c g) :
    ∀ item ∈ items, ∀ m ∈ (Gen.initOf item.2).parts, m.Supported := by
  induction h with
  | nil => exact List.forall_mem_nil _
  | cons hc _ _ _ ih => exact List.forall_mem_cons.2 ⟨hc.supported, ih⟩

/-- Where names are declared once, every variable is a field, and its initial value is kept. -/
theorem Fields.keeps_var {ds : List Node} (hnames : (topNames ds).Nodup) {ds' : List Node}
    {fs : Code} {items : List (Symbol × Node)} (h : Fields (globalSymbols ds) ds' fs items)
    (hds' : ds' ⊆ ds) {t : Node} (hvar : .var n t i ∈ ds') (hi : i.truthy) :
    ∃ s, (s, .var n t i) ∈ items := by
  induction h with
  | nil => cases hvar
  | @field d ds' x s o u fs items _ _ _ _ _ ih =>
    rw [List.cons_subset] at hds'
    rcases List.mem_cons.1 hvar with rfl | hvar
    · exact ⟨s, List.mem_append_left _ (by simp [Gen.initOf, hi])⟩
    · obtain ⟨s', hs'⟩ := ih hds'.2 hvar
      exact ⟨s', List.mem_append_right _ hs'⟩
  | skip hno _ ih =>
    rw [List.cons_subset] at hds'
    rcases List.mem_cons.1 hvar with rfl | hvar
    · exact absurd rfl (hno n _ true rfl (find?_var hnames hds'.1))
    · exact ih hds'.2 hvar

/-- A variable is typed before there is a method, where no expression has code.  So its type is
written, or it has no initial value. -/
theorem Gen.declareGlobal_untyped {other : Visitor} {ctx : Context}
    (hctx : ctx.Bare) (hi : i.isExprTree) {w v : Workspace} {u : Unit} :
    ¬ Yields (Gen.declareGlobal other ctx (.var n .none i)) w u v := by
  intro h
  simp only [Gen.declareGlobal, Gen.globalContext, Act.yields_bind, Act.yields_get,
    Act.yields_pure, show Node.none.truthy = false from rfl, Bool.false_eq_true, if_false,
    pure_bind, Node.isNone, Bool.true_and, if_pos (Node.truthy_of_isExprTree hi), Gen.exprType] at h
  obtain ⟨_, _, -, _, w₁, ⟨rfl, rfl⟩, _, _, ⟨r, _, h, _⟩, _⟩ := h
  have bare : Context.Bare ⟨w₁.globals :: ctx.scopes.tail, ctx.missing⟩ := hctx
  exact Gen.not_yields_expr_bare bare hi h

/-- An action that is run for each item is run for every one of them. -/
theorem Act.exists_yields_of_mem {σ α : Type} {k : α → Act σ PUnit} {a : α} :
    ∀ {as : List α} {s t : σ} {u : PUnit}, Yields (as.forM k) s u t → a ∈ as →
      ∃ s' t', Yields (k a) s' ⟨⟩ t'
  | b :: as, s, t, u, h, ha => by
    obtain ⟨r, hb, has⟩ := Act.yields_forM_cons.1 h
    rcases List.mem_cons.1 ha with rfl | ha
    · exact ⟨s, r, hb⟩
    · exact Act.exists_yields_of_mem has ha

theorem Gen.declarations_typed {other : Visitor} {ds : List Node}
    {w : Workspace} {u : Unit} (h : Yields (Gen.declarations other ds) .initial u w)
    (hvar : .var n .none i ∈ ds) : i.isExprTree = false := by
  simp only [Gen.declarations, Gen.prologue, Act.yields_bind] at h
  obtain ⟨_, _, ⟨_, _, h, -⟩, -⟩ := h
  obtain ⟨v, v', hdeclare⟩ := Act.exists_yields_of_mem h hvar
  by_contra hi
  have bare : Context.outermost.Bare := rfl
  exact Gen.declareGlobal_untyped bare (by simpa using hi) hdeclare

/-- A program that is generated has no constant and no variable without a type at its top level,
and no function or initial value of it has a part without code, however deep it stands. -/
theorem parts_supported {ds : List Node} {w : Workspace} (hds : (Node.program ds).isProgram)
    (hspelled : ∀ d ∈ ds, ∀ m ∈ d.parts, m.isSpelled) (hnames : (topNames ds).Nodup)
    (hgen : Gen.run (.program ds) = (.ok (), w)) :
    (∀ d ∈ ds, d.isConst = false) ∧ (∀ n i, .var n .none i ∉ ds) ∧
      ∀ d ∈ ds, ∀ m ∈ d.parts, m.isUnsupported = false := by
  obtain ⟨c, hcode, -⟩ := Gen.run_compiled hds hgen
  have tree {d : Node} (hd : d ∈ ds) : d.isDeclTree := List.all_eq_true.1 hds d hd
  have initial {n : String} {t i : Node} (hvar : .var n t i ∈ ds) : i = .none ∨ i.isExprTree := by
    have htree := tree hvar
    simp only [Node.isDeclTree, Bool.and_eq_true, Bool.or_eq_true, Node.isNone_iff] at htree
    exact htree.2
  cases hcode with
  | @intro fs items init ms hconst hfs hinit hms =>
      refine ⟨hconst, fun n i hvar => ?_, fun d hd m hm => ?_⟩
      · have hnone : i = .none := by
          rcases Gen.run_cases hgen with ⟨f, hf, -⟩ | ⟨v, hdecls, -⟩
          · cases hf
          · exact (initial hvar).resolve_right (by simp [Gen.declarations_typed hdecls hvar])
        simpa [hnone, Node.isSpelled, Node.isNone] using
          hspelled _ hvar _ (List.mem_cons_self ..)
      · refine (?_ : ∀ m ∈ d.parts, m.Supported) m hm (hspelled d hd m hm)
        have ok {m : Node} (hm : m.isUnsupported = false) : m.Supported := fun _ => hm
        cases d with
        | func n ps r b =>
            have hmem : .func n ps r b ∈ ds.filter Node.isFunc := List.mem_filter.2 ⟨hd, rfl⟩
            obtain ⟨m, -, hm⟩ : ∃ m ∈ ms, MethodOf (globalSymbols ds) (.func n ps r b) m :=
              exists_of_mem_right hms.flip hmem
            exact hm.supported (tree hd)
        | var n t i =>
            refine List.forall_mem_cons.2 ⟨ok rfl, ?_⟩
            rcases initial hd with rfl | hi
            · exact List.forall_mem_singleton.2 (ok rfl)
            · obtain ⟨s, hs⟩ := hfs.keeps_var hnames (List.Subset.refl _) hd
                (Node.truthy_of_isExprTree hi)
              cases hinit with
              | intro hc => exact hc.supported _ hs
        | const n t i => cases hconst _ hd
        | method r t f | structType | interfaceType =>
            exact List.forall_mem_singleton.2 (ok rfl)
        | _ => cases tree hd

/-- A program with most of what has code. -/
def supportedProgram : List Node :=
  [.var "g" .intType (.binary "+" (.intLit (.int 1)) (.intLit (.int 2))),
   .func "main" [] .voidType (.block [
     .const "k" .none (.intLit (.int 3)),
     .var "a" .none (.arrayLit [.intLit (.int 2)] .intType
       (.list [.intLit (.int 4), .id "k"])),
     .ifElse (.binary "<" (.cell (.id "a") [.intLit (.int 0)]) (.id "g"))
       (.block [.assign (.cell (.id "a") [.intLit (.int 1)]) (.id "g"), .ret .none])
       (.block [.call "putInt" [.id "g"]])])]

theorem parts_supported_sample :
    (Gen.run (.program supportedProgram)).1.isOk ∧
      (∀ n i, .var n .none i ∉ supportedProgram) ∧
      ∀ d ∈ supportedProgram, ∀ m ∈ d.parts, m.isUnsupported = false := by
  have hgen : (Gen.run (.program supportedProgram)).1.isOk := by decide +kernel
  exact ⟨hgen, (parts_supported (by decide) (by decide) (by decide)
    (Gen.run_eq_of_isOk hgen)).2⟩

end MiniGoc
