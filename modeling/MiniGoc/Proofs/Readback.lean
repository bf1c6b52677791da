import MiniGoc.Proofs.Printing

/-!
# The text of a program determines it

`Term.read` reads nodes from terms.  It gives back the node whose term it reads (`Node.read_term`),
with one exception: a variable with a type or an initialiser that is a name has the same term in
both cases, and is read with an initialiser (`Node.leveled`).  Numbers are read as texts where
their role keeps the spelling, so it does not matter that both are written alike.

The words of a program are plain, so its text has one term (`Term.text_inj`), and its term one
program up to the exception.  Floating point operands are left out: their words are digits that
have to be read back as numbers.
-/

namespace MiniGoc

namespace Node

/-! ## Rewriting nodes -/

mutual

/-- Applies a function to all nodes in a node, to the parts of a node before the node. -/
def rewrite (f : Node → Node) : Node → Node
  | list xs => f (list (rewriteAll f xs))
  | pair n v => f (pair n (v.rewrite f))
  | program ds => f (program (rewriteAll f ds))
  | param n t => f (param n (t.rewrite f))
  | var n t i => f (var n (t.rewrite f) (i.rewrite f))
  | const n t i => f (const n (t.rewrite f) (i.rewrite f))
  | func n ps r b => f (func n (rewriteAll f ps) (r.rewrite f) (b.rewrite f))
  | method x t g => f (method x (t.rewrite f) (g.rewrite f))
  | prototype n ps r => f (prototype n (rewriteAll f ps) (r.rewrite f))
  | arrayType ds e => f (arrayType (rewriteAll f ds) (e.rewrite f))
  | interfaceType n ms => f (interfaceType n (rewriteAll f ms))
  | structType n es ms is => f (structType n (rewriteAll f es) (rewriteAll f ms) (rewriteAll f is))
  | funcType ps r => f (funcType (rewriteAll f ps) (r.rewrite f))
  | checkedFuncType ps r => f (checkedFuncType (rewriteAll f ps) (r.rewrite f))
  | symbol n t => f (symbol n (t.rewrite f))
  | block ss => f (block (rewriteAll f ss))
  | assign l e => f (assign (l.rewrite f) (e.rewrite f))
  | ifElse c y n => f (ifElse (c.rewrite f) (y.rewrite f) (n.rewrite f))
  | forBasic c b => f (forBasic (c.rewrite f) (b.rewrite f))
  | forStep i c u b => f (forStep (i.rewrite f) (c.rewrite f) (u.rewrite f) (b.rewrite f))
  | forEach i v a b => f (forEach (i.rewrite f) (v.rewrite f) (a.rewrite f) (b.rewrite f))
  | ret e => f (ret (e.rewrite f))
  | cell a is => f (cell (a.rewrite f) (rewriteAll f is))
  | field r n => f (field (r.rewrite f) n)
  | binary op l r => f (binary op (l.rewrite f) (r.rewrite f))
  | unary op e => f (unary op (e.rewrite f))
  | call n as => f (call n (rewriteAll f as))
  | methodCall r n as => f (methodCall (r.rewrite f) n (rewriteAll f as))
  | intLit v => f (intLit (v.rewrite f))
  | floatLit v => f (floatLit (v.rewrite f))
  | stringLit v => f (stringLit (v.rewrite f))
  | boolLit v => f (boolLit (v.rewrite f))
  | arrayLit ds e v => f (arrayLit (rewriteAll f ds) (e.rewrite f) (v.rewrite f))
  | structLit n es => f (structLit n (rewriteAll f es))
  | n => f n

/-- Applies a function to all nodes in nodes. -/
def rewriteAll (f : Node → Node) : List Node → List Node
  | [] => []
  | n :: ns => n.rewrite f :: rewriteAll f ns

end

attribute [local simp] rewrite rewriteAll

/-- A variable that has a name for its type and no initialiser, with the name for its initialiser
and no type. -/
def untyped : Node → Node
  | var x (id y) none => var x none (id y)
  | n => n

/-- A node with all such variables replaced. -/
def leveled (n : Node) : Node := n.rewrite untyped

@[simp] theorem rewriteAll_eq (f : Node → Node) (ns : List Node) :
    rewriteAll f ns = ns.map (rewrite f) := by
  induction ns with
  | nil => rw [rewriteAll]; rfl
  | cons n ns ih => rw [rewriteAll, ih, List.map_cons]

end Node

/-! ## Reading nodes from terms -/

namespace Term

/-- The node of a word: nothing, a type or the literal `Nil`, or else a text. -/
def ofWord (s : String) : Node :=
  if s = "None" then .none
  else if s = "IntType" then .intType
  else if s = "FloatType" then .floatType
  else if s = "BoolType" then .boolType
  else if s = "StringType" then .stringType
  else if s = "VoidType" then .voidType
  else if s = "Nil" then .nilLit
  else .text s

/-- The word of a node that is read from a word. -/
def toWord : Node → String
  | .text s => s
  | .none => "None"
  | .intType => "IntType"
  | .floatType => "FloatType"
  | .boolType => "BoolType"
  | .stringType => "StringType"
  | .voidType => "VoidType"
  | .nilLit => "Nil"
  | _ => ""

@[simp] theorem toWord_ofWord (s : String) : toWord (ofWord s) = s := by
  unfold ofWord
  split_ifs <;> simp_all [toWord]

/-- Whether a node is a type and nothing else. -/
def isType : Node → Bool
  | .intType | .floatType | .boolType | .stringType | .voidType | .arrayType .. => true
  | _ => false

/-- The integer that is written with the characters. -/
def toInt : List Char → Int
  | '-' :: cs => -(Nat.ofDigitChars 10 cs 0 : Int)
  | cs => Nat.ofDigitChars 10 cs 0

@[simp] def items : Node → List Node
  | .list ns => ns
  | _ => []

/-- Applies a function to one argument. -/
@[simp] def one (f : Node → Node) : List Node → Node
  | [a] => f a
  | _ => .none

/-- Applies a function to two arguments. -/
@[simp] def two (f : Node → Node → Node) : List Node → Node
  | [a, b] => f a b
  | _ => .none

/-- Applies a function to three arguments. -/
@[simp] def three (f : Node → Node → Node → Node) : List Node → Node
  | [a, b, c] => f a b c
  | _ => .none

/-- Applies a function to four arguments. -/
@[simp] def four (f : Node → Node → Node → Node → Node) : List Node → Node
  | [a, b, c, d] => f a b c d
  | _ => .none

/-- The node with a head and arguments.  The numbers in arrays are `raw`. -/
def build (raw : Bool) : Head → List Node → Node
  | .pair => two fun x n => .pair (toWord x) n
  | .program => one fun ds => .program (items ds)
  | .param => two fun x t => .param (toWord x) t
  | .var => fun
      | [x, n] => if isType n then .var (toWord x) n .none else .var (toWord x) .none n
      | ns => three (fun x t i => .var (toWord x) t i) ns
  | .const => two fun x i => .const (toWord x) .none i
  | .func => four fun x ps t b => .func (toWord x) (items ps) t b
  | .method => three fun x t f => .method (toWord x) t f
  | .prototype => three fun x ts t => .prototype (toWord x) (items ts) t
  | .arrayType => two fun t ds => .arrayType (items ds) t
  | .interfaceType => two fun x ms => .interfaceType (toWord x) (items ms)
  | .structType => four fun x fs ms is => .structType (toWord x) (items fs) (items ms) (items is)
  | .block => one fun ss => .block (items ss)
  | .assign => two fun l e => .assign l e
  | .ifElse => fun
      | [c, y] => .ifElse c y .none
      | ns => three (fun c y n => .ifElse c y n) ns
  | .loop => fun
      | [c, b] => .forBasic c b
      | ns => four (fun i c u b => .forStep i c u b) ns
  | .forEach => four fun i v a b => .forEach i v a b
  | .breakLoop => fun _ => .breakLoop
  | .continueLoop => fun _ => .continueLoop
  | .ret => fun
      | [] => .ret .none
      | ns => one (fun e => .ret e) ns
  | .id => one fun x => .id (toWord x)
  | .cell => two fun a is => .cell a (items is)
  | .field => two fun e x => .field e (toWord x)
  | .binary => three fun l op e => .binary (toWord op) l e
  | .unary => two fun op e => .unary (toWord op) e
  | .call => two fun x as => .call (toWord x) (items as)
  | .methodCall => three fun e x as => .methodCall e (toWord x) (items as)
  | .intLit => one fun v =>
    .intLit (if raw then .text (toWord v) else .int (toInt (toWord v).toList))
  | .floatLit => one fun v => .floatLit (.text (toWord v))
  | .stringLit => one fun v => .stringLit v
  | .boolLit => one fun v => .boolLit (.bool (toWord v == "true"))
  | .arrayLit => three fun ds t v => .arrayLit (items ds) t v
  | .structLit => two fun x es => .structLit (toWord x) (items es)

/-- Whether the numbers in arguments keep their spelling. -/
def rawBelow : Head → Bool
  | .arrayType | .arrayLit => true
  | _ => false

mutual

def read (raw : Bool) : Term → Node
  | word s => ofWord s
  | quote s => .text s
  | app h ts => build raw h (readAll (rawBelow h) ts)
  | list ts => .list (readAll raw ts)

def readAll (raw : Bool) : List Term → List Node
  | [] => []
  | t :: ts => t.read raw :: readAll raw ts

end

@[simp] theorem readAll_eq (raw : Bool) (ts : List Term) : readAll raw ts = ts.map (read raw) := by
  induction ts with
  | nil => rw [readAll]; rfl
  | cons t ts ih => rw [readAll, ih, List.map_cons]

/-! ## Words -/

theorem mem_of_not_plain {c : Char} (h : ¬ plain c = true) :
    c ∈ ['(', ')', '[', ']', ',', '"'] := by
  by_contra hc
  exact h (by simpa only [plain, decide_eq_true_eq] using hc)

theorem clean_of_spells {k : TokenKind} {p : Pattern} {s : String} (hp : k.matcher = .pattern p)
    (hnull : p.nullable = false)
    (hlacks : ['(', ')', '[', ']', ',', '"'].all (fun c => p.lacks (some c)) = true)
    (h : k.Spells s.toList) : (word s).Clean := by
  simp only [TokenKind.Spells, hp] at h
  refine .word (fun hs => ?_) fun c hc => ?_
  · rw [hs, List.map_nil, Pattern.matches_nil, hnull] at h
    cases h
  · by_contra hplain
    exact h.not_mem (List.all_eq_true.1 hlacks c (mem_of_not_plain hplain))
      (List.mem_map_of_mem hc)

theorem clean_ident {s : String} (h : TokenKind.ident.Spells s.toList) : (word s).Clean :=
  clean_of_spells rfl (by decide) (by decide) h

theorem clean_intLit {s : String} (h : TokenKind.intLit.Spells s.toList) : (word s).Clean :=
  clean_of_spells rfl (by decide) (by decide) h

theorem clean_floatLit {s : String} (h : TokenKind.floatLit.Spells s.toList) : (word s).Clean :=
  clean_of_spells rfl (by decide) (by decide) h

theorem clean_of_all {s : String} (h : (s ≠ "" ∧ s.toList.all plain = true)) : (word s).Clean :=
  .word (by simpa using h.1) (List.all_eq_true.1 h.2)

theorem clean_toString (i : Int) : (word (toString i)).Clean := by
  have hdigit {m : Nat} : ∀ c ∈ m.repr.toList, plain c = true := by
    intro c hc
    rw [Nat.toList_repr] at hc
    have hdigit := Nat.isDigit_of_mem_toDigits (by decide) (by decide) hc
    by_contra hplain
    have : ['(', ')', '[', ']', ',', '"'].all (fun c => !c.isDigit) = true := by decide
    simpa [hdigit] using List.all_eq_true.1 this c (mem_of_not_plain hplain)
  rw [Int.toString_eq_repr, Int.repr_eq_if]
  split
  · exact .word (by simp [Nat.toList_repr]) hdigit
  · refine .word (by simp) ?_
    rw [String.toList_append]
    exact List.forall_mem_append.2 ⟨List.all_eq_true.1 (by decide), hdigit⟩

theorem toInt_toString (i : Int) : toInt (toString i).toList = i := by
  rw [Int.toString_eq_repr, Int.repr_eq_if]
  split
  next h =>
    rw [Nat.toList_repr]
    unfold toInt
    split
    next cs hcs =>
      have hdigit := @Nat.isDigit_of_mem_toDigits 10 i.toNat '-' (by decide) (by decide)
        (by simp [hcs])
      simp at hdigit
    next => simp only [Nat.ofDigitChars_ten_toDigits]; omega
  next h =>
    rw [String.toList_append, Nat.toList_repr, show "-".toList = ['-'] from rfl,
      List.singleton_append, toInt, Nat.ofDigitChars_ten_toDigits]
    omega

@[simp] theorem clean_app {h : Head} {ts : List Term} : (app h ts).Clean ↔ ∀ t ∈ ts, t.Clean :=
  ⟨fun h => by cases h; assumption, .app⟩

@[simp] theorem clean_list {ts : List Term} : (list ts).Clean ↔ ∀ t ∈ ts, t.Clean :=
  ⟨fun h => by cases h; assumption, .list⟩

end Term

/-! ## Reading the term of a node -/

/-- Whether the numbers in a role keep their spelling. -/
def Role.raw : Role → Bool
  | .element | .size | .base => true
  | .list r => r.raw
  | _ => false

namespace Node

variable {decimals : Bool} {r : Role} {n : Node} {ns : List Node}

theorem clean_operator {op : String} (h : op ∈ binaryOperators ++ ["!", "-"]) :
    (Term.word op).Clean := by
  have : ∀ op ∈ binaryOperators ++ ["!", "-"], op ≠ "" ∧ op.toList.all Term.plain = true := by
    decide
  exact Term.clean_of_all (this op h)

theorem clean_term (h : n.Fits false r) : n.term.Clean := by
  induction h with
  | varBoth _ hx ht he iht ihe =>
    simp [term, ht.isNone, he.isNone, Term.clean_ident hx, iht, ihe]
  | @ifElse _ _ _ n _ _ _ _ ihc ihy ihn =>
    cases hn : n.isNone <;> simp [term, hn, ihc, ihy, ihn]
  | intType | floatType | stringType | boolType | voidType | noBranch | nil =>
    exact Term.clean_of_all (by decide)
  | @bool _ b =>
    have : (Term.word (if b then "true" else "false")).Clean := by
      cases b <;> exact Term.clean_of_all (by decide)
    simp [term, this]
  | binary hop _ _ ihl ihe => simp [term, ihl, ihe, clean_operator (List.mem_append_left _ hop)]
  | unary hop _ ih => simp [term, ih, clean_operator (List.mem_append_right _ hop)]
  | intText _ hs => simp [term, Term.clean_intLit hs]
  | floatText hs => simp [term, Term.clean_floatLit hs]
  | shortArray _ ih =>
    have hvoid : (Term.word "VoidType").Clean := Term.clean_of_all (by decide)
    simpa [term, hvoid] using ih
  | int => simpa [term] using Term.clean_toString _
  | string _ hs => simpa [term] using Term.Clean.quote hs
  | _ =>
    simp_all [term, Term.clean_ident]

theorem map_read {raw : Bool} (h : ∀ n ∈ ns, n.term.read raw = n.rewrite untyped) :
    ns.map (Term.read raw ∘ term) = ns.map (rewrite untyped) :=
  List.map_congr_left h

theorem isType_of_expr (h : n.Fits decimals .expr) : Term.isType (n.rewrite untyped) = false := by
  cases h <;> simp_all [rewrite, untyped, Term.isType]

theorem untyped_of_type (h : n.Fits decimals .type) (x : String) :
    untyped (var x (n.rewrite untyped) none) = if Term.isType (n.rewrite untyped) then
      var x (n.rewrite untyped) none else var x none (n.rewrite untyped) := by
  cases h <;> simp_all [rewrite, untyped, Term.isType]

@[simp] theorem untyped_none : untyped none = none := rfl

theorem isNone_rewrite (n : Node) : (n.rewrite untyped).isNone = n.isNone := by
  cases n with
  | var x t i =>
    rw [rewrite]
    unfold untyped
    split <;> rfl
  | _ => rfl

theorem untyped_var {x : String} {t i : Node} (h : i.isNone = false) :
    untyped (var x t i) = var x t i := by
  cases i <;> simp_all [untyped]

/-- The node that is read from the term of a node is the node again, up to variables whose type is
a name. -/
theorem read_term (h : n.Fits false r) : n.term.read r.raw = n.rewrite untyped := by
  induction h with
  | varType _ _ ht ih =>
    simp only [Role.raw] at ih
    simp [term, ht.isNone, Term.read, Term.rawBelow, Term.build, rewrite, ih, untyped_of_type ht]
  | varInit _ _ he ih =>
    simp only [Role.raw] at ih
    simp [term, he.isNone, Term.read, Term.rawBelow, Term.build, rewrite, untyped, ih,
      isType_of_expr he]
  | varBoth _ _ ht he iht ihe =>
    simp only [Role.raw] at iht ihe
    have hnone := isNone_rewrite _ ▸ he.isNone (by decide)
    simp [term, ht.isNone, he.isNone, Term.read, Term.rawBelow, Term.build, rewrite, iht, ihe,
      untyped_var hnone]
  | @ifElse _ _ _ n _ _ _ _ ihc ihy ihn =>
    simp only [Role.raw] at ihc ihy ihn
    cases hn : n.isNone with
    | true =>
      obtain rfl : n = none := by cases n <;> first | rfl | cases hn
      simp [term, Term.read, Term.rawBelow, Term.build, rewrite, untyped, ihc, ihy]
    | false =>
      simp [term, hn, Term.read, Term.rawBelow, Term.build, rewrite, untyped, ihc, ihy, ihn]
  | ret he ih =>
    simp only [Role.raw] at ih
    simp [term, he.isNone, Term.read, Term.rawBelow, Term.build, rewrite, untyped, ih]
  | intType | floatType | stringType | boolType | voidType | noBranch | nil =>
    simp [term, Term.read, Term.ofWord, rewrite, untyped]
  | shortArray _ ih =>
    simp only [Role.raw] at ih
    simp [term, Term.read, Term.rawBelow, Term.build, rewrite, untyped, map_read ih, Term.ofWord]
  | @int i =>
    have hi : Term.toInt i.repr.toList = i := Term.toInt_toString i
    simp [term, Term.read, Term.build, rewrite, untyped, Role.raw, hi]
  | intText hr =>
    have hraw : ∀ r ∈ [Role.element, .size], r.raw = true := by decide
    simp [term, Term.read, Term.build, rewrite, untyped, hraw _ hr]
  | @bool _ b => cases b <;> simp [term, Term.read, Term.build, rewrite, untyped]
  | _ =>
    -- All parts are arguments, and are read as their roles say.
    simp_all [term, Term.read, Term.rawBelow, Term.build, rewrite, untyped, map_read, Role.raw]

theorem term_rewrite (h : n.Fits decimals r) : (n.rewrite untyped).term = n.term := by
  induction h with
  | varType _ _ ht ih =>
    have hnone := isNone_rewrite _ ▸ ht.isNone (by decide)
    rw [rewrite, show rewrite untyped none = none from rfl, untyped_of_type ht]
    split <;> simp [term, ih, hnone, ht.isNone]
  | varBoth _ _ _ he iht ihe =>
    have hnone := isNone_rewrite _ ▸ he.isNone (by decide)
    simp [term, rewrite, untyped_var hnone, iht, ihe, isNone_rewrite]
  | _ => simp_all [term, rewrite, untyped, isNone_rewrite]

/-- Two nodes have one text just if they are the same up to variables whose type is a name. -/
theorem text_eq_iff {m : Node} (hn : n.Fits false r) (hm : m.Fits false r) :
    n.term.text = m.term.text ↔ n.leveled = m.leveled := by
  constructor
  · intro h
    rw [leveled, leveled, ← read_term hn, ← read_term hm,
      Term.text_inj (clean_term hn) (clean_term hm) h]
  · intro h
    rw [← term_rewrite hn, ← term_rewrite hm]
    exact congrArg (fun n => n.term.text) h

end Node

namespace SyntaxTree

/-- The programs of two sources without floating point operands have texts, and the texts are the
same just if the programs are, up to variables that have a name for their type in one of them and
for their initialiser in the other. -/
theorem render_determines {source source' : String} {t t' : SyntaxTree} {n n' : Node}
    (ht : parse source = .ok t) (hn : t.toNode = .ok n) (hf : t.hasFloatOperand = false)
    (ht' : parse source' = .ok t') (hn' : t'.toNode = .ok n') (hf' : t'.hasFloatOperand = false) :
    ∃ s s', n.render = .ok s ∧ n'.render = .ok s' ∧ (s = s' ↔ n.leveled = n'.leveled) := by
  have hfits : n.Fits false .program := hf ▸ fits_of_source ht hn
  have hfits' : n'.Fits false .program := hf' ▸ fits_of_source ht' hn'
  exact ⟨_, _, Node.render_eq hfits, Node.render_eq hfits', Node.text_eq_iff hfits hfits'⟩

/-- The exception: `y` is the type of the variable in one source, and its initialiser in the
other. -/
theorem render_determines_named :
    ∃ t t' n n', parse "var x y; const s = \"],\\\"(\";" = .ok t ∧ t.toNode = .ok n ∧
      t.hasFloatOperand = false ∧ parse "var x = y; const s = \"],\\\"(\";" = .ok t' ∧
      t'.toNode = .ok n' ∧ t'.hasFloatOperand = false ∧ n.render = n'.render ∧
      n.leveled = n'.leveled := by
  have hrun {source : String} (h : ((parse source).toOption.bind fun t => t.toNode.toOption.map
      fun n => (t.hasFloatOperand, n.render.toOption)) =
        some (false, some "Program([VarDecl(x,Id(y)),ConstDecl(s,StringLiteral(\"],\\\"(\"))])")) :=
    exists_built h
  obtain ⟨t, n, ht, hn, h⟩ := @hrun "var x y; const s = \"],\\\"(\";" (by decide +kernel)
  obtain ⟨t', n', ht', hn', h'⟩ := @hrun "var x = y; const s = \"],\\\"(\";" (by decide +kernel)
  obtain ⟨hf, hs⟩ := Prod.mk.inj h
  obtain ⟨hf', hs'⟩ := Prod.mk.inj h'
  obtain ⟨s, s', hr, hr', hiff⟩ := render_determines ht hn hf ht' hn' hf'
  have heq : s = s' := by
    rw [hr] at hs
    rw [hr'] at hs'
    exact Option.some.inj (hs.trans hs'.symm)
  exact ⟨t, t', n, n', ht, hn, hf, ht', hn', hf', by rw [hr, hr', heq], hiff.1 heq⟩

end SyntaxTree

end MiniGoc
