import MiniGoc.Node.Printer
import MiniGoc.Proofs.Roles
import MiniGoc.Proofs.Terms

/-!
# Nodes as terms

A node of a program has a term (`Node.term`): its kind is the head and its parts are the
arguments.  Optional parts that are left out are no arguments, and the two kinds of loops share a
head.  The text of a node is the text of its term (`Node.render_eq`), so a node that fits a role
has a text.
-/

namespace MiniGoc

namespace Node

mutual

/-- The term that is written for a node of a program. -/
def term : Node → Term
  | none => .word "None"
  | text s => .word s
  | int i => .word (toString i)
  | float x => .word x.render
  | list ns => .list (termAll ns)
  | pair x n => .app .pair [.word x, n.term]
  | program ds => .app .program [.list (termAll ds)]
  | param x t => .app .param [.word x, t.term]
  | var x t i => .app .var (.word x ::
      ((if t.isNone then [] else [t.term]) ++ if i.isNone then [] else [i.term]))
  | const x t i => .app .const (.word x :: ((if t.isNone then [] else [t.term]) ++ [i.term]))
  | func x ps t b => .app .func [.word x, .list (termAll ps), t.term, b.term]
  | method x t f => .app .method [.word x, t.term, f.term]
  | prototype x ts t => .app .prototype [.word x, .list (termAll ts), t.term]
  | intType => .word "IntType"
  | floatType => .word "FloatType"
  | boolType => .word "BoolType"
  | stringType => .word "StringType"
  | voidType => .word "VoidType"
  | arrayType ds t => .app .arrayType [t.term, .list (termAll ds)]
  | interfaceType x ms => .app .interfaceType [.word x, .list (termAll ms)]
  | structType x fs ms is =>
    .app .structType [.word x, .list (termAll fs), .list (termAll ms), .list (termAll is)]
  | block ss => .app .block [.list (termAll ss)]
  | assign l e => .app .assign [l.term, e.term]
  | ifElse c y n => .app .ifElse (c.term :: y.term :: if n.isNone then [] else [n.term])
  | forBasic c b => .app .loop [c.term, b.term]
  | forStep i c u b => .app .loop [i.term, c.term, u.term, b.term]
  | forEach i v a b => .app .forEach [i.term, v.term, a.term, b.term]
  | breakLoop => .app .breakLoop []
  | continueLoop => .app .continueLoop []
  | ret e => .app .ret (if e.isNone then [] else [e.term])
  | id x => .app .id [.word x]
  | cell a is => .app .cell [a.term, .list (termAll is)]
  | field e x => .app .field [e.term, .word x]
  | binary op l e => .app .binary [l.term, .word op, e.term]
  | unary op e => .app .unary [.word op, e.term]
  | call x as => .app .call [.word x, .list (termAll as)]
  | methodCall e x as => .app .methodCall [e.term, .word x, .list (termAll as)]
  | intLit v => .app .intLit [v.term]
  | floatLit v => .app .floatLit [v.term]
  | stringLit (text s) => .app .stringLit [.quote s]
  | boolLit (bool b) => .app .boolLit [.word (if b then "true" else "false")]
  | arrayLit ds t v => .app .arrayLit [.list (termAll ds), t.term, v.term]
  | structLit x es => .app .structLit [.word x, .list (termAll es)]
  | nilLit => .word "Nil"
  | _ => .word ""

def termAll : List Node → List Term
  | [] => []
  | n :: ns => n.term :: termAll ns

end

attribute [local simp] term termAll

@[simp] theorem termAll_eq (ns : List Node) : termAll ns = ns.map term := by
  induction ns with
  | nil => rw [termAll]; rfl
  | cons n ns ih => rw [termAll, ih, List.map_cons]

/-! ## The printer writes the term -/

@[simp] theorem isNone_none : none.isNone = true := rfl

variable {decimals : Bool} {r : Role} {n : Node} {ns : List Node}

theorem Fits.truthy (h : n.Fits decimals r) (hr : r ∈ [.type, .expr]) : n.truthy = true := by
  cases h with
  | list => simp at hr
  | noBranch => simp at hr
  | _ => rfl

theorem Fits.isNone (h : n.Fits decimals r) (hr : r ∈ [.type, .expr]) : n.isNone = false := by
  have := h.truthy hr
  cases n <;> first | rfl | cases this

theorem renderAll_eq (h : ∀ n ∈ ns, n.render = .ok n.term.text) :
    renderAll ns = .ok (ns.map fun n => n.term.text) := by
  induction ns with
  | nil => rw [renderAll]; rfl
  | cons n ns ih =>
    obtain ⟨hn, hns⟩ := List.forall_mem_cons.1 h
    simp [renderAll, hn, ih hns, bind, Except.bind, pure, Except.pure]

@[simp] theorem commas_nil : commas [] = "" := by decide

theorem toList_commas (ns : List Node) :
    (commas (ns.map fun n => n.term.text)).toList = Term.charsAll (ns.map term) := by
  simp [commas, String.toList_intercalate, Term.charsAll_eq, Function.comp_def]

theorem ok_text {s : String} {t : Term} (h : s.toList = t.chars) :
    (.ok s : Except Fault String) = .ok t.text := by
  rw [Term.eq_text h]

theorem render_eq (h : n.Fits decimals r) : n.render = .ok n.term.text := by
  induction h with
  | varType _ _ ht ih =>
    simp only [render, ht.truthy (by decide), isNone_none, ih, bind, Except.bind, pure, Except.pure,
      if_true]
    exact ok_text (by simp [term, Term.chars, Term.charsAll, Term.charsMore, Head.text, ht.isNone])
  | varInit _ _ he ih =>
    simp only [render, truthy, he.isNone (by decide), ih, bind, Except.bind, pure, Except.pure]
    exact ok_text (by simp [term, Term.chars, Term.charsAll, Term.charsMore, Head.text, he.isNone])
  | varBoth _ _ ht he iht ihe =>
    simp only [render, ht.truthy (by decide), he.isNone (by decide), iht, ihe, bind, Except.bind,
      pure, Except.pure, if_true]
    exact ok_text (by simp [term, Term.chars, Term.charsAll, Term.charsMore, Head.text, ht.isNone,
      he.isNone])
  | @ifElse _ _ _ n _ _ _ _ ihc ihy ihn =>
    simp only [render, ihc, ihy, ihn, bind, Except.bind, pure, Except.pure]
    cases hn : n.isNone <;>
      exact ok_text (by simp [term, Term.chars, Term.charsAll, Term.charsMore, Head.text, hn])
  | ret he ih =>
    simp only [render, he.isNone (by decide), ih, bind, Except.bind, pure, Except.pure]
    exact ok_text (by simp [term, Term.chars, Term.charsAll, Head.text, Term.charsMore, he.isNone])
  | @bool _ b =>
    have hb : lower (boolText b) = if b then "true" else "false" := by cases b <;> decide
    simp only [render, hb, bind, Except.bind, pure, Except.pure]
    exact ok_text (by simp [term, Term.chars, Term.charsAll, Term.charsMore, Head.text])
  | _ =>
    -- The parts of all other nodes are always written.
    simp (disch := assumption) only [render, renderAll_eq, bind, Except.bind, pure, Except.pure, *]
    exact ok_text (by simp [term, toList_commas, Term.chars, Term.charsAll, Term.charsMore,
      Head.text])

end Node

end MiniGoc
