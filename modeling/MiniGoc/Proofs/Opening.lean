import MiniGoc.Proofs.Program

/-!
# Where methods start

What is done before a method is printed, and its first lines, are named here
(`Gen.prologue`, `Gen.openFunc`), with what they leave.  A program and a function are put together
from them (`Gen.program_eq`, `Gen.func_eq`).
-/

namespace MiniGoc

open Act (Yields)
open Emit

mutual

/-- Loops start with a statement or go over an expression, as they are written. -/
def Node.hasLoopTrees : Node → Bool
  | block ms => haveLoopTrees ms
  | ifElse _ y n => hasLoopTrees y && hasLoopTrees n
  | forStep i _ _ _ => isStmtTree i && hasLoopTrees i
  | forEach _ _ a _ => isExprTree a
  | _ => true

/-- The same for statements in a row. -/
def Node.haveLoopTrees : List Node → Bool
  | [] => true
  | m :: ms => hasLoopTrees m && haveLoopTrees ms

end

/-- The loops of a declaration start with a statement or go over an expression. -/
def Node.hasLoopTreesInside : Node → Bool
  | func _ _ _ b => b.hasLoopTrees
  | _ => true

/-- What is done for a program before any method is printed.  It gives back the fields that
have an initialiser. -/
def Gen.prologue (other : Visitor) (ctx : Context) (ds : List Node) :
    Gen (List (Symbol × Node)) := do
  ds.forM (Gen.declareGlobal other ctx)
  ds.forM Gen.checkReceiver
  Gen.print (prolog mainClass "java.lang.Object" false)
  Gen.globalFields ctx ds

/-- The generator goes through a program in this order: what comes before the methods, the
method that initialises the fields, and the functions. -/
theorem Gen.program_eq (other : Visitor) (ctx : Context) (ds : List Node) :
    Gen.program other ctx ds = (do
      ctx.need .scopes
      let globals ← Act.ofOption .outOfRange ctx.scopes.head?
      modify fun w => { w with globals := globals }
      let items ← Gen.prologue other ctx ds
      Gen.staticInit other items (← get).globals
      ds.forM (Gen.topLevel other)
      Gen.writeFile
      Gen.printPiece none) := by
  simp only [Gen.program, Gen.prologue, bind_assoc]

/-- The workspace in which a program is started. -/
def Workspace.initial : Workspace :=
  { current := ⟨Listing.fileName mainClass, []⟩, globals := Symbol.builtins }

/-- What surrounds a program. -/
def Context.outermost : Context := ⟨[Symbol.builtins], [.frame, .listing]⟩

variable {ds : List Node} {w : Workspace}

theorem Gen.prologue_yields {other : Visitor} (hds : ds.all Node.isDeclTree)
    {items : List (Symbol × Node)}
    (h : Yields (Gen.prologue other .outermost ds) .initial items w) :
    w.globals = globalSymbols ds ∧ ∃ fs, Fields (globalSymbols ds) ds fs items ∧
      w = Workspace.extend { Workspace.initial with globals := globalSymbols ds } {}
        (some (prolog mainClass "java.lang.Object" false) :: linePieces fs) := by
  simp only [Gen.prologue, Act.yields_bind, Gen.yields_print] at h
  obtain ⟨_, _, h₁, _, _, h₂, _, _, rfl, h₃⟩ := h
  have bare : Context.outermost.Bare := rfl
  obtain ⟨rfl, -⟩ := Gen.declareGlobals_yields bare hds h₁
  obtain rfl := Gen.checkReceivers_yields h₂
  obtain ⟨fs, rfl, hfs⟩ := Gen.globalFields_yields bare rfl h₃
  exact ⟨rfl, fs, hfs, rfl⟩

end MiniGoc
