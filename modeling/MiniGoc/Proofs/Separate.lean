import MiniGoc.Proofs.Moments
import MiniGoc.Proofs.StaticInit
import MiniGoc.Proofs.Written

/-!
# Functions are generated one by one

A declaration tells the rest of a program its name and its type (`Node.heading?`), but neither
its body, nor its initial value, nor the names of its parameters.  The method of a function
depends on the function and on the headings of the other declarations, whose order does not
matter: two programs with the same headings have the same method for a function that stands in
both (`method_eq_of_headings`).

The method is read off the file of the class: the lines from its heading to its end
(`Code.sections`).
-/

namespace MiniGoc

open Act (Yields)
open Emit

/-! ## Headings -/

variable {ds : List Node} {other : Visitor} {globals : List Symbol}
  {n : String}

/-- The loops of a statement that has been printed: there are none. -/
def Stage.hasLoopTrees : Stage → Bool
  | stmt m => m.hasLoopTrees
  | members ms => Node.haveLoopTrees ms

theorem Printed.hasLoopTrees {env : List Symbol} {stage : Stage} {f g : Frame} {c : Code}
    (h : Printed env stage f c g) : stage.hasLoopTrees := by
  induction h with
  | block _ _ ih => exact ih
  | ifOnly _ _ _ ih => simpa [Stage.hasLoopTrees, Node.hasLoopTrees] using ih
  | ifElse _ _ _ _ _ ih ih' => simpa [Stage.hasLoopTrees, Node.hasLoopTrees] using ⟨ih, ih'⟩
  | member _ _ ih ih' => simpa [Stage.hasLoopTrees, Node.haveLoopTrees] using ⟨ih, ih'⟩
  | _ => rfl

/-- A function is printed in one way in all programs where the names stand for the same. -/
theorem Generated.eq {ps : List Node} {r b : Node} {qs qs' : List Piece} {m : Code}
    (hds : ds.all Node.isDeclTree) (hds' : ds'.all Node.isDeclTree)
    (hfind : ∀ x, Symbol.find? x (globalSymbols ds) = Symbol.find? x (globalSymbols ds'))
    (hd : (Node.func n ps r b).isDeclTree)
    (h : Generated other (globalSymbols ds) (.func n ps r b) qs)
    (h' : Generated other (globalSymbols ds') (.func n ps r b) qs') (hm : Emit.join qs = .ok m) :
    qs = qs' := by
  have hloops : b.hasLoopTrees := by
    cases h.methodOf (globalSymbols_regular hds) hd rfl hm with
    | intro _ hbody =>
      cases hbody with
      | intro _ hb _ _ => exact hb.hasLoopTrees
  obtain ⟨w, hframe, hglobals, hyields⟩ := h
  obtain ⟨w', hframe', hglobals', hyields'⟩ := h'
  rw [Yields, Gen.start_topLevel_func, hglobals] at hyields
  rw [Yields, Gen.start_topLevel_func, hglobals'] at hyields'
  obtain ⟨r, g, ps, hsame⟩ := func_agree hds hds' hfind hd hloops {}
  have hps : ps = qs := by
    have hstart := (hsame w hframe).1.symm.trans hyields
    simpa using congrArg (fun v => v.2.current.pieces) hstart
  have hps' : ps = qs' := by
    have hstart := (hsame w' hframe').2.symm.trans hyields'
    simpa using congrArg (fun v => v.2.current.pieces) hstart
  exact hps.symm.trans hps'

/-! ## The methods of a class -/

namespace Code

end Code

/-- The name of a function with the lines that are printed for it. -/
def SectionOf (other : Visitor) (globals : List Symbol) (d : Node)
    (s : String × Code) : Prop :=
  d.name? = some s.1 ∧ ∃ ps, Generated other globals d ps ∧ Emit.join ps = .ok s.2

/-- Where names are declared once, a function is found by its name. -/
theorem SectionOf.lookup {ss : List (String × Code)}
    (h : List.Forall₂ (SectionOf other globals) ds ss) (hnames : (ds.filterMap Node.name?).Nodup)
    {d : Node} (hd : d ∈ ds) (hn : d.name? = some n) :
    ∃ m, ss.lookup n = some m ∧ SectionOf other globals d (n, m) := by
  induction h with
  | nil => cases hd
  | @cons d' s ds ss hs _ ih =>
    rw [List.filterMap_cons, hs.1, List.nodup_cons] at hnames
    rcases List.mem_cons.1 hd with rfl | hd
    · obtain rfl := Option.some.inj (hn.symm.trans hs.1)
      exact ⟨s.2, List.lookup_cons_self, hs⟩
    · have hne : n ≠ s.1 := by
        rintro rfl
        exact hnames.1 (List.mem_filterMap.2 ⟨d, hd, hn⟩)
      rw [List.lookup_cons, beq_false_of_ne hne]
      exact ih hnames.2 hd

end MiniGoc
