import MiniGoc.Proofs.Opening

/-!
# The steps of a run

A program is generated in three steps: its declarations (`Gen.declarations`), its file
(`Workspace.write`), and a last piece that is no line (`Gen.run_eq`).  The run may end at each of
the first two.

Among the declarations, the functions are printed one after the other, each with the names at
the top level and a frame of its own (`Generated`).  What is printed for a program consists of
lines that are always there and of the pieces of its functions (`Gen.declarations_generated`).
-/

namespace MiniGoc

open Act (Yields)
open Emit

/-! ## The file of a program -/

/-- What is generated before the file of the program is written. -/
def Gen.declarations (other : Visitor) (ds : List Node) : Gen Unit := do
  let items ← Gen.prologue other .outermost ds
  Gen.staticInit other items (← get).globals
  ds.forM (Gen.topLevel other)

/-- The file of the program: it is emptied, and written if all pieces that were printed are
lines. -/
def Workspace.write (w : Workspace) : Except Fault Unit × Workspace :=
  match Emit.join w.current.pieces with
  | .ok c => (.ok (), { w with files := Gen.setFile w.current.file c.render w.files })
  | .error f => (.error f, { w with files := Gen.setFile w.current.file "" w.files })

theorem Gen.start_writeFile (w : Workspace) : Gen.writeFile.start w = w.write := by
  have start_join (ps : List Piece) (v : Workspace) :
      (Gen.join ps).start v = (Emit.join ps, v) := by
    rw [Gen.join]
    cases Emit.join ps <;> rfl
  show (Gen.join w.current.pieces >>= _).start _ = _
  rw [Act.start_bind, start_join, Workspace.write]
  rcases Emit.join w.current.pieces with f | c
  · rfl
  · show (Except.ok (), _) = _
    simp [Gen.setFile_setFile]

/-- A program is generated in three steps: its declarations, its file, and a last piece that is
no line. -/
theorem Gen.run_program (ds : List Node) :
    Gen.run (.program ds) = (do
      Gen.declarations (Gen.visit 63) ds
      Gen.writeFile
      Gen.printPiece none : Gen Unit).start .initial := by
  have hrun : Gen.run (.program ds) = (do
      let _ ← Gen.visit.nothing (Gen.program (Gen.visit 63) .outermost ds)
      pure ()).start .initial := rfl
  rw [hrun, Gen.program_eq]
  simp only [Gen.visit.nothing, Gen.declarations, bind_assoc, pure_bind, bind_pure_unit]
  rfl

/-- What the generator leaves behind: it stops at a declaration, or it comes to the file. -/
theorem Gen.run_eq (ds : List Node) :
    Gen.run (.program ds) = match (Gen.declarations (Gen.visit 63) ds).start .initial with
      | (.error f, v) => (.error f, v)
      | (.ok _, v) => match v.write with
        | (.error f, v) => (.error f, v)
        | (.ok _, v) => (.ok (), v.extend v.frame [none]) := by
  rw [Gen.run_program, Act.start_bind]
  rcases (Gen.declarations (Gen.visit 63) ds).start .initial with ⟨f | u, v⟩
  · rfl
  · show (Gen.writeFile >>= _).start v = _
    rw [Act.start_bind, Gen.start_writeFile]
    simp only
    rcases v.write with ⟨f | u, v⟩ <;> rfl

/-- A run ends at a declaration, at the file, or after it. -/
theorem Gen.run_cases {ds : List Node} {r : Except Fault Unit} {w : Workspace}
    (h : Gen.run (.program ds) = (r, w)) :
    (∃ f, r = .error f ∧ (Gen.declarations (Gen.visit 63) ds).start .initial = (.error f, w)) ∨
    ∃ v, Yields (Gen.declarations (Gen.visit 63) ds) .initial () v ∧
      ((∃ f, r = .error f ∧ Emit.join v.current.pieces = .error f ∧
        w = { v with files := Gen.setFile v.current.file "" v.files }) ∨
      ∃ c, r = .ok () ∧ Emit.join v.current.pieces = .ok c ∧
        w = Workspace.extend { v with files := Gen.setFile v.current.file c.render v.files }
          v.frame [none]) := by
  rw [Gen.run_eq] at h
  rcases hdecls : (Gen.declarations (Gen.visit 63) ds).start .initial with ⟨f | u, v⟩
  · rw [hdecls] at h
    cases h
    exact .inl ⟨f, rfl, rfl⟩
  · rw [hdecls] at h
    simp only [Workspace.write] at h
    rcases hjoin : Emit.join v.current.pieces with f | c
    · rw [hjoin] at h
      cases h
      exact .inr ⟨v, hdecls, .inl ⟨f, rfl, hjoin, rfl⟩⟩
    · rw [hjoin] at h
      cases h
      exact .inr ⟨v, hdecls, .inr ⟨c, rfl, hjoin, rfl⟩⟩

/-! ## The declarations of a program -/

/-- The pieces that are printed for a declaration at the top level. -/
def Generated (other : Visitor) (globals : List Symbol) (d : Node)
    (ps : List Piece) : Prop :=
  ∃ w : Workspace, w.frame = {} ∧ w.globals = globals ∧
    Yields (Gen.topLevel other d) w () (w.extend {} ps)

section Declarations

variable {other : Visitor} {globals : List Symbol}

/-- A declaration leaves the names at the top level as they are. -/
theorem Gen.topLevel_globals {d : Node} (hd : d.isDeclTree) {w v : Workspace} {u : Unit}
    (hw : Regular w.globals) (h : Yields (Gen.topLevel other d) w u v) :
    v.globals = w.globals := by
  rcases Gen.topLevel_yields hw hd rfl h with ⟨-, qs, rfl, -⟩ | ⟨-, l, rfl, -⟩ | ⟨-, -, rfl⟩ <;> rfl

theorem Generated.methodOf {d : Node} {ps : List Piece} {m : Code} (hglobals : Regular globals)
    (hd : d.isDeclTree) (hfunc : d.isFunc) (h : Generated other globals d ps)
    (hm : Emit.join ps = .ok m) : MethodOf globals d m := by
  obtain ⟨w, hframe, hw, hyields⟩ := h
  rcases Gen.topLevel_yields hglobals hd hw hyields with
    ⟨-, qs, hqs, hmethod⟩ | ⟨hclass, -⟩ | ⟨hno, -⟩
  · have hpieces : w.current.pieces ++ ps = w.current.pieces ++ qs := by
      simpa using congrArg (fun v => v.current.pieces) hqs
    exact hmethod m (List.append_cancel_left hpieces ▸ hm)
  · simp [Node.isFunc_of_isClass hclass] at hfunc
  · simp [hno] at hfunc

/-- The functions of a program are generated in order, with the names at the top level. -/
theorem Gen.topLevels_generated (hglobals : Regular globals) :
    ∀ {ds : List Node} {w v : Workspace} {u : Unit}, w.frame = {} → w.globals = globals →
      ds.all Node.isDeclTree → Yields (ds.forM (Gen.topLevel other)) w u v →
      ∃ pss : List (List Piece), v.current = ⟨w.current.file, w.current.pieces ++ pss.flatten⟩ ∧
        List.Forall₂ (Generated other globals) (ds.filter Node.isFunc) pss
  | [], w, v, u, _, _, _, h => by
    obtain rfl := Act.yields_forM_nil.1 h
    exact ⟨[], by simp, .nil⟩
  | d :: ds, w, v, u, hframe, hw, hds, h => by
    simp only [List.all_cons, Bool.and_eq_true] at hds
    obtain ⟨w₁, h₁, h₂⟩ := Act.yields_forM_cons.1 h
    rcases Gen.topLevel_yields hglobals hds.1 hw h₁ with
      ⟨hfunc, ps, rfl, -⟩ | ⟨hclass, l, rfl, -⟩ | ⟨hfunc, -, rfl⟩
    · obtain ⟨pss, hv, hpss⟩ := Gen.topLevels_generated (w := w.extend w.frame ps) hglobals hframe
        hw hds.2 h₂
      rw [hframe] at h₁
      rw [List.filter_cons, if_pos hfunc]
      exact ⟨ps :: pss, by simpa [Workspace.extend] using hv, .cons ⟨w, hframe, hw, h₁⟩ hpss⟩
    · obtain ⟨pss, hv, hpss⟩ := Gen.topLevels_generated (w := w.filed l) hglobals hframe hw hds.2
        h₂
      exact ⟨pss, hv, by simpa [List.filter_cons, Node.isFunc_of_isClass hclass] using hpss⟩
    · obtain ⟨pss, hv, hpss⟩ := Gen.topLevels_generated hglobals hframe hw hds.2 h₂
      exact ⟨pss, hv, by simpa [List.filter_cons, hfunc] using hpss⟩

/-- The pieces of the class of a program: fields, the method that initialises them, and the
methods of the functions. -/
theorem Gen.declarations_generated {ds : List Node} (hds : ds.all Node.isDeclTree) {w : Workspace}
    {u : Unit} (h : Yields (Gen.declarations other ds) .initial u w) :
    ∃ ps pss fs items init, w.current = ⟨Listing.fileName mainClass, ps ++ pss.flatten⟩ ∧
      Emit.join ps = .ok (prolog mainClass "java.lang.Object" false ++ fs ++
        methodCode "<clinit>" "()V" init) ∧
      Fields (globalSymbols ds) ds fs items ∧ InitBody (globalSymbols ds) items init ∧
      List.Forall₂ (Generated other (globalSymbols ds)) (ds.filter Node.isFunc) pss := by
  simp only [Gen.declarations, Act.yields_bind, Act.yields_get] at h
  obtain ⟨items, w₁, h₁, _, _, ⟨rfl, rfl⟩, _, w₂, h₂, h₃⟩ := h
  have hregular := globalSymbols_regular hds
  obtain ⟨hglobals, fs, hfs, rfl⟩ := Gen.prologue_yields hds h₁
  obtain ⟨ps, init, rfl, hps, hinit⟩ :=
    Gen.staticInit_yields hregular (hfs.initOf_isExprTree hds) h₂
  obtain ⟨pss, hcurrent, hpss⟩ := Gen.topLevels_generated hregular rfl rfl hds h₃
  refine ⟨[some (prolog mainClass "java.lang.Object" false)] ++ linePieces fs ++ ps, pss, fs, items,
    init, by simpa [Workspace.extend, Workspace.initial] using hcurrent, ?_, hfs, hinit, hpss⟩
  exact Emit.join_append.2 ⟨_, _, Emit.join_append.2
    ⟨_, _, Emit.join_singleton.2 rfl, join_linePieces fs, rfl⟩, hps, rfl⟩

end Declarations

end MiniGoc
