import MiniGoc.Proofs.Moments
import MiniGoc.Proofs.Resolution
import MiniGoc.Proofs.Returns

/-!
# The files of a run

A run may end in a fault at any declaration, or at the end, when the file of the program is
written.  Files are never left in between: the file of a struct or an interface holds all that
was printed to the listing of this declaration, and the file of the program is missing, empty or
complete (`files_complete`).

Most actions leave the files alone, whatever comes of them (`Gen.Still`).  The listing of a
struct or an interface is written as its last step, and only lines have been printed to it by
then (`Gen.topLevel_class`).  So every declaration keeps up that the files are complete
(`Gen.topLevel_complete`), and so does the run.
-/

namespace MiniGoc

open Act (Yields)
open Emit

/-! ## Actions that leave the files alone -/

/-- Whatever comes of an action, the files and the listings of structs and interfaces are what
they were. -/
def Gen.Still {α : Type} (m : Gen α) : Prop :=
  ∀ w, (m.start w).2.files = w.files ∧ (m.start w).2.others = w.others

namespace Gen.Still

variable {α β : Type} {m : Gen α} {k : α → Gen β}

theorem of_agree (h : Gen.Agree m m) : Still m := by
  intro w
  obtain ⟨r, g, ps, hm⟩ := h w.frame
  rw [(hm w rfl).1]
  exact ⟨rfl, rfl⟩

protected theorem pure (a : α) : Still (pure a : Gen α) := .of_agree (.pure a)

protected theorem get : Still (get : Gen Workspace) := fun _ => ⟨rfl, rfl⟩

protected theorem modify {f : Workspace → Workspace}
    (h : ∀ w, (f w).files = w.files ∧ (f w).others = w.others) :
    Still (modify f : Gen PUnit) := fun w => h w

protected theorem bind (hm : Still m) (hk : ∀ a, Still (k a)) : Still (m >>= k) := by
  intro w
  refine Act.bind_keeps (P := fun v : Workspace => v.files = w.files ∧ v.others = w.others) (hm w)
    ?_
  intro a v _ hv
  exact ⟨(hk a v).1.trans hv.1, (hk a v).2.trans hv.2⟩

protected theorem forM {items : List α} {g : α → Gen PUnit} (h : ∀ a ∈ items, Still (g a)) :
    Still (items.forM g) := by
  induction items with
  | nil => exact .pure _
  | cons a items ih =>
    exact (h a (List.mem_cons_self ..)).bind fun _ =>
      ih fun a ha => h a (List.mem_cons_of_mem _ ha)

end Gen.Still

/-! ## Outside of all methods -/

section Bare

variable {other : Visitor} {ctx : Context}

theorem Context.need_agree (ctx : Context) (n : Need) :
    Gen.Agree (ctx.need n) (ctx.need n) := by
  rw [Context.need]
  split
  · exact .throw _
  · exact .pure _

theorem Context.findOption_agree (ctx : Context) (n : String) :
    Gen.Agree (ctx.find? n) (ctx.find? n) := (ctx.need_agree _).bind fun _ => .pure _

variable {α : Type}

theorem Context.Bare.needMethod_agree (hctx : ctx.Bare) (k : Unit → Gen α) :
    Gen.Agree (ctx.needMethod >>= k) (ctx.needMethod >>= k) := by
  have hneed : ctx.needMethod = throw .missingKey := by
    rw [Context.needMethod, Context.need, if_pos (by rw [hctx]; decide)]
    rfl
  rw [hneed]
  exact .throw_bind _

theorem Context.Bare.needFrame_agree (hctx : ctx.Bare) (k : Unit → Gen α) :
    Gen.Agree (ctx.need .frame >>= k) (ctx.need .frame >>= k) := by
  rw [Context.need, if_pos (by rw [hctx]; decide)]
  exact .throw_bind _

theorem Context.Bare.readId_agree (hctx : ctx.Bare) (n : String) :
    Gen.Agree (Gen.readId ctx n) (Gen.readId ctx n) := hctx.needMethod_agree _

theorem expr_agree_bare (hctx : ctx.Bare) {e : Node} (he : e.isExprTree) :
    Gen.Agree (Gen.expr other ctx e) (Gen.expr other ctx e) := by
  cases e with
  | id n =>
    rw [Gen.expr]
    refine (hctx.readId_agree n).bind fun r => ?_
    cases r with
    | none => exact .throw _
    | some r => exact .pure _
  | cell | field | binary | unary | call | methodCall | arrayLit | structLit =>
    rw [Gen.expr]
    exact hctx.needMethod_agree _
  | intLit | stringLit | nilLit =>
    rw [Gen.expr]
    exact hctx.needFrame_agree _
  | floatLit | boolLit =>
    rw [Gen.expr]
    exact (Gen.Agree.ofExcept _).bind fun _ => hctx.needFrame_agree _
  | _ => cases he

theorem typeOf_agree_bare (hctx : ctx.Bare) {t : Node} (ht : t.isTypeTree) :
    Gen.Agree (Gen.typeOf other ctx t) (Gen.typeOf other ctx t) := by
  cases t with
  | id n =>
    rw [Gen.typeOf]
    refine (hctx.readId_agree n).bind fun r => ?_
    cases r <;> exact .pure _
  | intType | floatType | boolType | stringType | voidType | arrayType => exact .pure _
  | _ => cases ht

theorem exprType_agree_bare (hctx : ctx.Bare) {e : Node} (he : e = .none ∨ e.isExprTree) :
    Gen.Agree (Gen.exprType other ctx e) (Gen.exprType other ctx e) := by
  refine Gen.Agree.bind ?_ fun _ => .pure _
  rcases he with rfl | he
  · exact .throw _
  · exact expr_agree_bare hctx he

theorem constant_agree_self (ctx : Context) (e : Node) :
    Gen.Agree (Gen.constant ctx e) (Gen.constant ctx e) := by
  cases e with
  | binary | unary => exact .throw _
  | id n =>
    exact ((ctx.findOption_agree n).bind fun _ => .ofOption _ _).bind fun _ => .pure _
  | _ => exact .pure _

theorem paramTypes_agree_bare (hctx : ctx.Bare) :
    ∀ {ps : List Node}, ps.all Node.isParamTree →
      Gen.Agree (Gen.paramTypes other ctx ps) (Gen.paramTypes other ctx ps)
  | [], _ => .pure _
  | p :: ps, hps => by
    simp only [List.all_cons, Bool.and_eq_true] at hps
    cases p with
    | param n t =>
      rw [Gen.paramTypes]
      exact (Gen.Agree.pure _).bind_of_yields fun _ _ _ h => by
        obtain ⟨rfl, -⟩ := Act.yields_pure.1 h
        exact (typeOf_agree_bare hctx hps.1).bind fun _ =>
          (paramTypes_agree_bare hctx hps.2).bind fun _ => .pure _
    | _ => cases hps.1

/-! ## What comes before the methods -/

theorem addGlobal_still (s : Symbol) : Gen.Still (Gen.addGlobal s) :=
  .modify fun _ => ⟨rfl, rfl⟩

theorem globalContext_still {missing : List Need} {k : Context → Gen α}
    (h : ∀ gs, Gen.Still (k ⟨[gs], missing⟩)) : Gen.Still (Gen.globalContext missing >>= k) := by
  rw [Gen.globalContext, bind_assoc]
  exact .bind .get fun w => by
    rw [pure_bind]
    exact h w.globals

theorem declareGlobal_still (hctx : ctx.Bare) {d : Node} (hd : d.isDeclTree) :
    Gen.Still (Gen.declareGlobal other ctx d) := by
  rw [Gen.declareGlobal]
  refine globalContext_still fun gs => ?_
  have bare := Context.bare [gs]
  cases d with
  | func n ps r b =>
    simp only [Node.isDeclTree, Bool.and_eq_true] at hd
    exact (Gen.Still.of_agree (paramTypes_agree_bare bare hd.1.1.1)).bind fun _ =>
      (Gen.Still.of_agree (typeOf_agree_bare bare hd.1.1.2)).bind fun _ => addGlobal_still _
  | structType | interfaceType => exact addGlobal_still _
  | var n t i =>
    simp only [Node.isDeclTree, Bool.and_eq_true, Bool.or_eq_true, Node.isNone_iff] at hd
    have typed (u : Node) : Gen.Still (if u.isNone && i.truthy then do
          let w ← get
          let type ← Gen.exprType other { ctx with scopes := w.globals :: ctx.scopes.tail } i
          Gen.addGlobal (.global n type)
        else do
          let type ← pure u
          Gen.addGlobal (.global n type)) := by
      split
      · refine .bind .get fun w => .bind (.of_agree (exprType_agree_bare ?_ hd.2)) fun _ =>
          addGlobal_still _
        exact hctx
      · exact .bind (.pure _) fun _ => addGlobal_still _
    show Gen.Still (if t.truthy then do
        let u ← Gen.typeOf other ⟨[gs], [.frame, .listing]⟩ t
        _
      else do
        let u ← pure Node.none
        _)
    split
    · next htruthy =>
      have ht : t.isTypeTree := hd.1.resolve_left (by rintro rfl; cases htruthy)
      exact .bind (.of_agree (typeOf_agree_bare bare ht)) typed
    · exact .bind (.pure _) typed
  | const n t i =>
    simp only [Node.isDeclTree] at hd
    exact (Gen.Still.of_agree (constant_agree_self _ i)).bind fun _ =>
      (Gen.Still.of_agree (exprType_agree_bare bare (.inr hd))).bind fun _ => addGlobal_still _
  | _ => exact .pure _

theorem checkReceiver_still (d : Node) : Gen.Still (Gen.checkReceiver d) := by
  cases d with
  | method r t f =>
    refine (Gen.Still.of_agree (.require _)).bind fun n => .bind .get fun w =>
      (Gen.Still.of_agree (.require _)).bind fun sym => ?_
    split
    · exact .of_agree (.throw _)
    · exact .of_agree (.throw _)
    · exact .pure _
  | _ => exact .pure _

theorem globalField_still (ctx : Context) (n : String) (b : Bool) (d : Node) :
    Gen.Still (Gen.globalField ctx n b d) := by
  refine .bind .get fun w => (Gen.Still.of_agree (Context.findOption_agree _ n)).bind fun o => ?_
  split
  · split
    · split
      · exact (Gen.Still.of_agree (.emit _)).bind fun _ => .pure _
      · exact .pure _
    · exact .pure _
  · exact .pure _

theorem globalFields_still (ctx : Context) :
    ∀ ds : List Node, Gen.Still (Gen.globalFields ctx ds)
  | [] => .pure _
  | d :: ds => by
    have rest (first : List (Symbol × Node)) :
        Gen.Still (do return first ++ (← Gen.globalFields ctx ds)) :=
      (globalFields_still ctx ds).bind fun _ => .pure _
    cases d with
    | var | const => exact (globalField_still _ _ _ _).bind rest
    | _ => exact (Gen.Still.pure _).bind rest

theorem prologue_still {ds : List Node} (hds : ds.all Node.isDeclTree) :
    Gen.Still (Gen.prologue other .outermost ds) :=
  .bind (.forM fun d hd => declareGlobal_still (Context.bare _) (List.all_eq_true.1 hds d hd))
    fun _ => .bind (.forM fun d _ => checkReceiver_still d) fun _ =>
      (Gen.Still.of_agree (.print _)).bind fun _ => globalFields_still _ _

end Bare

/-! ## Structs and interfaces -/

section Classes

variable {other : Visitor} {ctx : Context}

/-- What is printed to the listing of a struct or an interface. -/
def Gen.classBody (other : Visitor) (ctx : Context) : Node → Gen Unit
  | .structType n es ms is => do
    Gen.print (prolog n "java.lang.Object" false)
    Gen.fields other ctx es
    Gen.constructor (.structType n es ms is)
    ms.forM (Gen.member other { ctx with missing := [.frame] })
  | .interfaceType n ms => do
    Gen.print (prolog n "" true)
    ms.forM (Gen.member other { ctx with missing := [.frame] })
  | _ => pure ()

theorem fields_agree_bare (hctx : ctx.Bare) :
    ∀ {es : List Node}, es.all Node.isFieldTypeTree →
      Gen.Agree (Gen.fields other ctx es) (Gen.fields other ctx es)
  | [], _ => .pure _
  | e :: es, hes => by
    simp only [List.all_cons, Bool.and_eq_true] at hes
    cases e with
    | pair n t =>
      exact (typeOf_agree_bare hctx hes.1).bind fun _ => (Gen.Agree.emit _).bind fun _ =>
        fields_agree_bare hctx hes.2
    | _ => cases hes.1

theorem constructor_agree (t : Node) : Gen.Agree (Gen.constructor t) (Gen.constructor t) :=
  .withFrame ((Gen.Agree.emit _).bind fun _ => (Gen.Agree.onFrame _).bind fun _ =>
    (Gen.Agree.onFrame _).bind fun _ => (Gen.Agree.printVar _ _ _).bind fun _ =>
    (Gen.Agree.emit _).bind fun _ => (Gen.Agree.emit _).bind fun _ =>
    (Gen.Agree.emit _).bind fun _ => finishMethod_agree _)

theorem prototypes_agree {ms : List Node} (hms : ms.all Node.isPrototype) :
    Gen.Agree (ms.forM (Gen.member other ctx)) (ms.forM (Gen.member other ctx)) := by
  refine .forM fun m hm => ?_
  have hproto := List.all_eq_true.1 hms m hm
  cases m with
  | prototype n ps r => exact (ctx.need_agree _).bind fun _ => .emit _
  | _ => cases hproto

variable {d : Node}

theorem classBody_agree (hctx : ctx.Bare) (hd : d.isDeclTree) :
    Gen.Agree (Gen.classBody other ctx d) (Gen.classBody other ctx d) := by
  cases d with
  | structType n es ms is =>
    simp only [Node.isDeclTree, Bool.and_eq_true, List.isEmpty_iff] at hd
    obtain ⟨hes, rfl⟩ := hd
    exact (Gen.Agree.print _).bind fun _ => (fields_agree_bare hctx hes).bind fun _ =>
      (constructor_agree _).bind fun _ => .pure _
  | interfaceType n ms => exact (Gen.Agree.print _).bind fun _ => prototypes_agree hd
  | _ => exact .pure _

/-- Only lines are printed for a struct or an interface. -/
theorem Gen.classBody_yields (hctx : ctx.Bare) (hd : d.isDeclTree) {w v : Workspace} {u : Unit}
    (h : Yields (Gen.classBody other ctx d) w u v) :
    ∃ cs : List Code, v = w.extend w.frame (cs.map some) := by
  cases d with
  | structType n es ms is =>
    simp only [Node.isDeclTree, Bool.and_eq_true, List.isEmpty_iff] at hd
    obtain ⟨hes, rfl⟩ := hd
    simp only [Gen.classBody, Act.yields_bind, Gen.yields_print] at h
    obtain ⟨_, _, rfl, _, _, h₁, _, _, h₂, h₃⟩ := h
    obtain ⟨fs, rfl, -⟩ := Gen.fields_yields hctx hes h₁
    obtain ⟨ps, rfl, hps⟩ := Gen.constructor_yields h₂
    obtain rfl := Act.yields_forM_nil.1 h₃
    obtain ⟨cs, rfl, -⟩ := Emit.join_eq_ok.1 hps
    refine ⟨prolog n "java.lang.Object" false :: (fs.map fun l => [l]) ++ cs, ?_⟩
    simp [linePieces, Function.comp_def]
  | interfaceType n ms =>
    simp only [Gen.classBody, Act.yields_bind, Gen.yields_print] at h
    obtain ⟨_, _, rfl, h₁⟩ := h
    obtain ⟨cs, rfl, -⟩ := Gen.prototypes_yields hd h₁
    exact ⟨prolog n "" true :: cs, by simp⟩
  | _ =>
    obtain ⟨-, rfl⟩ := Act.yields_pure.1 h
    exact ⟨[], by simp⟩

/-- The listing of a struct or an interface is written as its last step. -/
theorem Gen.start_topLevel_class (hclass : d.isClass) {n : String} (hn : d.name? = some n)
    (w : Workspace) :
    (Gen.topLevel other d).start w = (Gen.withListing (Listing.fileName n) (do
      Gen.classBody other ⟨[w.globals], [.frame, .listing]⟩ d
      Gen.writeFile)).start w := by
  cases d with
  | structType m es ms is =>
    cases hn
    simp only [Gen.classBody, bind_assoc]
    rw [Gen.topLevel, Act.start_bind]
    rfl
  | interfaceType m ms =>
    cases hn
    simp only [Gen.classBody, bind_assoc]
    rw [Gen.topLevel, Act.start_bind]
    rfl
  | _ => cases hclass

theorem Gen.start_withListing (file : String) (m : Gen Unit) (w : Workspace) :
    (Gen.withListing file m).start w = ((m.start (w.opened file)).1,
      { (m.start (w.opened file)).2 with
        current := w.current
        others := (m.start (w.opened file)).2.others.set w.others.length
          (m.start (w.opened file)).2.current }) := rfl

/-- Either the listing of a struct or an interface stays without a file, or it consists of lines
and is written. -/
theorem Gen.topLevel_class {d : Node} (hd : d.isDeclTree) (hclass : d.isClass) (w : Workspace) :
    ∃ l, (∃ f v, (Gen.topLevel other d).start w = (.error f, v) ∧ v.files = w.files ∧
        v.others = w.others ++ [l]) ∨
      (∃ cs : List Code, l.pieces = cs.map some ∧
        Yields (Gen.topLevel other d) w () (w.filed l)) := by
  obtain ⟨n, hn⟩ : ∃ n, d.name? = some n := by
    cases d with
    | structType | interfaceType => exact ⟨_, rfl⟩
    | _ => cases hclass
  have bare := Context.bare [w.globals]
  have agree : Gen.Agree (Gen.classBody other ⟨[w.globals], [.frame, .listing]⟩ d) _ :=
    classBody_agree bare hd
  obtain ⟨r, g, ps, hbody⟩ := agree w.frame
  have hopened := (hbody (w.opened (Listing.fileName n)) rfl).1
  refine ⟨⟨Listing.fileName n, ps⟩, ?_⟩
  rw [Yields, Gen.start_topLevel_class hclass hn, Gen.start_withListing, Act.start_bind, hopened]
  cases r with
  | error f =>
    refine .inl ⟨f, _, rfl, rfl, ?_⟩
    simp [Workspace.extend, Workspace.opened]
  | ok u =>
    obtain ⟨cs, hcs⟩ := Gen.classBody_yields bare hd hopened
    have hg : g = w.frame := congrArg Workspace.frame hcs
    have hps : ps = cs.map some := by
      simpa [Workspace.opened] using congrArg (fun v => v.current.pieces) hcs
    subst hg hps
    refine .inr ⟨cs, rfl, ?_⟩
    simp only [Gen.start_writeFile, Workspace.write, Workspace.extend_opened_current,
      Emit.join_map_some]
    simp [Workspace.filed, Workspace.extend, Workspace.opened,
      Listing.code_of_join (Emit.join_map_some cs)]

end Classes

/-! ## Files that are complete -/

/-- Every file holds all lines that were printed to the listing of a struct or an interface. -/
def Workspace.Complete (ds : List Node) (w : Workspace) : Prop :=
  ∀ file ∈ w.files, ∃ d ∈ ds, ∃ l ∈ w.others, ListingOf d l ∧
    ∃ cs : List Code, l.pieces = cs.map some ∧ file = (l.file, Code.render cs.flatten)

theorem Gen.mem_setFile {name text : String} {file : String × String} :
    ∀ {files : List (String × String)}, file ∈ Gen.setFile name text files →
      file = (name, text) ∨ file ∈ files
  | [], h => .inl (List.mem_singleton.1 h)
  | (n, t) :: files, h => by
    rw [Gen.setFile] at h
    split at h
    · next hn =>
      rcases List.mem_cons.1 h with rfl | h
      · exact .inl (by rw [hn])
      · exact .inr (List.mem_cons_of_mem _ h)
    · rcases List.mem_cons.1 h with rfl | h
      · exact .inr (List.mem_cons_self ..)
      · exact (Gen.mem_setFile h).imp_right (List.mem_cons_of_mem _)

namespace Workspace.Complete

variable {ds : List Node} {w v : Workspace}

theorem mono (h : w.Complete ds) (hfiles : v.files = w.files) (hothers : w.others ⊆ v.others) :
    v.Complete ds := by
  intro file hfile
  obtain ⟨d, hd, l, hl, hof, hcs⟩ := h file (hfiles ▸ hfile)
  exact ⟨d, hd, l, hothers hl, hof, hcs⟩

theorem still (h : w.Complete ds) {α : Type} {m : Gen α} (hm : Gen.Still m) :
    (m.start w).2.Complete ds :=
  h.mono (hm w).1 (by rw [(hm w).2]; exact List.Subset.refl _)

theorem filed (h : w.Complete ds) {d : Node} (hd : d ∈ ds) {l : Listing} (hl : ListingOf d l)
    {cs : List Code} (hcs : l.pieces = cs.map some) : (w.filed l).Complete ds := by
  intro file hfile
  rcases Gen.mem_setFile hfile with rfl | hfile
  · have hcode : l.code = cs.flatten := by simp [Listing.code, hcs, List.flatMap_map]
    exact ⟨d, hd, l, by simp [Workspace.filed], hl, cs, hcs, by rw [hcode]⟩
  · obtain ⟨d, hd, l', hl', hof, hcs⟩ := h file hfile
    exact ⟨d, hd, l', List.mem_append_left _ hl', hof, hcs⟩

end Workspace.Complete

section Runs

variable {other : Visitor} {ds : List Node}

/-- A declaration keeps up that the files are complete, whatever comes of it. -/
theorem Gen.topLevel_complete {d : Node} (hd : d.isDeclTree) (hloops : d.hasLoopTreesInside)
    (hds : ds.all Node.isDeclTree) (hmem : d ∈ ds) {w : Workspace}
    (hglobals : w.globals = globalSymbols ds) (hw : w.Complete ds) :
    ((Gen.topLevel other d).start w).2.Complete ds := by
  by_cases hclass : d.isClass
  · obtain ⟨l, hl⟩ := @Gen.topLevel_class other d hd hclass w
    rcases hl with ⟨f, v, hstart, hfiles, hothers⟩ | ⟨cs, hcs, hyields⟩
    · rw [hstart]
      exact hw.mono hfiles (by rw [hothers]; exact List.subset_append_left _ _)
    · rw [hyields]
      rcases Gen.topLevel_yields (globalSymbols_regular hds) hd hglobals hyields with
        ⟨hfunc, -⟩ | ⟨-, l', hl', hof⟩ | ⟨-, hno, -⟩
      · simp [Node.isFunc_of_isClass hclass] at hfunc
      · obtain rfl : l = l' := by
          simpa [Workspace.filed] using congrArg Workspace.others hl'
        exact hw.filed hmem hof hcs
      · simp [hclass] at hno
  · cases d with
    | func n ps r b =>
      have still : Gen.Still (Gen.func other ⟨[w.globals], [.frame]⟩ n ps r b) :=
        hglobals ▸ .of_agree (func_agree hds hds (fun _ => rfl) hd hloops)
      rw [Gen.start_topLevel_func]
      exact hw.still still
    | structType | interfaceType => simp [Node.isClass] at hclass
    | _ => exact hw

theorem Gen.topLevels_complete (hds : ds.all Node.isDeclTree) :
    ∀ {es : List Node} {w : Workspace}, es ⊆ ds → es.all Node.isDeclTree →
      es.all Node.hasLoopTreesInside → w.globals = globalSymbols ds → w.Complete ds →
      ((es.forM (Gen.topLevel other)).start w).2.Complete ds
  | [], w, _, _, _, _, hw => hw
  | d :: es, w, hsub, hes, hloops, hglobals, hw => by
    simp only [List.all_cons, Bool.and_eq_true] at hes hloops
    have hmem : d ∈ ds := hsub (List.mem_cons_self ..)
    show ((Gen.topLevel other d >>= fun _ => es.forM (Gen.topLevel other)).start w).2.Complete ds
    refine Act.bind_keeps (Gen.topLevel_complete hes.1 hloops.1 hds hmem hglobals hw) ?_
    intro _ v hstart hv
    have hv' := Gen.topLevel_globals hes.1 (hglobals ▸ globalSymbols_regular hds) hstart
    exact Gen.topLevels_complete hds (List.subset_of_cons_subset hsub) hes.2 hloops.2
      (hv'.trans hglobals) hv

/-- The files are complete when the declarations of a program have been generated, or when one
of them ended in a fault. -/
theorem Gen.declarations_complete (hds : ds.all Node.isDeclTree)
    (hloops : ds.all Node.hasLoopTreesInside) :
    ((Gen.declarations other ds).start .initial).2.Complete ds := by
  have initial : Workspace.initial.Complete ds := nofun
  rw [Gen.declarations]
  refine Act.bind_keeps (initial.still (prologue_still hds)) ?_
  intro items w hprologue hw
  obtain ⟨hglobals, fs, hfs, -⟩ := Gen.prologue_yields hds hprologue
  have hregular : Regular w.globals := hglobals ▸ globalSymbols_regular hds
  have hitems := hfs.initOf_isExprTree hds
  show ((Gen.staticInit other items w.globals >>= fun _ =>
    ds.forM (Gen.topLevel other)).start w).2.Complete ds
  have hstill : Gen.Still (Gen.staticInit other items w.globals) :=
    hglobals ▸ .of_agree (staticInit_agree hds hitems)
  refine Act.bind_keeps (hw.still hstill) ?_
  intro _ v hinit hv
  obtain ⟨ps, body, rfl, -⟩ := Gen.staticInit_yields hregular hitems hinit
  exact Gen.topLevels_complete hds (List.Subset.refl _) hds hloops hglobals hv

end Runs

/-! ## The file of the program -/

variable {ds : List Node} {w : Workspace}

/-- No struct or interface is written to the file of the program, if none has its name. -/
theorem Workspace.Complete.lookup_main (h : w.Complete ds)
    (hnames : ∀ d ∈ ds, d.isClass → d.name? ≠ some mainClass) :
    w.files.lookup (Listing.fileName mainClass) = none := by
  refine List.lookup_eq_none_iff.2 fun file hfile => ?_
  obtain ⟨d, hd, l, -, hl, cs, -, rfl⟩ := h file hfile
  have hclass : d.isClass := by cases hl <;> rfl
  have hne : Listing.fileName mainClass ≠ l.file := by
    intro heq
    exact hnames d hd hclass ((hl.file_eq_iff mainClass).1 heq.symm)
  simpa using hne

/-- The file of the program is the only one that is written after the declarations. -/
theorem Workspace.Complete.setFile (h : w.Complete ds)
    (hfile : w.current.file = Listing.fileName mainClass) {text : String} :
    ∀ file ∈ Gen.setFile w.current.file text w.files, file.1 ≠ Listing.fileName mainClass →
      ∃ d ∈ ds, ∃ l ∈ w.others, ListingOf d l ∧
        ∃ cs : List Code, l.pieces = cs.map some ∧ file = (l.file, Code.render cs.flatten) := by
  intro file hmem hne
  rcases Gen.mem_setFile hmem with rfl | hmem
  · exact absurd hfile hne
  · exact h file hmem

theorem lookup_setFile_main (hfile : w.current.file = Listing.fileName mainClass) (text : String) :
    (Gen.setFile w.current.file text w.files).lookup (Listing.fileName mainClass) = some text := by
  rw [hfile]
  exact Gen.lookup_setFile _ _ _

theorem Gen.declarations_file {other : Visitor}
    (hds : ds.all Node.isDeclTree) {u : Unit}
    (h : Yields (Gen.declarations other ds) .initial u w) :
    w.current.file = Listing.fileName mainClass := by
  obtain ⟨ps, pss, -, -, -, hcurrent, -⟩ := Gen.declarations_generated hds h
  rw [hcurrent]

theorem Code.render_source_ne_empty (name : String) (c : Code) :
    Code.render (.source name :: c) ≠ "" := by
  rw [Code.render, List.map_cons, String.join_cons]
  show ".source " ++ name ++ "\n" ++ Code.render c ≠ ""
  intro h
  rw [String.append_eq_empty_iff, String.append_eq_empty_iff, String.append_eq_empty_iff] at h
  exact absurd h.1.1.1 (by decide)

theorem Gen.declarations_render {other : Visitor}
    (hds : ds.all Node.isDeclTree) {u : Unit}
    (h : Yields (Gen.declarations other ds) .initial u w) {c : Code}
    (hc : Emit.join w.current.pieces = .ok c) : c.render ≠ "" := by
  obtain ⟨ps, pss, fs, items, init, hcurrent, hps, -⟩ := Gen.declarations_generated hds h
  rw [hcurrent] at hc
  obtain ⟨a, b, ha, -, rfl⟩ := Emit.join_append.1 hc
  cases hps.symm.trans ha
  exact Code.render_source_ne_empty _ _

/-- After a run, the file of the program holds all that was printed for it if the run came to
its end, and otherwise there is none or it is empty.  It is empty if all declarations have been
generated, but a function returns what no method can return.  Every other file holds all that
was printed for a struct or an interface. -/
theorem files_complete {ds : List Node} {r : Except Fault Unit} {w : Workspace}
    (hds : (Node.program ds).isProgram) (hloops : ds.all Node.hasLoopTreesInside)
    (hnames : ∀ d ∈ ds, d.isClass → d.name? ≠ some mainClass)
    (hrun : Gen.run (.program ds) = (r, w)) :
    (r.isOk → ∃ cs : List Code,
      w.current = ⟨Listing.fileName mainClass, cs.map some ++ [none]⟩ ∧
      w.files.lookup (Listing.fileName mainClass) = some (Code.render cs.flatten) ∧
      Code.render cs.flatten ≠ "") ∧
    (r.isOk = false → w.files.lookup (Listing.fileName mainClass) = none ∨
      w.files.lookup (Listing.fileName mainClass) = some "") ∧
    (w.files.lookup (Listing.fileName mainClass) = some "" ↔
      ((Gen.declarations (Gen.visit 63) ds).start .initial).1.isOk ∧
      ∃ t ∈ returnedTypes ds, t.isReturnable = false) ∧
    ∀ file ∈ w.files, file.1 ≠ Listing.fileName mainClass → ∃ d ∈ ds, ∃ l ∈ w.others,
      ListingOf d l ∧ ∃ cs : List Code, l.pieces = cs.map some ∧
        file = (l.file, Code.render cs.flatten) := by
  have hcomplete : ((Gen.declarations (Gen.visit 63) ds).start .initial).2.Complete ds :=
    Gen.declarations_complete hds hloops
  rcases Gen.run_cases hrun with ⟨f, rfl, hdecls⟩ | ⟨v, hdecls, hend⟩
  · -- The run ends at a declaration.
    rw [hdecls] at hcomplete ⊢
    have hmain := hcomplete.lookup_main hnames
    refine ⟨nofun, fun _ => .inl hmain, ?_, fun file hfile _ => hcomplete file hfile⟩
    rw [hmain]
    simp [Except.isOk, Except.toBool]
  · have hstart : (Gen.declarations (Gen.visit 63) ds).start .initial = (.ok (), v) := hdecls
    rw [hstart] at hcomplete ⊢
    have hfile := Gen.declarations_file hds hdecls
    have hjoin := Gen.declarations_join hds hdecls
    rcases hend with ⟨f, rfl, hc, rfl⟩ | ⟨c, rfl, hc, rfl⟩
    · -- The run ends at the file: something is no line.
      have hmain := lookup_setFile_main hfile ""
      refine ⟨nofun, fun _ => .inr hmain, ⟨fun _ => ⟨rfl, ?_⟩, fun _ => hmain⟩,
        hcomplete.setFile hfile⟩
      by_contra hall
      obtain ⟨c, hc'⟩ := hjoin.2 fun t ht => by
        by_contra hno
        exact hall ⟨t, ht, by simpa using hno⟩
      cases hc.symm.trans hc'
    · have hrender := Gen.declarations_render hds hdecls hc
      have hmain := lookup_setFile_main hfile c.render
      obtain ⟨cs, hcs, rfl⟩ := Emit.join_eq_ok.1 hc
      refine ⟨fun _ => ⟨cs, by simp [Workspace.extend, hfile, hcs], hmain, hrender⟩, nofun, ?_,
        hcomplete.setFile hfile⟩
      rw [show (Workspace.extend _ _ _).files.lookup _ = _ from hmain, Option.some.injEq]
      refine ⟨fun h => absurd h hrender, ?_⟩
      rintro ⟨-, t, ht, hno⟩
      have := hjoin.1 ⟨_, hc⟩ t ht
      simp [hno] at this

/-- A program with a struct and with a function that returns an array. -/
def arrayProgram : List Node :=
  [.structType "Point" [.pair "x" .intType, .pair "y" .floatType] [] [],
   .func "corner" [.param "a" (.arrayType [.intLit (.int 2)] .intType)]
     (.arrayType [.intLit (.int 2)] .intType) (.block [.ret (.id "a")])]

theorem files_complete_array :
    (Gen.run (.program arrayProgram)).2.files.lookup "MiniGoClass.j" = some "" ∧
    ∀ file ∈ (Gen.run (.program arrayProgram)).2.files, file.1 ≠ "MiniGoClass.j" →
      ∃ d ∈ arrayProgram, ∃ l ∈ (Gen.run (.program arrayProgram)).2.others,
        ListingOf d l ∧ ∃ cs : List Code, l.pieces = cs.map some ∧
          file = (l.file, Code.render cs.flatten) := by
  rcases hrun : Gen.run (.program arrayProgram) with ⟨r, w⟩
  obtain ⟨-, -, hempty, hothers⟩ := files_complete (by decide) (by decide) (by decide) hrun
  refine ⟨hempty.2 ⟨by decide +kernel, .arrayType [.intLit (.int 2)] .intType, ?_, rfl⟩, hothers⟩
  simp [returnedTypes, arrayProgram, funcReturns]

end MiniGoc
