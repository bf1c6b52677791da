import MiniGoc.Proofs.Written
import Mathlib.Data.List.Nodup

/-!
# The labels of a method

A label is named by a jump, or by the line that says where a slot holds a variable.  In every
method of every file each label is placed at most once, and those that are named are placed
exactly once (`labels_wellFormed`).

That a label is placed at most once is `Code.LabelsIn`.  That it is placed at all is local to
the code that names it, up to the two labels of the innermost scope (`Code.Names`): the code
of an expression places what it names (`Coded.names`), a statement may also name the labels of
the scope it stands in (`Printed.names`), and a block or a method places these.  No loop is
ever open, so there is no label of a loop to jump to.
-/

namespace MiniGoc

open Emit

/-! ## The labels that are named -/

/-- The labels that a line names. -/
def Line.targets : Line → List Operand
  | instr (.ifInts _ l) | instr (.ifZero _ l) | instr (.ifRefs _ l) | instr (.goto l) => [l]
  | var _ _ _ first last => [first, last]
  | _ => []

/-- The labels that are named by lines. -/
def Code.targets (c : Code) : List Operand := c.flatMap Line.targets

@[simp] theorem Code.targets_append (c d : Code) :
    Code.targets (c ++ d) = Code.targets c ++ Code.targets d := List.flatMap_append

/-- Every label that is named is placed in the code, or is one of those around it. -/
def Code.Names (c : Code) (around : List Operand) : Prop :=
  ∀ l ∈ c.targets, l ∈ c.labels ∨ l ∈ around

namespace Code.Names

variable {c d : Code} {around around' : List Operand}

theorem of_targets_nil (h : c.targets = []) : c.Names around := by
  intro l hl
  rw [h] at hl
  cases hl

theorem append (hc : c.Names around) (hd : d.Names around) : Code.Names (c ++ d) around := by
  intro l hl
  rw [Code.targets_append] at hl
  rw [Code.labels_append]
  rcases List.mem_append.1 hl with hl | hl
  · exact (hc l hl).imp_left (List.mem_append_left _)
  · exact (hd l hl).imp_left (List.mem_append_right _)

theorem close (hc : c.Names around) (h : ∀ l ∈ around, l ∈ c.labels ∨ l ∈ around') :
    c.Names around' := by
  intro l hl
  rcases hc l hl with hl | hl
  · exact .inl hl
  · exact h l hl

theorem mono (hc : c.Names around) (h : around ⊆ around') : c.Names around' :=
  hc.close fun _ hl => .inr (h hl)

variable {i : Instr}

theorem one (h : Line.targets (.instr i) = []) : Code.Names (Emit.one i) around :=
  of_targets_nil (by simp [Code.targets, Emit.one, h])

theorem constant {i : Instr} (h : i.isConstant) : Code.Names (Emit.one i) around :=
  one (by cases i <;> simp_all [Instr.isConstant, Line.targets])

theorem operator (h : i.isOperator) : Code.Names (Emit.one i) around :=
  one (by cases i <;> simp_all [Instr.isOperator, Line.targets])

theorem makesArray (h : i.makesArray) : Code.Names (Emit.one i) around :=
  one (by cases i <;> simp_all [Instr.makesArray, Line.targets])

theorem label (l : Operand) : Code.Names (Emit.label l) around := of_targets_nil rfl

theorem jump {l : Operand} (hi : Line.targets (.instr i) = [l]) (h : l ∈ around) :
    Code.Names (Emit.one i) around := by
  intro l' hl'
  simp only [Code.targets, Emit.one, List.flatMap_singleton, hi] at hl'
  obtain rfl := List.mem_singleton.1 hl'
  exact .inr h

/-- A label that is placed at the end of some code is not one of those around it. -/
theorem endLabel {l : Operand} (hc : c.Names (l :: around)) :
    Code.Names (c ++ Emit.label l) around := by
  refine (hc.append (label l)).close ?_
  intro l' hl'
  rcases List.mem_cons.1 hl' with rfl | hl'
  · exact .inl (by simp)
  · exact .inr hl'

end Code.Names

/-! ## Expressions -/

theorem Emit.targets_failJump {make : Cond → Operand → Instr}
    (hmake : ∀ c l, Line.targets (.instr (make c l)) = [l]) (op : String) (l : Operand) :
    Code.targets (failJump make op l) ⊆ [l] := by
  unfold failJump
  split <;> simp [Code.targets, one, hmake]

variable {t : Node} {f g : Frame} {c body : Code} {globals : List Symbol}

/-- A comparison jumps to the labels of its outcomes. -/
theorem Emit.Compares.names {op : String} {l : Nat} (h : Compares op l t f c g) : c.Names [] := by
  have outcome : Code.targets (outcomes l (l + 1)) = [.ofNat (l + 1)] := rfl
  have test {make : Cond → Operand → Instr}
      (hmake : ∀ c l, Line.targets (.instr (make c l)) = [l]) {pre : Code}
      (hpre : pre.Names []) :
      Code.Names (pre ++ failJump make op (.ofNat l) ++ outcomes l (l + 1)) [] := by
    refine (((hpre.mono (List.nil_subset [.ofNat l, .ofNat (l + 1)])).append ?_).append ?_).close
      ?_
    · intro l' hl'
      have := Emit.targets_failJump hmake op (.ofNat l) hl'
      exact .inr (by simp_all)
    · intro l' hl'
      rw [outcome] at hl'
      exact .inr (List.mem_cons_of_mem _ hl')
    · intro l' hl'
      rw [Code.labels_append, labels_outcomes]
      exact .inl (List.mem_append_right _ hl')
  cases h with
  | ints => exact test (fun _ _ => rfl) (.of_targets_nil (c := []) rfl)
  | floats => exact test (fun _ _ => rfl) (.of_targets_nil rfl)
  | texts => exact test (fun _ _ => rfl) (.of_targets_nil rfl)
  | other => exact .of_targets_nil rfl

/-- The code of an expression places every label that it names. -/
theorem Coded.names {env : List Symbol} {part : Fragment} (h : Coded env part f c t g) :
    c.Names [] := by
  induction h with
  | name h => cases h <;> exact .one rfl
  | cell _ _ iha ihis => exact iha.append ihis
  | field _ _ _ _ _ _ _ ih => exact ih.append (.one rfl)
  | @arithmetic op l r f c lt g d rt h x k m _ _ _ _ _ _ ihl ihr =>
    refine Code.Names.append ?_ (.operator (isOperator_arithmeticInstr op x.type))
    cases x with
    | apart => exact .of_targets_nil rfl
    | intFloat => exact (ihl.append (.one rfl)).append ihr
    | floatInt => exact (ihl.append ihr).append (.one rfl)
    | ints | texts | floats => exact ihl.append ihr
  | comparison _ _ _ hc ihl ihr => exact (ihl.append ihr).append hc.names
  | both _ _ _ ihl ihr | either _ _ _ ihl ihr => exact (ihl.append ihr).append (.one rfl)
  | call _ _ _ _ _ _ ih => exact ih.append (.one rfl)
  | number h | text h | truth _ h => exact .constant (isConstant_of_intInstr? h)
  | decimal | nil => exact .one rfl
  | array _ hi _ ih => exact ih.append (.makesArray (makesArray_of_arrayInstr? hi))
  | arrayOf _ hi _ _ _ ih ih' =>
    exact (((ih.append (.makesArray (makesArray_of_arrayInstr? hi))).append (.one rfl)).append
      ih').append (.one rfl)
  | struct => exact .of_targets_nil rfl
  | structOf _ _ _ _ _ _ ih =>
    exact (((((Code.Names.one rfl).append (.one rfl)).append (.one rfl)).append (.one rfl)).append
      ih).append (.one rfl)
  | noArgs | noCells | noElems | noFields => exact .of_targets_nil rfl
  | arg _ _ ih ih' => exact ih.append ih'
  | index _ _ _ _ _ ih ih' => exact (ih.append (.one rfl)).append ih'
  | elem _ _ _ _ _ ih ih' =>
    exact ((((Code.Names.one rfl).append (.constant (isConstant_intConstant _))).append ih).append
      (.one rfl)).append ih'
  | fieldOf _ _ _ _ _ _ _ ih ih' =>
    exact (((Code.Names.one rfl).append ih).append (.one rfl)).append ih'

/-! ## Statements -/

/-- The two labels of the innermost scope. -/
def Frame.around (f : Frame) : List Operand :=
  match f.scopes.head? with
  | some s => [.ofNat s.start, .ofNat s.stop]
  | none => []

theorem Frame.around_eq (h : g.scopes = f.scopes) : g.around = f.around := by
  simp only [Frame.around, h]

theorem slotLine_names {s : Frame.Scope} (hs : f.scopes.head? = some s) (i : Int) (n d : String) :
    Code.Names [slotLine s i n d] f.around := by
  intro l hl
  simp only [Frame.around, hs]
  exact .inr (by simpa [Code.targets, slotLine, Line.targets] using hl)

theorem Declared.names {outer ls : List Symbol} {p : Gen.Pass} {ms : List Node}
    (h : Declared outer p ms f c ls g) : c.Names f.around := by
  induction h with
  | done => exact .of_targets_nil rfl
  | @take p m ms f n u g s d c ls h hm hs _ _ ih =>
    have same : g.around = f.around := Frame.around_eq hm.advances.scopes
    have first := slotLine_names hs g.index n d
    rw [same] at first
    exact first.append (same ▸ ih)
  | @known p n e ms f x slot u s d c ls h _ _ _ hs _ _ ih =>
    exact (slotLine_names hs slot n d).append ih
  | skip _ _ ih => exact ih

theorem Emit.retPiece_names (h : retPiece t = some c) (around : List Operand) : c.Names around := by
  refine .of_targets_nil ?_
  cases t <;> simp [retPiece] at h <;> subst h <;> rfl

/-- A statement names labels that it places, and those of the scope it stands in. -/
theorem Printed.names {env : List Symbol} {stage : Stage} (h : Printed env stage f c g)
    (hloops : f.loops = []) : c.Names f.around := by
  have inner {part : Fragment} {env : List Symbol} {f g : Frame} {c : Code} {t : Node}
      (h : Coded env part f c t g) {around : List Operand} : c.Names around :=
    h.names.mono (List.nil_subset _)
  induction h with
  | var _ _ h | const _ _ h | assignSlot _ _ h | assignStatic _ _ h =>
    exact (inner h).append (.one rfl)
  | zero _ _ hi => exact (Code.Names.constant (isConstant_of_zeroInstr? hi)).append (.one rfl)
  | assignCell ha his _ _ _ _ he =>
    exact (((inner ha).append (inner his)).append (inner he)).append (.one rfl)
  | assignField ha _ _ _ _ _ _ he => exact ((inner ha).append (inner he)).append (.one rfl)
  | @block env ms f c ls g d h hls _ ih =>
    have same : g.around = (f.entered false).around := Frame.around_eq hls.advances.scopes
    have members := ih (hls.advances.loops.trans hloops)
    rw [same] at members
    refine ((((Code.Names.label _).append hls.names).append members).append (.label _)).close ?_
    intro l hl
    simp only [Frame.around, Frame.entered, List.head?_cons] at hl
    refine .inl ?_
    simp only [Code.labels_append, Code.labels_label, List.mem_append]
    rcases List.mem_cons.1 hl with rfl | hl
    · exact .inl (.inl (.inl (List.mem_singleton_self _)))
    · exact .inr hl
  | @ifOnly env e y f c t g h d k he hd _ ih =>
    have same : h.around = f.around :=
      Frame.around_eq (hd.sameCounters.scopes.trans he.advances.scopes)
    have branch := ih (hd.sameCounters.loops.trans (he.advances.loops.trans hloops))
    rw [same] at branch
    exact (((inner he).append (.jump rfl (List.mem_cons_self ..))).append
      (branch.mono (List.subset_cons_self _ _))).endLabel
  | @ifElse env e y n f c t g h d k d' m he hd _ hy _ ih ih' =>
    have scopes : h.scopes = f.scopes := hd.sameCounters.scopes.trans he.advances.scopes
    have loops : h.loops = [] := hd.sameCounters.loops.trans (he.advances.loops.trans hloops)
    have yes := ih loops
    have no := ih' (hy.advances.loops.trans loops)
    rw [Frame.around_eq scopes] at yes
    rw [Frame.around_eq (hy.advances.scopes.trans scopes)] at no
    -- The first label is that of the end, the second that of the other branch.
    have start : Code.Names (c ++ one (.ifZero .le (.ofNat (g.label + 1))) ++ d ++
        jump (.ofNat g.label)) (.ofNat (g.label + 1) :: .ofNat g.label :: f.around) :=
      (((inner he).append (.jump rfl (List.mem_cons_self ..))).append
        (yes.mono fun _ hl => List.mem_cons_of_mem _ (List.mem_cons_of_mem _ hl))).append
        (.jump rfl (List.mem_cons_of_mem _ (List.mem_cons_self ..)))
    exact (start.endLabel.append (no.mono (List.subset_cons_self _ _))).endLabel
  | breakLoop hs => exact .jump rfl (by simp [Frame.around, hs])
  | continueLoop hl =>
    rw [hloops] at hl
    cases hl
  | ret he hd _ => exact (inner he).append (retPiece_names hd _)
  | leave => exact .one rfl
  | call | noMembers => exact .of_targets_nil rfl
  | @member env m ms f c g d h hm _ ih ih' =>
    have same : g.around = f.around := Frame.around_eq hm.advances.scopes
    have rest := ih' (hm.advances.loops.trans hloops)
    rw [same] at rest
    exact (ih hloops).append rest

/-! ## Methods -/

theorem Params.names {ps : List (String × Node)} {ss : List Symbol} (h : Params ps f c ss g) :
    c.Names f.around := by
  induction h with
  | nil => exact .of_targets_nil rfl
  | @cons n t ps f s d c ss g hs _ _ ih =>
    have rest : c.Names f.around := by
      rwa [Frame.around_eq (Frame.advances_indexed f).scopes] at ih
    exact (slotLine_names hs f.index n d).append rest

theorem Initialised.names {items : List (Symbol × Node)} (h : Initialised globals items f c g) :
    c.Names [] := by
  induction h with
  | nil => exact .of_targets_nil rfl
  | cons hc _ _ _ ih => exact (hc.names.append (.one rfl)).append ih

/-- The labels of a method: each is placed at most once, and each that is named is placed. -/
structure Code.WellLabelled (body : Code) : Prop where
  atMostOnce : ∀ l, body.count (.label l) ≤ 1
  exactlyOnce : ∀ l ∈ body.targets, body.count (.label l) = 1

theorem Code.count_labels (c : Code) (l : Operand) : c.labels.count l = c.count (.label l) := by
  induction c with
  | nil => rfl
  | cons line c ih =>
    cases line with
    | label l' => simp_all [Code.labels, Line.label?, List.count_cons]
    | _ =>
      rw [Code.labels, List.filterMap_cons_none rfl, List.count_cons_of_ne (by simp)]
      exact ih

theorem Code.Names.wellLabelled (hnames : body.Names []) (hnodup : body.labels.Nodup) :
    body.WellLabelled where
  atMostOnce l := by
    rw [← Code.count_labels]
    exact List.nodup_iff_count_le_one.1 hnodup l
  exactlyOnce l hl := by
    rw [← Code.count_labels]
    exact List.count_eq_one_of_mem hnodup ((hnames l hl).resolve_right List.not_mem_nil)

theorem Code.Names.method {d e : Code} (hc : c.Names Frame.ofMethod.around)
    (hd : d.Names Frame.ofMethod.around) (he : e.targets = []) :
    Code.Names (Emit.label (.ofNat 0) ++ c ++ d ++ Emit.label (.ofNat 1) ++ e) [] := by
  refine (((((Code.Names.label _).append hc).append hd).append (.label _)).append
    (.of_targets_nil he)).close ?_
  intro l hl
  simp only [Code.labels_append, Code.labels_label, List.mem_append]
  rcases List.mem_cons.1 hl with rfl | hl
  · exact .inl (.inl (.inl (.inl (.inl (List.mem_singleton_self _)))))
  · exact .inl (.inl (.inr hl))

theorem FuncBody.wellLabelled {params : List (String × Node)} {r b : Node}
    (h : FuncBody globals params r b body) : body.WellLabelled := by
  refine Code.Names.wellLabelled ?_ h.labels_nodup
  cases h with
  | @intro c ss f d g rc h hparams hb hr _ =>
    have printed := hb.names hparams.advances.loops
    rw [Frame.around_eq hparams.advances.scopes] at printed
    have rest : (rc ++ limitLines h).targets = [] := by
      cases r <;> simp [retPiece] at hr <;> subst hr <;> rfl
    simpa using Code.Names.method hparams.names printed rest

theorem InitBody.wellLabelled {items : List (Symbol × Node)} (h : InitBody globals items body) :
    body.WellLabelled := by
  refine Code.Names.wellLabelled ?_ h.labels_nodup
  cases h with
  | @intro c f hc =>
    have rest : (one .ret ++ limitLines f).targets = [] := rfl
    simpa using Code.Names.method (.of_targets_nil (c := []) rfl)
      (hc.names.mono (List.nil_subset _)) rest

theorem constructorBody_wellLabelled (type : String) : (constructorBody type).WellLabelled := by
  have hlabels : (constructorBody type).labels = [.ofNat 0, .ofNat 1] := rfl
  have htargets : (constructorBody type).targets = [.ofNat 0, .ofNat 1] := rfl
  refine Code.Names.wellLabelled ?_ (by rw [hlabels]; decide)
  intro l hl
  rw [htargets] at hl
  exact .inl (hlabels ▸ hl)

/-- In every method of every file, each label is placed at most once, and each label that a
jump or the range of a variable names is placed exactly once. -/
theorem labels_wellFormed {ds : List Node} {w : Workspace} (hds : (Node.program ds).isProgram)
    (hgen : Gen.run (.program ds) = (.ok (), w)) :
    (w.files = w.written.map fun l => (l.file, l.code.render)) ∧
      ∀ l ∈ w.written, ∀ body ∈ l.code.bodies, body.WellLabelled := by
  refine ⟨Gen.run_files hds hgen, Gen.run_bodies hds hgen ?_ constructorBody_wellLabelled ?_ ?_⟩
  · exact ⟨by simp, by simp [Code.targets]⟩
  · intro items body _ h
    exact h.wellLabelled
  · intro d _ m hm
    cases hm with
    | intro h => exact h.wellLabelled

/-- A struct, and a function with nested branches and a jump to the end of a block. -/
def branching : List Node :=
  [.structType "P" [.pair "x" .intType] [] [],
   .var "g" .boolType (.binary "<" (.intLit (.int 1)) (.intLit (.int 2))),
   .func "main" [] .voidType (.block
     [.var "y" .intType (.intLit (.int 1)),
      .ifElse (.binary ">" (.id "y") (.intLit (.int 0)))
        (.block [.var "z" .intType (.id "y"),
          .ifElse (.id "g") (.block [.breakLoop]) .none])
        (.block [.var "z" .boolType (.binary "==" (.id "y") (.intLit (.int 2)))])])]

theorem labels_wellFormed_branching :
    ((Gen.run (.program branching)).2.written.map fun l => l.code.bodies.map fun body =>
        (body.targets.length, body.labels.length)) = [[(2, 2)], [(2, 4), (16, 17)]] ∧
      ∀ l ∈ (Gen.run (.program branching)).2.written, ∀ body ∈ l.code.bodies,
        body.WellLabelled := by
  refine ⟨by decide +kernel, ?_⟩
  exact (@labels_wellFormed branching _ (by decide) (Gen.run_eq_of_isOk (by decide +kernel))).2

end MiniGoc
