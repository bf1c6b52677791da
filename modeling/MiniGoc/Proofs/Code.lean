import MiniGoc.Proofs.Program

/-!
# Views of code

Properties of a listing are stated through small functions on its lines: the labels it
places (`Code.labels`) and its methods (`Code.methods`).

Every label of a method is placed once (`Printed.labelsIn`): each part of the code places
the labels that the frame counted while the part was generated.  The lines of a method are
instructions, labels and lines for slots (`Printed.isCode`), so the methods of a class can
be read off its listing (`Compiled.methods`).
-/

namespace MiniGoc

open Emit

namespace Line

def label? : Line → Option Operand
  | label l => some l
  | _ => none

/-- Whether a line stands inside a method. -/
def isBody : Line → Bool
  | instr _ | label _ | var .. | limitStack _ | limitLocals _ => true
  | _ => false

/-- Whether a line belongs to the code of a method: all but the limits at its end. -/
def isCode : Line → Bool
  | instr _ | label _ | var .. => true
  | _ => false

end Line

namespace Code

/-- The labels that are placed, in order. -/
def labels (c : Code) : List Operand := c.filterMap Line.label?

@[simp] theorem labels_nil : labels [] = [] := rfl

@[simp] theorem labels_append (c d : Code) : labels (c ++ d) = labels c ++ labels d :=
  List.filterMap_append

@[simp] theorem labels_one (i : Instr) : labels (one i) = [] := rfl

@[simp] theorem labels_jump (l : Operand) : labels (jump l) = [] := rfl

@[simp] theorem labels_label (l : Operand) : labels (label l) = [l] := rfl

/-- The methods of a listing with their lines, in order. -/
def methods : Code → List (String × Code)
  | [] => []
  | .method _ n _ :: c => (n, c.takeWhile Line.isBody) :: methods c
  | _ :: c => methods c

theorem methods_append_of_all {p : Line → Bool} (hp : ∀ b n t, p (.method b n t) = false) :
    ∀ {c d : Code}, c.all p → methods (c ++ d) = methods d
  | [], _, _ => rfl
  | l :: c, d, h => by
    simp only [List.all_cons, Bool.and_eq_true] at h
    cases l with
    | method b n t => simp [hp] at h
    | _ => simpa only [List.cons_append, methods] using methods_append_of_all hp h.2

@[simp] theorem methods_methodCode {n t : String} {body rest : Code}
    (hbody : body.all Line.isBody) :
    methods (methodCode n t body ++ rest) = (n, body) :: methods rest := by
  have takes : (body ++ .endMethod :: rest).takeWhile Line.isBody = body := by
    rw [List.takeWhile_append_of_pos (List.all_eq_true.1 hbody)]
    simp [Line.isBody]
  have skips : methods (body ++ .endMethod :: rest) = methods rest := by
    rw [methods_append_of_all (fun _ _ _ => rfl) hbody]
    rfl
  simp [methodCode, methods, takes, skips]

theorem all_isBody {c : Code} (h : c.all Line.isCode) : c.all Line.isBody := by
  rw [List.all_eq_true] at h ⊢
  intro l hl
  have := h l hl
  cases l <;> simp_all [Line.isCode, Line.isBody]

end Code

/-! ## Kinds of instructions -/

namespace Instr

/-- Whether an instruction pushes a value that it is given. -/
def isConstant : Instr → Bool
  | pushNull | iconst _ | iconstFlag _ | bipush _ | sipush _ | fconst _ | ldc _ => true
  | _ => false

/-- Whether an instruction takes two values and pushes one that is computed from them. -/
def isOperator : Instr → Bool
  | iadd | isub | imul | idiv | irem | iand | ior | fadd | fsub | fmul | fdiv | fcmpl => true
  | invokeVirtual m _ => m = "java/lang/String/concat" || m = "java/lang/String/compareTo"
  | _ => false

/-- Whether an instruction makes an array of a size. -/
def makesArray : Instr → Bool
  | newArray _ | newRefArray _ => true
  | _ => false

end Instr

theorem Emit.isConstant_intConstant (i : Int) : (intConstant i).isConstant := by
  unfold intConstant
  repeat' split
  all_goals rfl

variable {i : Instr} {t : Node} {f g : Frame} {c body : Code} {env globals : List Symbol}
  {items : List (Symbol × Node)} {ds : List Node}

theorem Emit.isConstant_of_intInstr? {v : Node} (h : intInstr? v = some i) : i.isConstant := by
  cases v with
  | int j =>
    cases h
    exact isConstant_intConstant j
  | bool b =>
    cases h
    rfl
  | text s =>
    simp only [intInstr?] at h
    split at h
    · cases h
      rfl
    · split at h
      · cases h
        rfl
      · obtain ⟨j, -, rfl⟩ := Option.map_eq_some_iff.1 h
        exact isConstant_intConstant j
  | _ => cases h

theorem isConstant_of_zeroInstr? (h : zeroInstr? t = some i) : i.isConstant := by
  cases t <;> simp [zeroInstr?] at h <;> subst h <;> rfl

theorem Emit.isOperator_arithmeticInstr (op : String) (t : Node) :
    (arithmeticInstr op t).isOperator := by
  unfold arithmeticInstr
  repeat' split
  all_goals rfl

theorem Emit.makesArray_of_arrayInstr? (h : arrayInstr? t = some i) : i.makesArray := by
  cases t <;> simp [arrayInstr?] at h <;> subst h <;> rfl

/-! ## The lines of a method -/

theorem Emit.Compares.isCode {op : String} {l : Nat} (h : Compares op l t f c g) :
    c.all Line.isCode := by
  have tests (make : Cond → Operand → Instr) : (failJump make op (.ofNat l)).all Line.isCode := by
    unfold failJump
    split <;> rfl
  have ends : (outcomes l (l + 1)).all Line.isCode := rfl
  cases h with
  | ints => simp [tests, ends]
  | floats => simp [tests, ends, one, Line.isCode]
  | texts => simp [tests, ends, one, compareTexts, Line.isCode]
  | other => rfl

theorem all_isCode_one (i : Instr) : (one i).all Line.isCode := rfl

theorem Coded.isCode {part : Fragment} (h : Coded env part f c t g) : c.all Line.isCode := by
  induction h with
  | name h => cases h <;> rfl
  | @arithmetic op l r f c lt g d rt h x k m _ _ _ _ _ _ ihl ihr =>
    cases x <;> simp [Mixture.operands, ihl, ihr, all_isCode_one]
  | comparison _ _ _ hc ihl ihr => simp [ihl, ihr, hc.isCode]
  | _ => simp_all [all_isCode_one]

theorem Declared.isCode {outer ls : List Symbol} {p : Gen.Pass} {ms : List Node}
    (h : Declared outer p ms f c ls g) : c.all Line.isCode := by
  induction h with
  | done => rfl
  | take _ _ _ _ ih | known _ _ _ _ _ _ ih => simpa [slotLine, Line.isCode] using ih
  | skip _ _ ih => exact ih

theorem Emit.isCode_retPiece (h : retPiece t = some c) : c.all Line.isCode := by
  cases t <;> simp [retPiece] at h <;> subst h <;> rfl

theorem Printed.isCode {stage : Stage} (h : Printed env stage f c g) : c.all Line.isCode := by
  have jumps (l : Operand) : (jump l).all Line.isCode := rfl
  have labels (l : Operand) : (label l).all Line.isCode := rfl
  induction h with
  | var _ _ h | const _ _ h | assignSlot _ _ h | assignStatic _ _ h =>
    simp [h.isCode, all_isCode_one]
  | zero => simp [all_isCode_one]
  | assignCell ha his _ _ _ _ he => simp [ha.isCode, his.isCode, he.isCode, all_isCode_one]
  | assignField ha _ _ _ _ _ _ he => simp [ha.isCode, he.isCode, all_isCode_one]
  | block hls _ ih => simp [hls.isCode, ih, labels]
  | ifOnly he _ _ ih => simp [he.isCode, ih, labels, all_isCode_one]
  | ifElse he _ _ _ _ ih ih' => simp [he.isCode, ih, ih', labels, jumps, all_isCode_one]
  | breakLoop | continueLoop | leave | call | noMembers => rfl
  | @ret env e f c t g d h he hd _ =>
    simp [he.isCode, isCode_retPiece hd]
  | member _ _ ih ih' => simp [ih, ih']

/-! ## The labels of a method -/

/-- The code places each label once, and only labels of a range. -/
structure Code.LabelsIn (c : Code) (a b : Nat) : Prop where
  nodup : c.labels.Nodup
  bounds : ∀ l ∈ c.labels, ∃ n, l = .ofNat n ∧ a ≤ n ∧ n < b

namespace Code.LabelsIn

variable {c d : Code} {a b a' b' : Nat}

theorem of_labels_nil (h : c.labels = []) : c.LabelsIn a b :=
  ⟨by rw [h]; exact List.Pairwise.nil, by simp [h]⟩

theorem mono (h : c.LabelsIn a b) (ha : a' ≤ a) (hb : b ≤ b') : c.LabelsIn a' b' :=
  ⟨h.nodup, fun l hl => by
    obtain ⟨n, rfl, h₁, h₂⟩ := h.bounds l hl
    exact ⟨n, rfl, by omega, by omega⟩⟩

theorem append (hc : c.LabelsIn a b) (hd : d.LabelsIn a' b') (h : b ≤ a') (ha : a ≤ a')
    (hb : b ≤ b') : Code.LabelsIn (c ++ d) a b' where
  nodup := by
    rw [Code.labels_append]
    refine List.nodup_append.2 ⟨hc.nodup, hd.nodup, ?_⟩
    rintro l hl l' hl' rfl
    obtain ⟨n, rfl, -, hn⟩ := hc.bounds l hl
    obtain ⟨m, hm, hm', -⟩ := hd.bounds _ hl'
    have : n = m := by
      have := Operand.number.inj hm
      omega
    omega
  bounds l hl := by
    rw [Code.labels_append] at hl
    rcases List.mem_append.1 hl with hl | hl
    · obtain ⟨n, rfl, h₁, h₂⟩ := hc.bounds l hl
      exact ⟨n, rfl, h₁, by omega⟩
    · obtain ⟨n, rfl, h₁, h₂⟩ := hd.bounds l hl
      exact ⟨n, rfl, by omega, h₂⟩

theorem append_nil (hc : c.LabelsIn a b) (hd : d.labels = []) : Code.LabelsIn (c ++ d) a b :=
  ⟨by simpa [hd] using hc.nodup, by simpa [hd] using hc.bounds⟩

theorem nil_append (hd : d.LabelsIn a b) (hc : c.labels = []) : Code.LabelsIn (c ++ d) a b :=
  ⟨by simpa [hc] using hd.nodup, by simpa [hc] using hd.bounds⟩

theorem of_perm (hc : c.LabelsIn a b) (h : c.labels.Perm d.labels) : d.LabelsIn a b :=
  ⟨h.nodup_iff.1 hc.nodup, fun l hl => hc.bounds l (h.mem_iff.2 hl)⟩

theorem label (n : Nat) : Code.LabelsIn (Emit.label (.ofNat n)) n (n + 1) :=
  ⟨by simp, by
    intro l hl
    exact ⟨n, List.mem_singleton.1 hl, Nat.le_refl _, Nat.lt_succ_self _⟩⟩

end Code.LabelsIn

theorem Operand.ofNat_inj {n m : Nat} : Operand.ofNat n = Operand.ofNat m ↔ n = m := by
  simp only [Operand.ofNat, Operand.number.injEq]
  omega

theorem Emit.labels_outcomes (lf lo : Nat) :
    Code.labels (outcomes lf lo) = [.ofNat lf, .ofNat lo] := by
  simp [outcomes]

theorem Emit.labels_failJump (make : Cond → Operand → Instr) (op : String) (l : Operand) :
    Code.labels (failJump make op l) = [] := by
  unfold failJump
  split <;> rfl

theorem Emit.Compares.labelsIn {op : String} {l : Nat} (h : Compares op l t f c g) :
    c.LabelsIn l (l + 2) := by
  have ends : Code.LabelsIn (outcomes l (l + 1)) l (l + 2) := by
    refine ⟨?_, ?_⟩
    · simp [labels_outcomes, Operand.ofNat_inj]
    · simp only [labels_outcomes, List.mem_cons, List.not_mem_nil, or_false]
      rintro _ (rfl | rfl)
      · exact ⟨l, rfl, by omega, by omega⟩
      · exact ⟨l + 1, rfl, by omega, by omega⟩
  cases h with
  | ints => exact ends.nil_append (labels_failJump _ _ _)
  | floats => exact ends.nil_append (by simp [labels_failJump])
  | texts => exact ends.nil_append (by simp [labels_failJump, compareTexts])
  | other => exact .of_labels_nil rfl

/-- The code of a part places labels that were counted with it. -/
theorem Coded.labelsIn {part : Fragment} (h : Coded env part f c t g) :
    c.LabelsIn f.label g.label := by
  induction h with
  | name h => cases h <;> exact .of_labels_nil rfl
  | cell ha his iha ihis =>
    exact iha.append ihis (Nat.le_refl _) ha.advances.label his.advances.label
  | field _ _ _ ht _ _ hd ih =>
    refine (ih.append_nil (by simp)).mono (Nat.le_refl _) ?_
    simp [hd.sameCounters.label, ht.sameCounters.label]
  | @arithmetic op l r f c lt g d rt h x k m _ hl hr _ hw hd ihl ihr =>
    have hlast : m.pushed.label = h.label := by
      simp [hd.sameCounters.label, hw.sameCounters.label]
    have left := hl.advances.label
    have right := hr.advances.label
    rw [hlast]
    cases x with
    | apart => exact .of_labels_nil (by simp [Mixture.operands])
    | intFloat =>
      have widened := ihl.append_nil (Code.labels_one .i2f)
      exact (widened.append ihr (Nat.le_refl _) left right).append_nil (by simp)
    | floatInt =>
      exact ((ihl.append ihr (Nat.le_refl _) left right).append_nil (by simp)).append_nil
        (by simp)
    | ints | texts | floats =>
      exact (ihl.append ihr (Nat.le_refl _) left right).append_nil (by simp)
  | comparison _ hl hr hc ihl ihr =>
    have := hc.sameCounters.label
    simp only [Frame.labelled] at this
    exact (ihl.append ihr (Nat.le_refl _) hl.advances.label hr.advances.label).append
      (hc.labelsIn.mono (Nat.le_refl _) (by omega)) (Nat.le_refl _)
      (Nat.le_trans hl.advances.label hr.advances.label) (by omega)
  | both hl hr hd ihl ihr | either hl hr hd ihl ihr =>
    refine ((ihl.append ihr (Nat.le_refl _) hl.advances.label hr.advances.label).append_nil
      (by simp)).mono (Nat.le_refl _) ?_
    simp [hd.sameCounters.label]
  | @call n as s f c g owner ps r d h _ _ _ _ _ hd ih =>
    refine (ih.append_nil (by simp)).mono (Nat.le_refl _) ?_
    simp [(sameCounters_resultFrame h r).label, hd.sameCounters.label]
  | number | decimal | text | truth | nil | struct => exact .of_labels_nil (by simp)
  | array _ _ hd ih =>
    refine (ih.append_nil (by simp)).mono (Nat.le_refl _) ?_
    simp [hd.sameCounters.label]
  | @arrayOf d e el es f c g i h k d' m hds _ hd hd' hes ih ih' =>
    have hk : k.label = g.label :=
      hd'.sameCounters.label.trans hd.sameCounters.label
    have := hds.advances.label
    have := hes.advances.label
    refine (((ih.append_nil (by simp)).append_nil (by simp)).append ih' ?_ ?_ ?_).append_nil
      (by simp) <;> omega
  | @structOf n s owner el es b f g k d m _ _ hd _ hd' hes ih =>
    have hk : k.label = f.label := hd'.sameCounters.label.trans hd.sameCounters.label
    refine ((ih.nil_append (by simp)).append_nil (by simp)).mono ?_ ?_
    · omega
    · exact Nat.le_refl _
  | noArgs | noCells | noElems | noFields => exact .of_labels_nil rfl
  | arg he hes ih ih' => exact ih.append ih' (Nat.le_refl _) he.advances.label hes.advances.label
  | @index t i is f c u g e b h d v k hi _ _ hd his ih ih' =>
    have hh : h.pushed.label = g.label := hd.sameCounters.label
    have := hi.advances.label
    have := his.advances.label
    refine (ih.append_nil (by simp)).append ih' ?_ ?_ ?_ <;> omega
  | @elem t e slot i el es f b c u g b' h d k _ hel _ hd hes ih ih' =>
    have hh : h.label = g.label := hd.sameCounters.label
    have := hel.advances.label
    have := hes.advances.label
    simp only [Frame.pushed_label] at *
    refine ((ih.nil_append (by simp)).append_nil (by simp)).append ih' ?_ ?_ ?_ <;> omega
  | @fieldOf t owner slot n el es f b c u g ts ft d h d' k _ hel _ _ _ hd hes ih ih' =>
    have hh : h.label = g.label := hd.sameCounters.label
    have := hel.advances.label
    have := hes.advances.label
    simp only [Frame.pushed_label] at *
    refine ((ih.nil_append (by simp)).append_nil (by simp)).append ih' ?_ ?_ ?_ <;> omega

theorem Declared.labels_eq_nil {outer ls : List Symbol} {p : Gen.Pass} {ms : List Node}
    (h : Declared outer p ms f c ls g) : c.labels = [] := by
  induction h with
  | done => rfl
  | take _ _ _ _ ih | known _ _ _ _ _ _ ih => simpa [Code.labels, slotLine, Line.label?] using ih
  | skip _ _ ih => exact ih

theorem Emit.labels_retPiece (h : retPiece t = some c) : c.labels = [] := by
  cases t <;> simp [retPiece] at h <;> subst h <;> rfl

/-- The code of a statement places labels that were counted with it, each once. -/
theorem Printed.labelsIn {stage : Stage} (h : Printed env stage f c g) :
    c.LabelsIn f.label g.label := by
  induction h with
  | var _ _ h _ hd | const _ _ h _ hd | assignSlot _ _ h _ hd | assignStatic _ _ h _ hd =>
    exact (h.labelsIn.append_nil (by simp)).mono (Nat.le_refl _)
      (Nat.le_of_eq hd.sameCounters.label.symm)
  | zero => exact .of_labels_nil (by simp)
  | @assignCell env a is e f c t g d h el u k b m d' r o ha his _ ht _ hd he =>
    have hm : m.label = h.label := hd.sameCounters.label.trans ht.sameCounters.label
    have := ha.advances.label
    have := his.advances.label
    have := he.advances.label
    refine (((ha.labelsIn.append his.labelsIn ?_ ?_ ?_).append he.labelsIn ?_ ?_ ?_).append_nil
      (by simp)) <;> omega
  | @assignField env a n e f c t g es ft u k owner d m d' r o ha _ _ ht _ _ hd he =>
    have hm : m.label = g.label := hd.sameCounters.label.trans ht.sameCounters.label
    have := ha.advances.label
    have := he.advances.label
    refine (ha.labelsIn.append he.labelsIn ?_ ?_ ?_).append_nil (by simp) <;> omega
  | @block env ms f c ls g d h hls hms ih =>
    have hg : f.label + 2 ≤ g.label := hls.advances.label
    have hh := hms.advances.label
    have sorted : Code.LabelsIn (label (.ofNat f.label) ++ label (.ofNat (f.label + 1)) ++ d)
        f.label h.label := by
      refine ((Code.LabelsIn.label _).append (Code.LabelsIn.label _) ?_ ?_ ?_).append ih ?_ ?_ ?_
        <;> omega
    refine sorted.of_perm ?_
    rw [List.perm_iff_count]
    intro l
    simp [hls.labels_eq_nil, List.count_append, List.count_cons]
  | @ifOnly env e y f c t g h d k he hd hy ih =>
    have hh : h.label = g.label + 1 := hd.sameCounters.label
    have := he.advances.label
    have := hy.advances.label
    have sorted : Code.LabelsIn (c ++ label (.ofNat g.label) ++ d) f.label k.label := by
      refine (he.labelsIn.append (Code.LabelsIn.label _) ?_ ?_ ?_).append ih ?_ ?_ ?_ <;> omega
    refine sorted.of_perm ?_
    rw [List.perm_iff_count]
    intro l
    simp [List.count_append, List.count_cons]
  | @ifElse env e y n f c t g h d k d' m he hd _ hy hn ih ih' =>
    have hh : h.label = g.label + 2 := hd.sameCounters.label
    have := he.advances.label
    have := hy.advances.label
    have := hn.advances.label
    have sorted : Code.LabelsIn (c ++ label (.ofNat g.label) ++ label (.ofNat (g.label + 1)) ++
        d ++ d') f.label m.label := by
      refine (((he.labelsIn.append (Code.LabelsIn.label _) ?_ ?_ ?_).append
        (Code.LabelsIn.label _) ?_ ?_ ?_).append ih ?_ ?_ ?_).append ih' ?_ ?_ ?_ <;> omega
    refine sorted.of_perm ?_
    rw [List.perm_iff_count]
    intro l
    simp [List.count_append, List.count_cons]
    omega
  | breakLoop | continueLoop | leave | call | noMembers => exact .of_labels_nil rfl
  | ret h hd hdrops =>
    exact (h.labelsIn.append_nil (labels_retPiece hd)).mono (Nat.le_refl _)
      (Nat.le_of_eq hdrops.sameCounters.label.symm)
  | member hm hms ih ih' => exact ih.append ih' (Nat.le_refl _) hm.advances.label hms.advances.label

/-! ## The methods of a class -/

theorem Params.isCode {ps : List (String × Node)} {ss : List Symbol} (h : Params ps f c ss g) :
    c.all Line.isCode := by
  induction h with
  | nil => rfl
  | cons _ _ _ ih => simpa [slotLine, Line.isCode] using ih

theorem Params.labels_eq_nil {ps : List (String × Node)} {ss : List Symbol}
    (h : Params ps f c ss g) : c.labels = [] := by
  induction h with
  | nil => rfl
  | cons _ _ _ ih => simpa [Code.labels, slotLine, Line.label?] using ih

theorem Code.LabelsIn.method {d e : Code} {b : Nat} (hc : c.labels = []) (hd : d.LabelsIn 2 b)
    (he : e.labels = []) (hb : 2 ≤ b) :
    Code.LabelsIn (Emit.label (.ofNat 0) ++ c ++ d ++ Emit.label (.ofNat 1) ++ e) 0 b := by
  have sorted : Code.LabelsIn (Emit.label (.ofNat 0) ++ Emit.label (.ofNat 1) ++ d) 0 b := by
    refine ((Code.LabelsIn.label 0).append (Code.LabelsIn.label 1) ?_ ?_ ?_).append hd ?_ ?_ ?_
      <;> omega
  refine sorted.of_perm ?_
  rw [List.perm_iff_count]
  intro l
  simp [hc, he, List.count_append, List.count_cons]

theorem FuncBody.isBody {params : List (String × Node)} {r b : Node}
    (h : FuncBody globals params r b body) : body.all Line.isBody := by
  cases h with
  | intro hparams hb hr _ =>
    simp [Code.all_isBody hparams.isCode, Code.all_isBody hb.isCode,
      Code.all_isBody (isCode_retPiece hr), limitLines, label, Line.isBody]

theorem FuncBody.labels_nodup {params : List (String × Node)} {r b : Node}
    (h : FuncBody globals params r b body) : body.labels.Nodup := by
  cases h with
  | @intro c ss f d g rc h hparams hb hr _ =>
    have hf : 2 ≤ f.label := hparams.advances.label
    have hg := hb.advances.label
    have := Code.LabelsIn.method hparams.labels_eq_nil (hb.labelsIn.mono hf (Nat.le_refl _))
      (by rw [Code.labels_append, labels_retPiece hr]; rfl :
        (rc ++ limitLines h).labels = []) (by omega)
    simpa using this.nodup

theorem Initialised.isCode (h : Initialised globals items f c g) : c.all Line.isCode := by
  induction h with
  | nil => rfl
  | cons hc _ _ _ ih => simp [hc.isCode, all_isCode_one, ih]

theorem Initialised.labelsIn (h : Initialised globals items f c g) :
    c.LabelsIn f.label g.label := by
  induction h with
  | nil => exact .of_labels_nil rfl
  | cons hc _ hd hi ih =>
    have := hc.advances.label
    have := hi.advances.label
    have := hd.sameCounters.label
    refine (hc.labelsIn.append_nil (by simp)).append ih ?_ ?_ ?_ <;> omega

theorem InitBody.isBody (h : InitBody globals items body) : body.all Line.isBody := by
  cases h with
  | intro hc => simp [Code.all_isBody hc.isCode, limitLines, label, one, Line.isBody]

theorem InitBody.labels_nodup (h : InitBody globals items body) : body.labels.Nodup := by
  cases h with
  | @intro c f hc =>
    have hf : 2 ≤ f.label := hc.advances.label
    have := Code.LabelsIn.method (by rfl : Code.labels [] = []) hc.labelsIn
      (by rfl : (one .ret ++ limitLines f).labels = []) hf
    simpa using this.nodup

/-- The name of a function with the lines of its method. -/
inductive BodyOf (globals : List Symbol) : Node → String × Code → Prop where
  | intro {n ps r b body} : FuncBody globals (methodParams n ps) r b body →
      BodyOf globals (.func n ps r b) (n, body)

theorem Code.methods_flatten {ms : List Code} (h : List.Forall₂ (MethodOf globals) ds ms) :
    List.Forall₂ (BodyOf globals) ds (Code.methods ms.flatten) := by
  induction h with
  | nil => exact .nil
  | cons hm _ ih =>
    cases hm with
    | intro _ hbody =>
      rw [List.flatten_cons, Code.methods_methodCode hbody.isBody]
      exact .cons (.intro hbody) ih

theorem Fields.methods (h : Fields globals ds c items) (d : Code) :
    Code.methods (c ++ d) = Code.methods d := by
  induction h with
  | nil => rfl
  | field _ _ _ _ _ ih => simpa [Code.methods] using ih
  | skip _ _ ih => exact ih

/-- The methods of a class: the one that initialises its fields, then its functions. -/
theorem Compiled.methods (h : Compiled ds c) :
    ∃ fs items init bodies, (∀ d ∈ ds, d.isConst = false) ∧ Fields (globalSymbols ds) ds fs items ∧
      InitBody (globalSymbols ds) items init ∧ c.methods = ("<clinit>", init) :: bodies ∧
      List.Forall₂ (BodyOf (globalSymbols ds)) (ds.filter Node.isFunc) bodies := by
  cases h with
  | @intro fs items init ms hconst hfs hinit hms =>
    refine ⟨fs, items, init, Code.methods ms.flatten, hconst, hfs, hinit, ?_,
      Code.methods_flatten hms⟩
    have hprolog (d : Code) :
        Code.methods (prolog mainClass "java.lang.Object" false ++ d) = Code.methods d := by
      simp [prolog, Code.methods]
    simp only [List.append_assoc]
    rw [hprolog, hfs.methods, Code.methods_methodCode hinit.isBody]

theorem BodyOf.name?_eq {d : Node} {m : String × Code} (h : BodyOf globals d m) :
    d.name? = some m.1 := by
  cases h
  rfl

/-- A program that is generated has a method for each of its functions. -/
theorem Gen.run_methods {w : Workspace} (hds : (Node.program ds).isProgram)
    (hgen : Gen.run (.program ds) = (.ok (), w)) :
    ∃ code init bodies, w.files.lookup (Listing.fileName mainClass) = some (Code.render code) ∧
      code.methods = ("<clinit>", init) :: bodies ∧
      List.Forall₂ (BodyOf (globalSymbols ds)) (ds.filter Node.isFunc) bodies := by
  obtain ⟨code, hcode, hfile⟩ := Gen.run_compiled hds hgen
  obtain ⟨_, _, init, bodies, -, -, -, hmethods, hbodies⟩ := hcode.methods
  exact ⟨code, init, bodies, hfile, hmethods, hbodies⟩

end MiniGoc
