import MiniGoc.Proofs.Demands
import MiniGoc.Proofs.Moments
import MiniGoc.Proofs.Written

/-!
# The slots of a method

While a method is generated, the slots of the names in sight and those of literals are pairwise
distinct and below the next slot (`Watch.run_mirrors`).  A method that has been generated says how
many slots it has.  That number is the highest that the next slot has been, so all slots that its
lines read, write or name are below it (`slots_apart_and_bounded`).

The bound is carried through the code by the frame: what an expression or a statement refers to
is below the highest next slot of the frame after it, if the slots of the environment are below
that of the frame before it (`Coded.slotsWithin`, `Printed.slotsWithin`).
-/

namespace MiniGoc

open Emit

/-! ## Slots in code -/

/-- The slot that a line reads, writes or names. -/
def Line.slot? : Line → Option Operand
  | instr (.load _ i) | instr (.store _ i) => some (.number i)
  | var slot _ _ _ _ => some slot
  | _ => none

/-- The number of slots that a line asks for. -/
def Line.localsLimit? : Line → Option Operand
  | limitLocals n => some n
  | _ => none

namespace Code

/-- The slots that lines read, write or name. -/
def slots (c : Code) : List Operand := c.filterMap Line.slot?

/-- The numbers of slots that lines ask for. -/
def localsLimits (c : Code) : List Operand := c.filterMap Line.localsLimit?

@[simp] theorem slots_append (c d : Code) : slots (c ++ d) = slots c ++ slots d :=
  List.filterMap_append

@[simp] theorem localsLimits_append (c d : Code) :
    localsLimits (c ++ d) = localsLimits c ++ localsLimits d := List.filterMap_append

/-- All slots are numbers from zero up to a bound. -/
def SlotsWithin (c : Code) (bound : Int) : Prop :=
  ∀ o ∈ c.slots, ∃ i, o = .number i ∧ 0 ≤ i ∧ i < bound

/-- A method without code, or one that says how many slots it has, and has no others. -/
def SlotsFit (body : Code) : Prop :=
  body = [] ∨ ∃ bound, body.localsLimits = [.number bound] ∧ body.SlotsWithin bound

namespace SlotsWithin

variable {c d : Code} {bound bound' : Int}

theorem of_slots_nil (h : c.slots = []) : c.SlotsWithin bound := by
  intro o ho
  rw [h] at ho
  cases ho

theorem append (hc : c.SlotsWithin bound) (hd : d.SlotsWithin bound) :
    Code.SlotsWithin (c ++ d) bound := by
  intro o ho
  rw [slots_append] at ho
  rcases List.mem_append.1 ho with ho | ho
  · exact hc o ho
  · exact hd o ho

theorem mono (hc : c.SlotsWithin bound) (hb : bound ≤ bound') : c.SlotsWithin bound' := by
  intro o ho
  obtain ⟨i, rfl, hi, hib⟩ := hc o ho
  exact ⟨i, rfl, hi, Int.lt_of_lt_of_le hib hb⟩

theorem line {l : Line} {i : Int} (hl : l.slot? = some (.number i)) (hi : 0 ≤ i)
    (hib : i < bound) : Code.SlotsWithin [l] bound := by
  intro o ho
  have hslots : slots [l] = [.number i] := by simp [slots, hl]
  rw [hslots] at ho
  exact ⟨i, List.mem_singleton.1 ho, hi, hib⟩

end SlotsWithin

end Code

/-- All slots of an environment are below a bound. -/
def EnvWithin (env : List Symbol) (bound : Int) : Prop :=
  ∀ s ∈ env, ∀ i, s.home = .slot i → 0 ≤ i ∧ i < bound

variable {env : List Symbol} {bound : Int} {f g : Frame} {c body : Code} {ds : List Node}
  {params : List (String × Node)}

theorem EnvWithin.mono {bound' : Int} (h : EnvWithin env bound) (hb : bound ≤ bound') :
    EnvWithin env bound' := by
  intro s hs i hi
  have := h s hs i hi
  omega

theorem EnvWithin.append {env' : List Symbol} (h : EnvWithin env bound)
    (h' : EnvWithin env' bound) : EnvWithin (env ++ env') bound := by
  intro s hs
  rcases List.mem_append.1 hs with hs | hs
  · exact h s hs
  · exact h' s hs

theorem EnvWithin.snoc {i : Int} {n : String} {u : Node} (h : EnvWithin env bound) (hi : 0 ≤ i)
    (hib : i < bound) : EnvWithin (env ++ [Symbol.localVar n u i]) bound := by
  refine h.append ?_
  intro s hs j hj
  obtain rfl := List.mem_singleton.1 hs
  cases hj
  exact ⟨hi, hib⟩

/-- The slots of an environment are below those that a frame will give out. -/
structure Covers (env : List Symbol) (f : Frame) : Prop where
  names : EnvWithin env f.maxIndex
  index : 0 ≤ f.index

theorem Covers.later {env : List Symbol} {f g : Frame} (h : Covers env f) (hg : f.Advances g) :
    Covers env g where
  names := h.names.mono hg.maxIndex
  index := Int.le_trans h.index hg.index

/-! ## Expressions and statements -/

theorem Frame.index_lt_maxIndex_indexed (f : Frame) : f.index < f.indexed.maxIndex :=
  Int.lt_of_lt_of_le (Int.lt_succ _) (Int.le_max_right _ _)

namespace Code.SlotsWithin

variable {bound : Int}

variable {i : Instr}

theorem plain (hi : (Line.instr i).slot? = none) :
    Code.SlotsWithin (one i) bound := .of_slots_nil (by simp [Code.slots, one, hi])

theorem constant {i : Instr} (h : i.isConstant) : Code.SlotsWithin (one i) bound :=
  plain (by cases i <;> first | rfl | simp [Instr.isConstant] at h)

theorem makesArray (h : i.makesArray) : Code.SlotsWithin (one i) bound :=
  plain (by cases i <;> first | rfl | simp [Instr.makesArray] at h)

theorem operator (h : i.isOperator) : Code.SlotsWithin (one i) bound :=
  plain (by cases i <;> first | rfl | simp [Instr.isOperator] at h)

theorem compares {op : String} {l : Nat} {t : Node} {f g : Frame} {c : Code}
    (h : Compares op l t f c g) : c.SlotsWithin bound := by
  have test {make : Cond → Operand → Instr} (hmake : ∀ c o, (Line.instr (make c o)).slot? = none)
      (o : Operand) : Code.SlotsWithin (failJump make op o) bound := by
    unfold failJump
    split
    · exact plain (hmake _ _)
    · exact .of_slots_nil rfl
  have ends : Code.SlotsWithin (outcomes l (l + 1)) bound := .of_slots_nil rfl
  cases h with
  | ints => exact (test (fun _ _ => rfl) _).append ends
  | floats => exact ((plain rfl).append (test (fun _ _ => rfl) _)).append ends
  | texts => exact ((plain rfl).append (test (fun _ _ => rfl) _)).append ends
  | other => exact .of_slots_nil rfl

end Code.SlotsWithin

/-- The slot of the literal that a part fills. -/
def Fragment.slot? : Fragment → Option Int
  | elems _ _ slot _ _ | fields _ _ slot _ => some slot
  | _ => none

/-- The code of an expression refers to slots of the environment, and to those it takes. -/
theorem Coded.slotsWithin {part : Fragment} {t : Node} (h : Coded env part f c t g)
    (hf : Covers env f) (hslot : ∀ i, part.slot? = some i → 0 ≤ i ∧ i < f.maxIndex) :
    c.SlotsWithin g.maxIndex := by
  induction h with
  | name h =>
    cases h with
    | slot hn hs _ =>
      obtain ⟨hi, hib⟩ := hf.names _ (Symbol.mem_of_find? hn) _ hs
      exact .line rfl hi hib
    | static => exact .plain rfl
  | cell ha his iha ihis =>
    exact ((iha hf nofun).mono his.advances.maxIndex).append (ihis (hf.later ha.advances) nofun)
  | field hr _ _ ht _ _ hd ih =>
    have rest := (ht.sameCounters.advances.drops hd).pushed
    exact ((ih hf nofun).mono rest.maxIndex).append (.plain rfl)
  | @arithmetic op l r f c lt g d rt h x k m _ hl hr _ hw hd ihl ihr =>
    have rest : h.Advances m.pushed := (hw.sameCounters.advances.drops hd).pushed
    have left := (ihl hf nofun).mono (hr.advances.trans rest).maxIndex
    have right := (ihr (hf.later hl.advances) nofun).mono rest.maxIndex
    refine Code.SlotsWithin.append ?_ (.operator (isOperator_arithmeticInstr op x.type))
    cases x with
    | apart => exact .of_slots_nil rfl
    | intFloat => exact (left.append (.plain rfl)).append right
    | floatInt => exact (left.append right).append (.plain rfl)
    | ints | texts | floats => exact left.append right
  | @comparison op l r f c lt g d rt h code k _ hl hr hc ihl ihr =>
    have rest : h.Advances k := (h.advances_labelled 2).trans hc.sameCounters.advances
    exact (((ihl hf nofun).mono (hr.advances.trans rest).maxIndex).append
      ((ihr (hf.later hl.advances) nofun).mono rest.maxIndex)).append (.compares hc)
  | both hl hr hd ihl ihr | either hl hr hd ihl ihr =>
    have rest := ((Frame.Advances.refl _).drops hd).pushed
    exact (((ihl hf nofun).mono (hr.advances.trans rest).maxIndex).append
      ((ihr (hf.later hl.advances) nofun).mono rest.maxIndex)).append (.plain rfl)
  | @call n as s f c g owner ps r d h _ _ _ _ _ hd ih =>
    have rest : g.Advances (resultFrame h r) :=
      ((Frame.Advances.refl g).drops hd).trans (sameCounters_resultFrame h r).advances
    exact ((ih hf nofun).mono rest.maxIndex).append (.plain rfl)
  | number h | text h | truth _ h => exact .constant (isConstant_of_intInstr? h)
  | decimal | nil => exact .plain rfl
  | array _ hi hd ih =>
    have rest := ((Frame.Advances.refl _).drops hd).pushed
    exact ((ih hf nofun).mono rest.maxIndex).append (.makesArray (makesArray_of_arrayInstr? hi))
  | @arrayOf d e el es f c g i h k d' m hds hi hd hd' hes ih ih' =>
    have made : g.Advances h.pushed := ((Frame.Advances.refl g).drops hd).pushed
    have saved : h.pushed.indexed.Advances k := (Frame.Advances.refl _).drops hd'
    have rest : k.Advances m.pushed := hes.advances.pushed
    -- The slot of the literal, which its elements refer to.
    have hindex : 0 ≤ h.index := (hf.later (hds.advances.trans made)).index
    have hlt : h.index < k.maxIndex :=
      Int.lt_of_lt_of_le h.pushed.index_lt_maxIndex_indexed saved.maxIndex
    have slot {i : Instr} (hi : (Line.instr i).slot? = some (.number h.index)) :
        Code.SlotsWithin (one i) m.pushed.maxIndex :=
      .line hi hindex (Int.lt_of_lt_of_le hlt rest.maxIndex)
    have before : f.Advances k :=
      ((hds.advances.trans made).trans (Frame.advances_indexed _)).trans saved
    have all : g.Advances m.pushed :=
      ((made.trans (Frame.advances_indexed _)).trans saved).trans rest
    exact ((((((ih hf nofun).mono all.maxIndex).append
      (.makesArray (makesArray_of_arrayInstr? hi))).append (slot rfl)).append
      ((ih' (hf.later before) (by rintro _ ⟨⟩; exact ⟨hindex, hlt⟩)).mono
        (Frame.Advances.refl m).pushed.maxIndex)).append (slot rfl))
  | struct => exact .of_slots_nil rfl
  | @structOf n s owner el es b f g k d m _ _ hd _ hd' hes ih =>
    have made : f.Advances g := (Frame.Advances.refl f).pushed.pushed.drops hd
    have saved : g.indexed.Advances k := (Frame.Advances.refl _).drops hd'
    have hindex : 0 ≤ g.index := (hf.later made).index
    have hlt : g.index < k.maxIndex :=
      Int.lt_of_lt_of_le g.index_lt_maxIndex_indexed saved.maxIndex
    have slot {i : Instr} (hi : (Line.instr i).slot? = some (.number g.index)) :
        Code.SlotsWithin (one i) m.pushed.maxIndex :=
      .line hi hindex (Int.lt_of_lt_of_le hlt hes.advances.pushed.maxIndex)
    have before : f.Advances k := (made.trans (Frame.advances_indexed _)).trans saved
    exact (((Code.SlotsWithin.of_slots_nil rfl).append (slot rfl)).append
      ((ih (hf.later before) (by rintro _ ⟨⟩; exact ⟨hindex, hlt⟩)).mono
        (Frame.Advances.refl m).pushed.maxIndex)).append (slot rfl)
  | noArgs | noCells | noElems | noFields => exact .of_slots_nil rfl
  | arg he hes ih ih' =>
    exact ((ih hf nofun).mono hes.advances.maxIndex).append (ih' (hf.later he.advances) nofun)
  | index hi _ _ hd his ih ih' =>
    have between := ((Frame.Advances.refl _).drops hd).pushed
    exact (((ih hf nofun).mono (between.trans his.advances).maxIndex).append (.plain rfl)).append
      (ih' (hf.later (hi.advances.trans between)) nofun)
  | @elem t e slot i el es f b c u g b' h d k _ hel _ hd hes ih ih' =>
    have between : g.Advances h := (Frame.Advances.refl g).drops hd
    have before : f.Advances h := hel.advances.ofPushed.ofPushed.trans between
    obtain ⟨hi, hib⟩ := hslot slot rfl
    have load : Code.SlotsWithin (one (.load b slot)) k.maxIndex :=
      .line rfl hi (Int.lt_of_lt_of_le hib (before.trans hes.advances).maxIndex)
    have value := ih (hf.later (Frame.Advances.refl f).pushed.pushed) nofun
    have rest := ih' (hf.later before) (by
      rintro _ ⟨⟩
      exact ⟨hi, Int.lt_of_lt_of_le hib before.maxIndex⟩)
    exact (((load.append (.constant (isConstant_intConstant _))).append
      (value.mono (between.trans hes.advances).maxIndex)).append (.plain rfl)).append rest
  | @fieldOf t owner slot n el es f b c u g ts ft d h d' k _ hel _ _ _ hdrops hes ih ih' =>
    have between : g.Advances h := (Frame.Advances.refl g).drops hdrops
    have before : f.Advances h := hel.advances.ofPushed.trans between
    obtain ⟨hi, hib⟩ := hslot slot rfl
    have load : Code.SlotsWithin (one (.load b slot)) k.maxIndex :=
      .line rfl hi (Int.lt_of_lt_of_le hib (before.trans hes.advances).maxIndex)
    have value := ih (hf.later (Frame.Advances.refl f).pushed) nofun
    have rest := ih' (hf.later before) (by
      rintro _ ⟨⟩
      exact ⟨hi, Int.lt_of_lt_of_le hib before.maxIndex⟩)
    exact ((load.append (value.mono (between.trans hes.advances).maxIndex)).append
      (.plain rfl)).append rest

/-- The first pass over a block: its lines, and the names it gives slots to. -/
theorem Declared.slotsWithin {outer ls : List Symbol} {p : Gen.Pass} {ms : List Node}
    (h : Declared outer p ms f c ls g) (hlocals : EnvWithin p.locals f.maxIndex)
    (hlast : ∀ i, p.slot? = some i → 0 ≤ i ∧ i < f.maxIndex) (hf : 0 ≤ f.index) :
    c.SlotsWithin g.maxIndex ∧ EnvWithin ls g.maxIndex := by
  induction h with
  | done => exact ⟨.of_slots_nil rfl, hlocals⟩
  | @take p m ms f n u g s d c ls h hm _ _ hls ih =>
    have hg : 0 ≤ g.index := Int.le_trans hf hm.advances.index
    have hlt := g.index_lt_maxIndex_indexed
    have hbound : f.maxIndex ≤ g.indexed.maxIndex :=
      Int.le_trans hm.advances.maxIndex (Frame.advances_indexed g).maxIndex
    have rest := ih ((hlocals.mono hbound).snoc hg hlt)
      (fun i hi => by cases hi; exact ⟨hg, hlt⟩)
      (Int.le_trans hg (Frame.advances_indexed g).index)
    have line : Code.SlotsWithin [slotLine s g.index n d] h.maxIndex :=
      .line rfl hg (Int.lt_of_lt_of_le hlt hls.advances.maxIndex)
    exact ⟨line.append rest.1, rest.2⟩
  | @known p n e ms f x slot u s d c ls h _ hslot _ _ _ hls ih =>
    have rest := ih hlocals hlast hf
    obtain ⟨hi, hib⟩ := hlast slot hslot
    have line : Code.SlotsWithin [slotLine s slot n d] h.maxIndex :=
      .line rfl hi (Int.lt_of_lt_of_le hib hls.advances.maxIndex)
    exact ⟨line.append rest.1, rest.2⟩
  | skip _ _ ih => exact ih hlocals hlast hf

/-- The code of statements refers to slots of the environment, and to those it takes. -/
theorem Printed.slotsWithin {stage : Stage} (h : Printed env stage f c g) (hf : Covers env f) :
    c.SlotsWithin g.maxIndex := by
  have expr {env : List Symbol} {e t : Node} {f g g' : Frame} {c : Code}
      (h : Coded env (.expr e) f c t g) (hf : Covers env f) (hg : g.Advances g') :
      c.SlotsWithin g'.maxIndex := (h.slotsWithin hf nofun).mono hg.maxIndex
  have label (o : Operand) {b : Int} : Code.SlotsWithin (Emit.label o) b := .of_slots_nil rfl
  -- A value is stored in the slot of a name.
  have store {env : List Symbol} {s : Symbol} {n : String} {j : Int} {f : Frame} {bank : Bank}
      (hn : Symbol.find? n env = some s) (hs : s.home = .slot j) (hf : Covers env f) :
      Code.SlotsWithin (one (.store bank j)) f.maxIndex := by
    obtain ⟨hj, hjb⟩ := hf.names s (Symbol.mem_of_find? hn) j hs
    exact .line rfl hj hjb
  induction h with
  | var hn hs hc _ hd | const hn hs hc _ hd | assignSlot hn hs hc _ hd =>
    have last := (Frame.Advances.refl _).drops hd
    exact (expr hc hf last).append (store hn hs (hf.later (hc.advances.trans last)))
  | zero hn hs hz _ hd =>
    have last := (Frame.Advances.refl _).pushed.drops hd
    exact (Code.SlotsWithin.constant (isConstant_of_zeroInstr? hz)).append
      (store hn hs (hf.later last))
  | assignStatic _ _ hc _ hd =>
    exact (expr hc hf ((Frame.Advances.refl _).drops hd)).append (.plain rfl)
  | assignCell ha his _ ht _ hd he =>
    have between := ht.sameCounters.advances.drops hd
    have before := (ha.advances.trans his.advances).trans between
    have indices := his.slotsWithin (hf.later ha.advances) nofun
    exact (((expr ha hf ((his.advances.trans between).trans he.advances)).append
      (indices.mono (between.trans he.advances).maxIndex)).append
      (expr he (hf.later before) (.refl _))).append (.plain rfl)
  | assignField ha _ _ ht _ _ hd he =>
    have between := ht.sameCounters.advances.drops hd
    exact ((expr ha hf (between.trans he.advances)).append
      (expr he (hf.later (ha.advances.trans between)) (.refl _))).append (.plain rfl)
  | @block env ms f c ls g d h hls hmembers ih =>
    obtain ⟨lines, hlocals⟩ := hls.slotsWithin (by simp [EnvWithin]) (by simp) hf.index
    have outer : EnvWithin env g.maxIndex := hf.names.mono hls.advances.maxIndex
    have inner := ih ⟨hlocals.append outer, Int.le_trans hf.index hls.advances.index⟩
    exact (((label _).append (lines.mono hmembers.advances.maxIndex)).append inner).append
      (label _)
  | @ifOnly env e y f c t g h d k he hd hy ih =>
    have test := (g.advances_labelled 1).drops hd
    exact (((expr he hf (test.trans hy.advances)).append (.plain rfl)).append
      (ih (hf.later (he.advances.trans test)))).append (label _)
  | @ifElse env e y n f c t g h d k d' m he hd _ hy hn ih ih' =>
    have test := (g.advances_labelled 2).drops hd
    have before := he.advances.trans test
    have yes := (ih (hf.later before)).mono hn.advances.maxIndex
    have no := ih' (hf.later (before.trans hy.advances))
    exact ((((((expr he hf ((test.trans hy.advances).trans hn.advances)).append
      (.plain rfl)).append yes).append (.plain rfl)).append (label _)).append no).append (label _)
  | breakLoop | continueLoop | leave => exact .plain rfl
  | @ret env e f c t g d h hc hd hdrops =>
    refine (expr hc hf ((Frame.Advances.refl _).drops hdrops)).append ?_
    cases t <;> simp [retPiece] at hd <;> subst hd <;> exact .of_slots_nil rfl
  | call | noMembers => exact .of_slots_nil rfl
  | member hm hms ih ih' =>
    exact ((ih hf).mono hms.advances.maxIndex).append (ih' (hf.later hm.advances))

/-! ## Methods -/

theorem Params.slotsWithin {ps : List (String × Node)} {ss : List Symbol} (h : Params ps f c ss g)
    (hf : 0 ≤ f.index) : c.SlotsWithin g.maxIndex ∧ EnvWithin ss g.maxIndex := by
  induction h with
  | nil => exact ⟨.of_slots_nil rfl, by simp [EnvWithin]⟩
  | @cons n t ps f s d c ss g _ _ hps ih =>
    obtain ⟨lines, names⟩ := ih (Int.le_trans hf (Frame.advances_indexed f).index)
    have hlt : f.index < g.maxIndex :=
      Int.lt_of_lt_of_le f.index_lt_maxIndex_indexed hps.advances.maxIndex
    have line : Code.SlotsWithin [slotLine s f.index n d] g.maxIndex := .line rfl hf hlt
    have first : EnvWithin ([] ++ [Symbol.localVar n t f.index]) g.maxIndex :=
      EnvWithin.snoc (by simp [EnvWithin]) hf hlt
    exact ⟨line.append lines, first.append names⟩

theorem globalSymbols_within (ds : List Node) (bound : Int) :
    EnvWithin (globalSymbols ds) bound := by
  intro s hs i hi
  exact absurd hi (globalSymbols_home hs i)

theorem Initialised.slotsWithin {globals : List Symbol} {items : List (Symbol × Node)}
    (h : Initialised globals items f c g) (hglobals : ∀ bound, EnvWithin globals bound)
    (hf : 0 ≤ f.index) : c.SlotsWithin g.maxIndex := by
  induction h with
  | nil => exact .of_slots_nil rfl
  | cons hc _ hd hrest ih =>
    have between := (Frame.Advances.refl _).drops hd
    have first := hc.slotsWithin ⟨hglobals _, hf⟩ nofun
    exact ((first.mono (between.trans hrest.advances).maxIndex).append (.of_slots_nil rfl)).append
      (ih (Int.le_trans hf (hc.advances.trans between).index))

/-- A method ends with its limits, and asks for slots nowhere else. -/
theorem Code.slotsFit_of_limits (hc : c.all Line.isCode) (hslots : c.SlotsWithin f.maxIndex) :
    Code.SlotsFit (c ++ limitLines f) := by
  have hlimits : c.localsLimits = [] := by
    refine List.filterMap_eq_nil_iff.2 fun l hl => ?_
    have := List.all_eq_true.1 hc l hl
    cases l <;> first | rfl | simp [Line.isCode] at this
  refine .inr ⟨f.maxIndex, ?_, hslots.append (.of_slots_nil rfl)⟩
  rw [Code.localsLimits_append, hlimits]
  rfl

theorem FuncBody.slotsFit {r b : Node} (h : FuncBody (globalSymbols ds) params r b body) :
    body.SlotsFit := by
  cases h with
  | @intro c ss f d g rc h hparams hb hr hdrops =>
    obtain ⟨lines, names⟩ := hparams.slotsWithin (Int.le_refl 0)
    have inside := hb.slotsWithin
      ⟨names.append (globalSymbols_within ds _), hparams.advances.index⟩
    have last : f.Advances h := hb.advances.drops hdrops
    have result : rc.slots = [] := by
      cases r <;> simp [retPiece] at hr <;> subst hr <;> rfl
    refine Code.slotsFit_of_limits ?_ (((((Code.SlotsWithin.of_slots_nil rfl).append
      (lines.mono last.maxIndex)).append
      (inside.mono ((Frame.Advances.refl g).drops hdrops).maxIndex)).append
      (.of_slots_nil rfl)).append (.of_slots_nil result))
    simp [hparams.isCode, hb.isCode, isCode_retPiece hr, label, Line.isCode]

theorem InitBody.slotsFit {items : List (Symbol × Node)}
    (h : InitBody (globalSymbols ds) items body) : body.SlotsFit := by
  cases h with
  | @intro c f hc =>
    refine Code.slotsFit_of_limits ?_ ((((Code.SlotsWithin.of_slots_nil rfl).append
      (hc.slotsWithin (globalSymbols_within ds) (Int.le_refl 0))).append
      (.of_slots_nil rfl)).append (.of_slots_nil rfl))
    simp [hc.isCode, label, one, Line.isCode]

theorem constructorBody_slotsFit (type : String) : (constructorBody type).SlotsFit := by
  refine .inr ⟨1, rfl, ?_⟩
  intro o ho
  have hslots : (constructorBody type).slots = [.number 0, .number 0] := rfl
  rw [hslots] at ho
  exact ⟨0, by simpa using ho, by decide⟩

/-- The lines at the start of a method that name its parameters, each with the slot of its
place. -/
def ParamLines (params : List (String × Node)) (body : Code) : Prop :=
  ∀ (k : Nat) (n : String) (t : Node), params[k]? = some (n, t) → ∃ d : String,
    t.descriptor = .ok d ∧ body[k + 1]? = some (.var (.number k) n d (.ofNat 0) (.ofNat 1))

theorem Params.getElem? {ps : List (String × Node)} {code : Code} {ss : List Symbol}
    (h : Params ps f code ss g) {s : Frame.Scope} (hs : f.scopes.head? = some s) {k : Nat}
    {n : String} {t : Node} (hk : ps[k]? = some (n, t)) :
    ∃ d, t.descriptor = .ok d ∧ code[k]? = some (slotLine s (f.index + k) n d) := by
  induction h generalizing k with
  | nil => simp at hk
  | @cons n' t' ps f s' d c ss g hs' hd _ ih =>
    cases hs.symm.trans hs'
    cases k with
    | zero =>
      cases hk
      exact ⟨d, hd, by simp⟩
    | succ k =>
      obtain ⟨d', hd', hc⟩ := ih hs (by simpa using hk)
      refine ⟨d', hd', ?_⟩
      have hindex : f.indexed.index + (k : Int) = f.index + ((k + 1 : Nat) : Int) := by
        simp only [Frame.indexed]
        omega
      rw [List.getElem?_cons_succ, hc, hindex]

theorem FuncBody.paramLines {globals : List Symbol} {r b : Node}
    (h : FuncBody globals params r b body) : ParamLines params body := by
  cases h with
  | @intro c ss f d g rc h hparams _ _ _ =>
    intro k n t hk
    obtain ⟨d', hd', hc⟩ := hparams.getElem? rfl hk
    refine ⟨d', hd', ?_⟩
    have hfirst : Frame.ofMethod.index + (k : Int) = k := Int.zero_add _
    rw [hfirst] at hc
    obtain ⟨hlt, -⟩ := List.getElem?_eq_some_iff.1 hc
    simp only [label, List.append_assoc, List.cons_append, List.nil_append,
      List.getElem?_cons_succ]
    rw [List.getElem?_append_left hlt, hc]
    rfl

/-- The method of a function in the class of the program. -/
def Node.MethodLines (d : Node) (body : Code) : Prop :=
  match d with
  | func n ps _ _ => ParamLines (methodParams n ps) body
  | _ => False

/-- The generator can be watched.  At each of its calls, the slots of the names in sight and those
taken for literals are pairwise distinct and below the next slot, and a method starts with its
parameters in the first slots, in their order.  So in every file, the slots that a method reads,
writes or names are below the number of slots it asks for. -/
theorem slots_apart_and_bounded {ds : List Node} (hds : (Node.program ds).isProgram)
    (hloops : ds.all Node.hasLoopTreesInside) :
    ((Watch.run ds).1, (Watch.run ds).2.work) = Gen.run (.program ds) ∧
      (∀ v ∈ (Watch.run ds).2.seen, Apart (v.temps ++ Symbol.slots v.names) v.index ∧
        ∀ params, v.params? = some params →
          v.names = paramSymbols 0 params ++ globalSymbols ds) ∧
      ∀ w, Gen.run (.program ds) = (.ok (), w) →
        (w.files = w.written.map fun l => (l.file, l.code.render)) ∧
        (∀ l ∈ w.written, ∀ body ∈ l.code.bodies, body.SlotsFit) ∧
        w.files.lookup (Listing.fileName mainClass) = some w.current.code.render ∧
        List.Forall₂ Node.MethodLines (ds.filter Node.isFunc) w.current.code.bodies.tail := by
  obtain ⟨same, clear⟩ := Watch.run_mirrors hds hloops
  refine ⟨same, fun v hv => ⟨(clear v hv).apart, (clear v hv).names⟩, fun w hgen => ?_⟩
  have holds := Gen.run_holds hds hgen
  refine ⟨Gen.run_files hds hgen, Gen.run_bodies hds hgen (.inl rfl) constructorBody_slotsFit
    (fun items body _ h => h.slotsFit) ?_, ?_, ?_⟩
  · intro d _ m hm
    cases hm with
    | intro h => exact h.slotsFit
  · rw [holds.files, Workspace.listings, Listing.write, List.foldl_append, ← holds.name]
    exact Gen.lookup_setFile _ _ _
  · obtain ⟨items, init, bodies, -, -, hbodies, hfuncs⟩ := holds.main.bodies
    rw [hbodies, List.tail_cons]
    refine hfuncs.imp ?_
    rintro d body ⟨n, hm⟩
    cases hm with
    | intro h => exact h.paramLines

/-- An array literal of two elements. -/
def pairLiteral : Node :=
  .arrayLit [.intLit (.int 2)] .intType (.list [.intLit (.int 1), .id "g"])

/-- The members of a block: a literal is stored, and another block declares a name. -/
def crowdedMembers : List Node :=
  [.var "a" (.arrayType [.intLit (.int 2)] .intType) pairLiteral,
   .ifElse (.binary "<" (.id "g") (.intLit (.int 2))) (.block [.var "b" .intType (.id "g")]) .none]

/-- A field with an initialiser, a function with parameters, and a main function with names and
literals in two blocks. -/
def crowded : List Node :=
  [.var "g" .intType (.intLit (.int 1)),
   .func "f" [.param "x" .intType, .param "y" .floatType] .voidType
     (.block [.var "z" .floatType (.id "y")]),
   .func "main" [] .voidType (.block crowdedMembers)]

/-- One of the sights in `crowded` has a literal of the main function being filled. -/
theorem slots_apart_and_bounded_crowded :
    ([2], [1, 0], 3) ∈ ((Watch.run crowded).2.seen.map fun v =>
      (v.temps, Symbol.slots v.names, v.index)) ∧
    ((Watch.run crowded).2.seen.filterMap fun v => v.params?.map fun params =>
      (params.map Prod.fst, Symbol.slots v.names)) =
        [([], []), (["x", "y"], [0, 1]), (["args"], [0])] ∧
    (∀ v ∈ (Watch.run crowded).2.seen, Apart (v.temps ++ Symbol.slots v.names) v.index) ∧
    ((Gen.run (.program crowded)).2.current.code.bodies.map fun body =>
      (body.localsLimits, body.slots.length)) =
        [([.number 0], 0), ([.number 3], 5), ([.number 4], 9)] ∧
    (∀ l ∈ (Gen.run (.program crowded)).2.written, ∀ body ∈ l.code.bodies, body.SlotsFit) ∧
    List.Forall₂ Node.MethodLines (crowded.filter Node.isFunc)
      (Gen.run (.program crowded)).2.current.code.bodies.tail := by
  have main := @slots_apart_and_bounded crowded (by decide) (by decide)
  obtain ⟨-, fit, -, params⟩ := main.2.2 _ (Gen.run_eq_of_isOk (by decide +kernel))
  exact ⟨by decide +kernel, by decide +kernel, fun v hv => (main.2.1 v hv).1, by decide +kernel,
    fit, params⟩

end MiniGoc
