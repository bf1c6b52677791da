import MiniGoc.Proofs.Names

/-!
# Calls that fit

The code generator does not check calls.  It counts for each the parameters of the function
and its result, and relies on the source: a call has as many arguments as the function has
parameters, and a call without a result is not used as a value.  This is what `Node.fits` and
`Node.stmtFits` ask for; sources whose calls have the right number of arguments and whose
expressions are well typed satisfy it.

In such sources an expression adds a value to the operand stack as the frame counts it
(`Coded.gains`), and a statement takes nothing away that was there before it
(`Printed.gains`).
-/

namespace MiniGoc

open Emit

/-- The parameters and the result of the function that a name stands for at the top level. -/
def callee? (globals : List Symbol) (n : String) : Option (List Node × Node) :=
  (Symbol.find? n globals).bind fun s => s.type.funcParts?

namespace Node

mutual

/-- The calls in an expression fit.  The flag says whether its own value is used. -/
def fits (globals : List Symbol) (used : Bool) : Node → Bool
  | cell a is => fits globals true a && !is.isEmpty && allFit globals is
  | field r _ => fits globals true r
  | binary _ l r => fits globals true l && fits globals true r
  | unary _ e => fits globals true e
  | call n as => ((callee? globals n).all fun p =>
    p.1.length == as.length && !(used && p.2.isVoid)) && allFit globals as
  | methodCall r _ as => fits globals true r && allFit globals as
  | arrayLit ds _ v => allFit globals ds && fits globals true v
  | list es => allFit globals es
  | structLit _ es => allFit globals es
  | pair _ e => fits globals true e
  | _ => true

/-- The calls in expressions whose values are used fit. -/
def allFit (globals : List Symbol) : List Node → Bool
  | [] => true
  | e :: es => fits globals true e && allFit globals es

end

attribute [local simp] fits allFit

mutual

/-- The calls in a statement fit. -/
def stmtFits (globals : List Symbol) : Node → Bool
  | var _ _ i | const _ _ i => fits globals true i
  | assign l e => fits globals true l && fits globals true e
  | ret e => fits globals false e
  | call n as => fits globals false (call n as)
  | block ms => stmtsFit globals ms
  | ifElse c y n => fits globals true c && stmtFits globals y && stmtFits globals n
  | _ => true

/-- The calls in the members of a block fit. -/
def stmtsFit (globals : List Symbol) : List Node → Bool
  | [] => true
  | m :: ms => stmtFits globals m && stmtsFit globals ms

end

attribute [local simp] stmtFits stmtsFit

def declFits (globals : List Symbol) : Node → Bool
  | func _ _ _ b => stmtFits globals b
  | var _ _ i | const _ _ i => fits globals true i
  | _ => true

end Node

/-! ## Names of functions

A name of a block gets the type of its value, which may be that of a function.  But a value of
such a type cannot be stored, so there is no code then. -/

/-- Types other than those of functions. -/
def Node.isNoFunction (t : Node) : Bool := t.funcParts?.isNone

variable {t : Node} {ms : List Node} {f g : Frame} {c : Code} {s : Symbol} {env : List Symbol}

theorem Node.isNoFunction_of_bank? {b : Bank} (h : t.bank? = some b) : t.isNoFunction := by
  cases t <;> first | rfl | cases h

/-- The environments inside of functions: the names of functions are those of the top level. -/
abbrev CallEnv (ds : List Node) (env : List Symbol) : Prop :=
  Nested Node.isNoFunction (globalSymbols ds) env

section Callee

variable {ds : List Node} {env : List Symbol} {n : String} {s : Symbol} {ps : List Node} {r : Node}

theorem Nested.find?_eq (henv : CallEnv ds env) (hs : Symbol.find? n env = some s)
    (hparts : s.type.funcParts? = some (ps, r)) :
    Symbol.find? n (globalSymbols ds) = some s := by
  rcases henv n s hs with ⟨-, hno⟩ | hglobal
  · simp [Node.isNoFunction, hparts] at hno
  · exact hglobal

theorem Nested.callee?_eq (henv : CallEnv ds env) (hs : Symbol.find? n env = some s)
    (hparts : s.type.funcParts? = some (ps, r)) :
    callee? (globalSymbols ds) n = some (ps, r) := by
  rw [callee?, henv.find?_eq hs hparts]
  exact hparts

end Callee

/-- The names of a block come from its members. -/
theorem Declared.exists_member {outer ls : List Symbol} {p : Gen.Pass}
    (h : Declared outer p ms f c ls g) (hs : s ∈ ls) :
    s ∈ p.locals ∨ ∃ m ∈ ms, m.introduced? = some s.name := by
  induction h with
  | done => exact .inl hs
  | @take p m ms f n u g s' d c ls h hm _ _ _ ih =>
    rcases ih hs with hs | ⟨m', hm', hname⟩
    · rcases List.mem_append.1 hs with hs | hs
      · exact .inl hs
      · obtain rfl := List.mem_singleton.1 hs
        exact .inr ⟨m, List.mem_cons_self .., hm.introduced?⟩
    · exact .inr ⟨m', List.mem_cons_of_mem _ hm', hname⟩
  | known _ _ _ _ _ _ ih | skip _ _ ih =>
    exact (ih hs).imp_right fun ⟨m, hm, hname⟩ => ⟨m, List.mem_cons_of_mem _ hm, hname⟩

theorem Printed.of_mem {m : Node} (hm : m ∈ ms) (h : Printed env (.members ms) f c g) :
    ∃ f c g, Printed env (.stmt m) f c g := by
  induction ms generalizing f c with
  | nil => cases hm
  | cons m' ms ih =>
    cases h with
    | member hfirst hrest =>
      rcases List.mem_cons.1 hm with rfl | hm
      · exact ⟨_, _, _, hfirst⟩
      · exact ih hm hrest

/-- A member stores a value in the slot of the name that it introduces. -/
theorem Printed.bank?_of_introduced? {m : Node} (h : Printed env (.stmt m) f c g) {n : String}
    (hn : m.introduced? = some n) (hs : Symbol.find? n env = some s) {i : Int}
    (hi : s.home = .slot i) : ∃ b, s.type.bank? = some b := by
  cases h with
  | var hs' _ _ hb | zero hs' _ _ hb | const hs' _ _ hb | assignSlot hs' _ _ hb =>
    cases hn
    cases hs.symm.trans hs'
    exact ⟨_, hb⟩
  | assignStatic hs' hmember =>
    cases hn
    cases hs.symm.trans hs'
    cases hi.symm.trans hmember
  | _ => cases hn

/-- The names of a block that has code are no functions. -/
theorem Declared.isNoFunction {outer ls : List Symbol} {k : Frame} {d : Code}
    (h : Declared outer {} ms f c ls g) (hms : Printed (ls ++ outer) (.members ms) g d k)
    {n : String} (hs : Symbol.find? n ls = some s) : s.type.isNoFunction := by
  obtain ⟨i, hi⟩ := h.slots (by simp) s (Symbol.mem_of_find? hs)
  rcases h.exists_member (Symbol.mem_of_find? hs) with hs' | ⟨m, hm, hname⟩
  · cases hs'
  · obtain ⟨f', c', g', hprinted⟩ := Printed.of_mem hm hms
    rw [Symbol.name_of_find? hs] at hname
    have hfound : Symbol.find? n (ls ++ outer) = some s := by
      rw [Symbol.find?_append, hs]
      rfl
    obtain ⟨b, hb⟩ := hprinted.bank?_of_introduced? hname hfound hi
    exact Node.isNoFunction_of_bank? hb

/-! ## Expressions -/

/-- The calls in a part of an expression fit. -/
def Fragment.Fits (globals : List Symbol) (used : Bool) : Fragment → Prop
  | expr e => e.fits globals used
  | args es | cells _ es | elems _ _ _ _ es | fields _ _ _ es => Node.allFit globals es

/-- How many values a part of an expression adds to the operand stack at least. -/
def Fragment.gain (used : Bool) (t : Node) : Fragment → Nat
  | expr _ => if used || !t.isVoid then 1 else 0
  | args es => es.length
  | _ => 0

theorem TypeOf.depth_le {u : Node} (h : TypeOf env t f u g) : f.depth ≤ g.depth := by
  cases h with
  | type => exact Int.le_refl _
  | value h =>
    cases h <;>
    · simp only [Frame.pushed_depth]
      omega
  | nothing => exact Int.le_refl _

theorem Mixture.Widens.depth {x : Mixture} (h : x.Widens f g) : g.depth = f.depth := by
  cases x with
  | intFloat | floatInt =>
    obtain ⟨k, hk, rfl⟩ := h
    simp [hk.depth]
  | _ =>
    cases h
    rfl

theorem Emit.Compares.depth_le {op : String} {l : Nat} (h : Compares op l t f c g) :
    f.depth ≤ g.depth := by
  cases h with
  | ints hd =>
    simp only [Frame.pushed_depth, hd.depth]
    omega
  | floats hd hd' =>
    simp only [Frame.pushed_depth, hd.depth, hd'.depth]
    omega
  | texts =>
    simp only [Frame.pushed_depth]
    omega
  | other => exact Int.le_refl _

/-- The code of an expression whose calls fit adds a value, as the frame counts it. -/
theorem Coded.gains {ds : List Node} {env : List Symbol} (henv : CallEnv ds env) {part : Fragment}
    {f g : Frame} {c : Code} {t : Node} (h : Coded env part f c t g) {used : Bool}
    (hpart : part.Fits (globalSymbols ds) used) : f.depth + part.gain used t ≤ g.depth := by
  -- What is used adds one value, whatever its type.
  have gain_expr (e t : Node) : (Fragment.expr e).gain true t = 1 := rfl
  have gain_le (e t : Node) (used : Bool) : (Fragment.expr e).gain used t ≤ 1 := by
    simp only [Fragment.gain]
    split <;> omega
  induction h generalizing used with
    simp only [Fragment.Fits, Node.fits, Bool.and_eq_true] at hpart
  | @name n f c t g h =>
    have := gain_le (.id n) t used
    cases h with
    | slot | static =>
      simp only [Frame.pushed_depth]
      omega
  | @cell a is f c t g d u h _ _ iha ihis =>
    have hfirst := iha hpart.1.1
    have hrest := @ihis true hpart.2
    have := gain_le (.cell a is) u used
    rw [gain_expr] at hfirst
    simp only [Fragment.gain] at hrest
    omega
  | @field r n f c rt g es ft t h owner d k _ _ _ ht _ _ hd ih =>
    have hobject := ih hpart
    have := gain_le (.field r n) t used
    have := ht.depth_le
    rw [gain_expr] at hobject
    simp only [Frame.pushed_depth, hd.depth]
    omega
  | @arithmetic op l r f c lt g d rt h x k m _ _ _ _ hw hd ihl ihr =>
    have hl := ihl hpart.1
    have hr := ihr hpart.2
    have := gain_le (.binary op l r) x.type used
    rw [gain_expr] at hl hr
    simp only [Frame.pushed_depth, hd.depth, hw.depth]
    omega
  | @comparison op l r f c lt g d rt h code k _ _ _ hc ihl ihr =>
    have hl := ihl hpart.1
    have hr := ihr hpart.2
    have := gain_le (.binary op l r) .boolType used
    have : h.depth ≤ k.depth := hc.depth_le
    rw [gain_expr] at hl hr
    omega
  | @both l r f c lt g d rt h k _ _ hd ihl ihr | @either l r f c lt g d rt h k _ _ hd ihl ihr =>
    have hl := ihl hpart.1
    have hr := ihr hpart.2
    rw [gain_expr] at hl hr
    simp only [Fragment.gain, Node.isVoid, Bool.not_false, Bool.or_true, if_true,
      Frame.pushed_depth, hd.depth]
    omega
  | @call n as s f c g owner ps r d h hs _ _ hparts _ hd ih =>
    simp only [henv.callee?_eq hs hparts, Option.all_some, Bool.and_eq_true, beq_iff_eq] at hpart
    obtain ⟨⟨harity, hused⟩, has⟩ := hpart
    have hargs := @ih true has
    have hdepth := hd.depth
    simp only [Fragment.gain] at hargs ⊢
    unfold resultFrame
    cases hvoid : r.isVoid with
    | true =>
      have : used = false := by simpa [hvoid] using hused
      simp only [this, Bool.not_true, Bool.or_self, Bool.false_eq_true, if_false, if_true]
      omega
    | false =>
      simp only [Bool.not_false, Bool.or_true, Bool.false_eq_true, if_false, if_true,
        Frame.pushed_depth]
      omega
  | number | decimal | text | truth | nil =>
    simp only [Fragment.gain, Frame.pushed_depth]
    split <;> omega
  | @array d e f c g i h _ _ hd ih =>
    have hsize := @ih true hpart.1
    have := gain_le (.arrayLit [d] e (.list [])) (.arrayType [d] e) used
    simp only [Fragment.gain, List.length_singleton] at hsize
    simp only [Frame.pushed_depth, hd.depth]
    omega
  | @arrayOf d e el es f c g i h k d' m _ _ hd hd' _ ih ih' =>
    have hsize := @ih true hpart.1
    have helems := @ih' true hpart.2
    have := gain_le (.arrayLit [d] e (.list (el :: es))) (.arrayType [d] e) used
    have : k.depth = h.depth + 1 - 1 := hd'.depth
    have := hd.depth
    simp only [Fragment.gain, List.length_singleton] at hsize helems
    simp only [Frame.pushed_depth]
    omega
  | @struct n s owner f g _ _ hd =>
    have := gain_le (.structLit n []) s.type used
    simp only [hd.depth, Frame.pushed_depth]
    omega
  | @structOf n s owner el es b f g k d m _ _ hd _ hd' _ ih =>
    have hfields := @ih true hpart
    have := gain_le (.structLit n (el :: es)) s.type used
    have : k.depth = g.depth - 1 := hd'.depth
    have : g.depth = f.depth + 1 + 1 - 1 := hd.depth
    simp only [Fragment.gain] at hfields
    simp only [Frame.pushed_depth]
    omega
  | noArgs | noElems | noFields | noCells => simp [Fragment.gain]
  | @arg e es f c t g d h _ _ ih ih' =>
    simp only [Node.allFit, Bool.and_eq_true] at hpart
    have hfirst := ih hpart.1
    have hrest := @ih' true hpart.2
    rw [gain_expr] at hfirst
    simp only [Fragment.gain, List.length_cons] at hrest ⊢
    omega
  | @index t i is f c u g e b h d v k _ _ _ hd _ ih ih' =>
    simp only [Node.allFit, Bool.and_eq_true] at hpart
    have hindex := ih hpart.1
    have hrest := @ih' true hpart.2
    rw [gain_expr] at hindex
    simp only [Fragment.gain, Frame.pushed_depth, hd.depth] at hrest ⊢
    omega
  | @elem t e slot i el es f b c u g b' h d k _ _ _ hd _ ih ih' =>
    simp only [Node.allFit, Bool.and_eq_true] at hpart
    have hvalue := ih hpart.1
    have hrest := @ih' true hpart.2
    rw [gain_expr] at hvalue
    simp only [Fragment.gain, Frame.pushed_depth, hd.depth] at hvalue hrest ⊢
    omega
  | @fieldOf t owner slot n el es f b c u g ts ft d h d' k _ _ _ _ _ hd _ ih ih' =>
    simp only [Node.allFit, Node.fits, Bool.and_eq_true] at hpart
    have hvalue := ih hpart.1
    have hrest := @ih' true hpart.2
    rw [gain_expr] at hvalue
    simp only [Fragment.gain, Frame.pushed_depth, hd.depth] at hvalue hrest ⊢
    omega

theorem Coded.value_gains {ds : List Node} (henv : CallEnv ds env) {e : Node}
    (h : Coded env (.expr e) f c t g) (he : e.fits (globalSymbols ds) true) :
    f.depth + 1 ≤ g.depth := h.gains henv he

theorem Coded.args_gains {ds : List Node} (henv : CallEnv ds env) {es : List Node}
    (h : Coded env (.args es) f c t g) (hes : Node.allFit (globalSymbols ds) es) :
    f.depth + es.length ≤ g.depth :=
  @Coded.gains ds env henv _ f g c t h true hes

/-! ## Statements -/

/-- A member that takes a slot has a value, unless its type is written down. -/
theorem Introduces.gains {ds : List Node} {outer ls : List Symbol} (henv : CallEnv ds (ls ++ outer))
    {m : Node} {f g : Frame} {n : String} {u : Node} (h : Introduces outer ls m f n u g)
    (hm : m.stmtFits (globalSymbols ds)) : f.depth ≤ g.depth := by
  cases h with
  | typed _ ht => exact ht.depth_le
  | untyped hc | constant _ hc =>
    have := hc.value_gains henv (by simpa only [Node.stmtFits] using hm)
    omega
  | assigned _ hc =>
    simp only [Node.stmtFits, Bool.and_eq_true] at hm
    have := hc.value_gains henv hm.2
    omega

/-- The first pass over members whose calls fit takes nothing from the operand stack. -/
theorem Declared.gains {ds : List Node} {outer ls : List Symbol} (houter : CallEnv ds outer)
    {p : Gen.Pass} {ms : List Node} {f g : Frame} {c : Code} (h : Declared outer p ms f c ls g)
    (hms : Node.stmtsFit (globalSymbols ds) ms) (hp : ∀ s ∈ p.locals, ∃ i, s.home = .slot i)
    (hls : ∀ n s, Symbol.find? n ls = some s → s.type.isNoFunction) : f.depth ≤ g.depth := by
  induction h with
  | done => exact Int.le_refl _
  | @take p m ms f n u g s d c ls h hm _ _ hrest ih =>
    simp only [Node.stmtsFit, Bool.and_eq_true] at hms
    -- The names so far are the first of the block.
    have henv : CallEnv ds (p.locals ++ outer) := by
      obtain ⟨more, rfl⟩ := hrest.locals_subset
      refine houter.enter fun x s hs => ⟨hp s (Symbol.mem_of_find? hs), hls x s ?_⟩
      simp [Gen.Pass.noting, Symbol.find?_append, hs]
    have hfirst := hm.gains henv hms.1
    have hlater : g.depth ≤ h.depth := by
      refine ih hms.2 (fun s hs => ?_) hls
      rcases List.mem_append.1 hs with hs | hs
      · exact hp s hs
      · obtain rfl := List.mem_singleton.1 hs
        exact ⟨g.index, rfl⟩
    omega
  | known _ _ _ _ _ _ ih | skip _ _ ih =>
    simp only [Node.stmtsFit, Bool.and_eq_true] at hms
    exact ih hms.2 hp hls

theorem Declared.enter {ds : List Node} {env ls : List Symbol} (henv : CallEnv ds env)
    {ms : List Node} {f g k : Frame} {c d : Code} (h : Declared env {} ms f c ls g)
    (hprinted : Printed (ls ++ env) (.members ms) g d k)
    (hms : Node.stmtsFit (globalSymbols ds) ms) : CallEnv ds (ls ++ env) ∧ f.depth ≤ g.depth := by
  have hls : ∀ n s, Symbol.find? n ls = some s → s.type.isNoFunction :=
    fun n s hs => h.isNoFunction hprinted hs
  refine ⟨henv.enter fun n s hs => ⟨?_, hls n s hs⟩, h.gains henv hms (by simp) hls⟩
  exact h.slots (by simp) s (Symbol.mem_of_find? hs)

/-- The calls in statements fit. -/
def Stage.Fits (globals : List Symbol) : Stage → Prop
  | stmt m => m.stmtFits globals
  | members ms => Node.stmtsFit globals ms

theorem retCount_le (h : retPiece t = some c) : retCount t ≤ if t.isVoid then 0 else 1 := by
  cases t <;> simp [retPiece, retCount, Node.isVoid] at h ⊢

/-- Statements whose calls fit take nothing from the operand stack that was there before them. -/
theorem Printed.gains {ds : List Node} {env : List Symbol} {stage : Stage} {f g : Frame} {c : Code}
    (h : Printed env stage f c g) (henv : CallEnv ds env)
    (hstage : stage.Fits (globalSymbols ds)) : f.depth ≤ g.depth := by
  induction h with
  | var _ _ hc _ hd | const _ _ hc _ hd =>
    have := hc.value_gains henv (by simpa only [Stage.Fits, Node.stmtFits] using hstage)
    have := hd.depth
    omega
  | zero _ _ _ _ hd =>
    simp only [hd.depth, Frame.pushed_depth]
    omega
  | assignSlot _ _ hc _ hd | assignStatic _ _ hc _ hd =>
    simp only [Stage.Fits, Node.stmtFits, Bool.and_eq_true] at hstage
    have := hc.value_gains henv hstage.2
    have := hd.depth
    omega
  | assignCell ha his _ ht _ hd he =>
    simp only [Stage.Fits, Node.stmtFits, Node.fits, Bool.and_eq_true] at hstage
    obtain ⟨⟨⟨harray, hempty⟩, hindices⟩, hvalue⟩ := hstage
    have := ha.value_gains henv harray
    have := his.args_gains henv hindices
    have := he.value_gains henv hvalue
    have := ht.depth_le
    have := hd.depth
    have := List.length_pos_iff.2 (by simpa using hempty)
    omega
  | assignField ha _ _ ht _ _ hd he =>
    simp only [Stage.Fits, Node.stmtFits, Node.fits, Bool.and_eq_true] at hstage
    have := ha.value_gains henv hstage.1
    have := he.value_gains henv hstage.2
    have := ht.depth_le
    have := hd.depth
    omega
  | block hls hms ih =>
    obtain ⟨henv', hdepth⟩ := hls.enter henv hms hstage
    exact Int.le_trans hdepth (ih henv' hstage)
  | @ifOnly env e y f c t g h d k he hd _ ih =>
    simp only [Stage.Fits, Node.stmtFits, Bool.and_eq_true] at hstage
    have := he.value_gains henv hstage.1.1
    have : h.depth = g.depth - 1 := hd.depth
    have := ih henv hstage.1.2
    omega
  | @ifElse env e y n f c t g h d k d' m he hd _ _ _ ih ih' =>
    simp only [Stage.Fits, Node.stmtFits, Bool.and_eq_true] at hstage
    have := he.value_gains henv hstage.1.1
    have : h.depth = g.depth - 1 := hd.depth
    have := ih henv hstage.1.2
    have := ih' henv hstage.2
    omega
  | breakLoop | continueLoop | leave | noMembers => exact Int.le_refl _
  | @ret env e f c t g d h hc hr hd =>
    have hvalue := hc.gains henv hstage
    have hcount := retCount_le hr
    have := hd.depth
    simp only [Fragment.gain, Bool.false_or] at hvalue
    cases hvoid : t.isVoid with
    | true =>
      simp only [hvoid, if_true] at hcount
      omega
    | false =>
      simp only [hvoid, Bool.not_false, if_true, Bool.false_eq_true, if_false] at hcount hvalue
      omega
  | call hc =>
    have := hc.gains henv hstage
    omega
  | member _ _ ih ih' =>
    simp only [Stage.Fits, Node.stmtsFit, Bool.and_eq_true] at hstage
    exact Int.le_trans (ih henv hstage.1) (ih' henv hstage.2)

end MiniGoc
