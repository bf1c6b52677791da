import MiniGoc.Proofs.Arity
import MiniGoc.Proofs.Depth
import MiniGoc.Proofs.Resolution

/-!
# The limit of the operand stack

A method says how deep its operand stack may get: as deep as the frame has counted it while the
method was generated.  On the paths through the code the stack is never deeper than counted
(`Coded.tracks`, `Printed.leads`), as long as the calls of the source fit (`Node.fits`).  Where
paths meet, the count is no less than the depth on any of them, since statements take nothing
away from it (`Printed.gains`).

There is one exception.  In an assignment to a cell of an array, or to a field of an object, the
frame takes off what the store needs before the code of the value is generated.  While that code
runs, up to three values are on the stack that are not counted any more (`Node.uncounted`).  So
the limit may be too small by that number, and is right for functions that have no such
assignments (`depth_within_limit`).
-/

namespace MiniGoc

open Emit

/-! ## The methods of functions -/

/-- What the method of a function takes and gives, for symbols that are functions. -/
def Symbol.exchange? (s : Symbol) : Option (Nat × Nat) :=
  s.type.funcParts?.map fun p => (p.1.length, if p.2.isVoid then 0 else 1)

/-- The full name of a symbol that belongs to a class. -/
def Symbol.fullName? (s : Symbol) : Option String := s.home.word?.map (· ++ "/" ++ s.name)

/-- What the methods of the functions at the top level take and give, by their full names. -/
def methodExchanges (globals : List Symbol) : Exchanges := fun m =>
  globals.findSome? fun s => if s.fullName? = some m then s.exchange? else none

variable {ds : List Node} {n : Int} {body : Code}

/-- The full names of functions are different if their names are. -/
theorem Symbol.name_eq_of_fullName? (hds : ds.all Node.isDeclTree) {s s' : Symbol}
    (hs : s ∈ globalSymbols ds) (hs' : s' ∈ globalSymbols ds) (h : s.exchange?.isSome)
    (h' : s'.exchange?.isSome) (hname : s.fullName? = s'.fullName?) : s.name = s'.name := by
  have home {s : Symbol} (hs : s ∈ globalSymbols ds) (h : s.exchange?.isSome) :
      s.fullName? = some ("io" ++ "/" ++ s.name) ∨
        s.fullName? = some (mainClass ++ "/" ++ s.name) := by
    simp only [exchange?, Option.isSome_map, Option.isSome_iff_exists] at h
    obtain ⟨⟨ps, r⟩, hparts⟩ := h
    rcases (function_of_mem hds hs hparts).2 with hio | ⟨hmain, -⟩
    · exact .inl (by rw [fullName?, hio]; rfl)
    · exact .inr (by rw [fullName?, hmain]; rfl)
  have apart (n n' : String) : "io" ++ "/" ++ n ≠ mainClass ++ "/" ++ n' := by
    intro heq
    have := congrArg (fun t => t.toList.head?) heq
    simp [mainClass] at this
  rcases home hs h with hn | hn <;> rcases home hs' h' with hn' | hn' <;>
    rw [hn, hn', Option.some.injEq] at hname
  · exact String.append_right_inj _ |>.1 hname
  · exact absurd hname (apart _ _)
  · exact absurd hname.symm (apart _ _)
  · exact String.append_right_inj _ |>.1 hname

/-- A call takes what the function that its name stands for takes. -/
theorem methodExchanges_eq (hds : ds.all Node.isDeclTree) {n owner : String} {s : Symbol}
    (hs : Symbol.find? n (globalSymbols ds) = some s) (howner : s.home.word? = some owner)
    {ps : List Node} {r : Node} (hparts : s.type.funcParts? = some (ps, r)) :
    methodExchanges (globalSymbols ds) (owner ++ "/" ++ n) =
      some (ps.length, if r.isVoid then 0 else 1) := by
  have hname := Symbol.name_of_find? hs
  have hmem := Symbol.mem_of_find? hs
  have hfull : s.fullName? = some (owner ++ "/" ++ n) := by
    rw [Symbol.fullName?, howner, hname]
    rfl
  have hexchange : s.exchange? = some (ps.length, if r.isVoid then 0 else 1) := by
    rw [Symbol.exchange?, hparts]
    rfl
  obtain ⟨-, before, after, hsplit, hbefore⟩ := List.find?_eq_some_iff_append.1 hs
  have skipped : before.findSome? (fun s =>
      if s.fullName? = some (owner ++ "/" ++ n) then s.exchange? else none) = none := by
    rw [List.findSome?_eq_none_iff]
    intro s' hs'
    split
    · next hfull' =>
      by_contra hsome
      have hmem' : s' ∈ globalSymbols ds := by
        rw [hsplit]
        exact List.mem_append_left _ hs'
      have := Symbol.name_eq_of_fullName? hds hmem' hmem (Option.isSome_iff_ne_none.2 hsome)
        (by simp [hexchange]) (hfull'.trans hfull.symm)
      have hne := hbefore s' hs'
      simp [this, hname] at hne
    · rfl
  rw [methodExchanges, hsplit, List.findSome?_append, skipped, List.findSome?_cons, if_pos hfull,
    hexchange]
  rfl

/-! ## Expressions -/

section Code

variable {ds : List Node} {prog : Code} {bound : Int}

/-- On the paths through the code between two frames the operand stack is as deep as the frames
have counted, up to what was on it before and not counted. -/
structure Tracks (calls : Exchanges) (prog c : Code) (f g : Frame) : Prop where
  advances : f.Advances g
  leads {bound extra : Int} : f.depth ≤ f.maxDepth → g.maxDepth + extra ≤ bound →
    Leads calls prog bound c (f.depth + extra) (g.depth + extra)

namespace Tracks

variable {calls : Exchanges} {c d : Code} {f g h : Frame} {i : Instr}

theorem nil (hadvances : f.Advances g) (hdepth : f.depth ≤ g.depth) : Tracks calls prog [] f g :=
  ⟨hadvances, fun _ _ => .nil (by omega)⟩

theorem append (hc : Tracks calls prog c f g) (hd : Tracks calls prog d g h) :
    Tracks calls prog (c ++ d) f h where
  advances := hc.advances.trans hd.advances
  leads hf hh := by
    have := hd.advances.maxDepth
    exact (hc.leads hf (by omega)).append (hd.leads (hc.advances.depth hf) hh)

theorem after (hc : Tracks calls prog c g h) (hadvances : f.Advances g)
    (hdepth : f.depth ≤ g.depth) : Tracks calls prog c f h := (nil hadvances hdepth).append hc

theorem one {taken given : Nat} (hi : i.exchange? calls = some (taken, given))
    (hstraight : i.isStraight) (hadvances : f.Advances g)
    (hdepth : f.depth - taken + given ≤ g.depth) : Tracks calls prog (Emit.one i) f g where
  advances := hadvances
  leads hf hg := by
    have := hadvances.maxDepth
    exact .one hi hstraight (by omega) (by omega)

theorem push (hi : i.exchange? calls = some (0, 1)) (hstraight : i.isStraight) :
    Tracks calls prog (Emit.one i) f f.pushed :=
  one hi hstraight (Frame.Advances.refl f).pushed (by simp)

theorem constant (h : i.isConstant) : Tracks calls prog (Emit.one i) f f.pushed :=
  push (Instr.exchange?_of_isConstant h) (Instr.isStraight_of_isConstant h)

theorem drop {n : Nat} (hi : i.exchange? calls = some (n, 0)) (hstraight : i.isStraight)
    (hd : f.Drops n g) : Tracks calls prog (Emit.one i) f g :=
  one hi hstraight ((Frame.Advances.refl f).drops hd) (by simp [hd.depth])

theorem turn {n : Nat} (hi : i.exchange? calls = some (n, 1)) (hstraight : i.isStraight)
    (hd : f.Drops n g) : Tracks calls prog (Emit.one i) f g.pushed :=
  one hi hstraight ((Frame.Advances.refl f).drops hd).pushed (by simp [hd.depth])

theorem makeArray (h : i.makesArray) (hd : f.Drops 1 g) :
    Tracks calls prog (Emit.one i) f g.pushed :=
  turn (Instr.exchange?_of_makesArray h) (Instr.isStraight_of_makesArray h) hd

theorem makeObject {owner : String} (hd : f.pushed.pushed.Drops 1 g) :
    Tracks calls prog (Emit.one (.newObject owner) ++ Emit.one .dup ++
      Emit.one (.invokeSpecial (owner ++ "/<init>") "()V")) f g :=
  ((push rfl rfl).append (one rfl rfl (Frame.Advances.refl _).pushed (by simp; omega))).append
    (drop rfl rfl hd)

theorem keep {b : Bank} {slot : Int} (hd : f.indexed.Drops 1 g) :
    Tracks calls prog (Emit.one (.store b slot)) f g :=
  one rfl rfl ((Frame.advances_indexed f).drops hd) (by
    have : g.depth = f.depth - 1 := hd.depth
    omega)

end Tracks

/-- A comparison leaves one of two outcomes. -/
theorem Emit.Compares.tracks {calls : Exchanges} (hprog : prog.labels.Nodup) {op : String}
    {l : Nat} {t : Node} {f g : Frame} {c : Code} (h : Compares op l t f c g)
    (hop : op ∈ relationalOperators) : Tracks calls prog c f g := by
  refine ⟨h.sameCounters.advances, fun {bound extra} hlevel hbound => ?_⟩
  have decided : ∀ op ∈ relationalOperators, (failing? op).isSome := by decide
  obtain ⟨cond, hcond⟩ := Option.isSome_iff_exists.1 (decided op hop)
  have jumps (make : Cond → Operand → Instr) :
      failJump make op (.ofNat l) = one (make cond (.ofNat l)) := by
    rw [failJump, hcond]
  -- Both outcomes are constants, so each way adds one value to what the test has left.
  have chooses {make : Cond → Operand → Instr} {taken : Nat} {n m : Int}
      (hmake : ∀ o, (make cond o).exchange? calls = some (taken, 0))
      (hfalls : ∀ o, (make cond o).fallsThrough) (hjump : ∀ o, (make cond o).jump? = some o)
      (hn : n ≤ bound) (hm : n - taken + 1 ≤ m) (hb : n - taken ≤ bound) :
      Leads calls prog bound (failJump make op (.ofNat l) ++ outcomes l (l + 1)) n m := by
    rw [jumps, outcomes]
    simpa only [List.append_assoc] using
      Leads.choose hprog (hmake _) (hfalls _) (hjump _) hn (Leads.constant rfl hm hb)
        (Leads.constant rfl hm hb)
  have hmax : f.maxDepth ≤ g.maxDepth := h.sameCounters.maxDepth
  cases h with
  | ints hd =>
    refine chooses (fun _ => rfl) (fun _ => rfl) (fun _ => rfl) (by omega) ?_ (by omega)
    simp only [Frame.pushed_depth, hd.depth]
    omega
  | floats hd hd' =>
    rw [List.append_assoc]
    refine (Leads.one rfl rfl (by omega) (Int.le_refl _)).append
      (chooses (fun _ => rfl) (fun _ => rfl) (fun _ => rfl) (by omega) ?_ (by omega))
    simp only [Frame.pushed_depth, hd.depth, hd'.depth]
    omega
  | texts =>
    rw [List.append_assoc]
    refine (Leads.one rfl rfl (by omega) (Int.le_refl _)).append
      (chooses (fun _ => rfl) (fun _ => rfl) (fun _ => rfl) (by omega) ?_ (by omega))
    simp only [Frame.pushed_depth]
    omega
  | other => exact .nil (Int.le_refl _)

variable {calls : Exchanges} {n : Int}

/-- The code of an expression whose calls fit is as deep as the frame has counted. -/
theorem Coded.tracks (hds : ds.all Node.isDeclTree) (hprog : prog.labels.Nodup)
    {env : List Symbol} (henv : CallEnv ds env) {part : Fragment} {f g : Frame} {c : Code}
    {t : Node} (h : Coded env part f c t g) {used : Bool}
    (hpart : part.Fits (globalSymbols ds) used) :
    Tracks (methodExchanges (globalSymbols ds)) prog c f g := by
  induction h generalizing used with
    simp only [Fragment.Fits, Node.fits, Bool.and_eq_true] at hpart
  | name h =>
    cases h with
    | slot | static => exact .push rfl rfl
  | cell _ _ iha ihis => exact (iha hpart.1.1).append (@ihis true hpart.2)
  | field _ _ _ ht _ _ hd ih =>
    exact (ih hpart).append ((Tracks.turn rfl rfl hd).after ht.sameCounters.advances ht.depth_le)
  | @arithmetic op l r f c lt g d rt h x k m _ hl hr _ hw hd ihl ihr =>
    have left := ihl hpart.1
    have right := ihr hpart.2
    have hgl := hl.value_gains henv hpart.1
    have hgr := hr.value_gains henv hpart.2
    have hm : m.pushed.depth = h.depth - 1 := by
      simp only [Frame.pushed_depth, hd.depth, hw.depth]
      omega
    have after : h.Advances m.pushed := (hw.sameCounters.advances.drops hd).pushed
    have operator {f : Frame} (hf : f.Advances h) (hdepth : f.depth ≤ h.depth) :
        Tracks (methodExchanges (globalSymbols ds)) prog (one (arithmeticInstr op x.type)) f
          m.pushed :=
      .one (Instr.exchange?_of_isOperator (isOperator_arithmeticInstr op x.type))
        (Instr.isStraight_of_isOperator (isOperator_arithmeticInstr op x.type)) (hf.trans after)
        (by omega)
    -- A value may be turned into a float where it lies on top.
    have widen (f : Frame) : Tracks (methodExchanges (globalSymbols ds)) prog (one .i2f) f f :=
      .one rfl rfl (.refl f) (by omega)
    have behind := operator (.refl h) (Int.le_refl _)
    cases x with
    | apart => exact operator (left.advances.trans right.advances) (by omega)
    | intFloat => exact ((left.append (widen g)).append right).append behind
    | floatInt => exact ((left.append right).append (widen h)).append behind
    | ints | texts | floats => exact (left.append right).append behind
  | comparison hop _ _ hc ihl ihr =>
    exact ((ihl hpart.1).append (ihr hpart.2)).append
      ((hc.tracks hprog hop).after (Frame.advances_labelled _ 2) (Int.le_refl _))
  | both _ _ hd ihl ihr | either _ _ hd ihl ihr =>
    exact ((ihl hpart.1).append (ihr hpart.2)).append (.turn rfl rfl hd)
  | @call n as s f c g owner ps r d h hs has howner hparts _ hd ih =>
    refine (@ih true hpart.2).append (.one (methodExchanges_eq hds (henv.find?_eq hs hparts)
      howner hparts) rfl
      (((Frame.Advances.refl g).drops hd).trans (sameCounters_resultFrame h r).advances) ?_)
    have hdepth := hd.depth
    unfold resultFrame
    split
    · omega
    · simp only [Frame.pushed_depth]
      omega
  | number h | text h | truth _ h => exact .constant (isConstant_of_intInstr? h)
  | decimal | nil => exact .constant rfl
  | array _ hi hd ih =>
    exact (@ih true hpart.1).append (.makeArray (makesArray_of_arrayInstr? hi) hd)
  | arrayOf _ hi hd hd' _ ih ih' =>
    have made := (@ih true hpart.1).append (.makeArray (makesArray_of_arrayInstr? hi) hd)
    exact ((made.append (.keep hd')).append (@ih' true hpart.2)).append (.push rfl rfl)
  | struct _ _ hd => exact .makeObject hd
  | structOf _ _ hd _ hd' _ ih =>
    exact (((Tracks.makeObject hd).append (.keep hd')).append (@ih true hpart)).append
      (.push rfl rfl)
  | noArgs | noElems | noFields | noCells => exact .nil (.refl _) (Int.le_refl _)
  | arg _ _ ih ih' =>
    simp only [Node.allFit, Bool.and_eq_true] at hpart
    exact (ih hpart.1).append (@ih' true hpart.2)
  | index _ _ _ hd _ ih ih' =>
    simp only [Node.allFit, Bool.and_eq_true] at hpart
    exact ((ih hpart.1).append (.turn rfl rfl hd)).append (@ih' true hpart.2)
  | elem _ _ _ hd _ ih ih' =>
    simp only [Node.allFit, Bool.and_eq_true] at hpart
    exact ((((Tracks.push rfl rfl).append (.constant (isConstant_intConstant _))).append
      (ih hpart.1)).append (.drop rfl rfl hd)).append (@ih' true hpart.2)
  | fieldOf _ _ _ _ _ hd _ ih ih' =>
    simp only [Node.allFit, Node.fits, Bool.and_eq_true] at hpart
    exact (((Tracks.push rfl rfl).append (ih hpart.1)).append (.drop rfl rfl hd)).append
      (@ih' true hpart.2)

theorem Coded.args_tracks (hds : ds.all Node.isDeclTree) (hprog : prog.labels.Nodup)
    {env : List Symbol} (henv : CallEnv ds env) {es : List Node} {f g : Frame} {c : Code}
    {t : Node} (h : Coded env (.args es) f c t g) (hes : Node.allFit (globalSymbols ds) es) :
    Tracks (methodExchanges (globalSymbols ds)) prog c f g :=
  @Coded.tracks ds prog hds hprog env henv _ f g c t h true hes

/-- Code at the start of a statement: all of the operand stack has been counted. -/
theorem Tracks.counted {c : Code} {f g : Frame} (h : Tracks calls prog c f g)
    (hlevel : f.depth ≤ f.maxDepth) (hbound : g.maxDepth ≤ bound) :
    Leads calls prog bound c f.depth g.depth := by
  simpa using @Tracks.leads _ _ _ _ _ h bound 0 hlevel (by omega)

/-! ## Statements -/

namespace Node

mutual

/-- How many values are on the operand stack that the frame has not counted, at most.  The
array and the index of a cell, and the object of a field, are taken off before the value that
is assigned has been generated. -/
def uncounted : Node → Nat
  | assign (cell _ _) _ => 3
  | assign (field _ _) _ => 2
  | block ms => uncountedIn ms
  | ifElse _ y n => max (uncounted y) (uncounted n)
  | func _ _ _ b => uncounted b
  | _ => 0

/-- The same for the members of a block. -/
def uncountedIn : List Node → Nat
  | [] => 0
  | m :: ms => max (uncounted m) (uncountedIn ms)

end

end Node

def Stage.uncounted : Stage → Nat
  | stmt m => m.uncounted
  | members ms => Node.uncountedIn ms

theorem leads_retPiece {t : Node} {c : Code} (h : retPiece t = some c) {m : Int} (hn : n ≤ bound) :
    Leads calls prog bound c n m := by
  cases t <;> simp [retPiece] at h <;> subst h <;> exact .leave rfl rfl rfl hn

theorem leads_slotLine (s : Frame.Scope) (slot : Int) (x d : String) :
    Leads calls prog bound [slotLine s slot x d] n n := .line nofun

theorem Declared.leads {calls : Exchanges} {outer ls : List Symbol} {p : Gen.Pass} {ms : List Node}
    {f g : Frame} {c : Code} (h : Declared outer p ms f c ls g) {n : Int} :
    Leads calls prog bound c n n := by
  induction h with
  | done => exact .nil (Int.le_refl _)
  | take _ _ _ _ ih | known _ _ _ _ _ _ ih => exact (leads_slotLine _ _ _ _).append ih
  | skip _ _ ih => exact ih

/-- The code of statements whose calls fit is as deep as the frame has counted, up to what it
has taken off too early.  The innermost scope may be left by a jump to its end. -/
theorem Printed.leads (hds : ds.all Node.isDeclTree) (hprog : prog.labels.Nodup)
    {env : List Symbol} {stage : Stage} {f g : Frame} {c : Code} (h : Printed env stage f c g)
    (henv : CallEnv ds env) (hstage : stage.Fits (globalSymbols ds)) {extra : Nat}
    (hextra : stage.uncounted ≤ extra) (hlevel : f.depth ≤ f.maxDepth)
    (hbound : g.maxDepth + extra ≤ bound) (hloops : f.loops = [])
    (hstop : ∀ s, f.scopes.head? = some s → ∃ r, label (.ofNat s.stop) ++ r <:+ prog ∧
      Contained (methodExchanges (globalSymbols ds)) prog bound r g.depth) :
    Leads (methodExchanges (globalSymbols ds)) prog bound c f.depth g.depth := by
  induction h with
  | var _ _ hc _ hd | const _ _ hc _ hd =>
    have he := by simpa only [Stage.Fits, Node.stmtFits] using hstage
    exact ((hc.tracks hds hprog henv he).append (.drop rfl rfl hd)).counted hlevel (by omega)
  | assignSlot _ _ hc _ hd | assignStatic _ _ hc _ hd =>
    simp only [Stage.Fits, Node.stmtFits, Bool.and_eq_true] at hstage
    exact ((hc.tracks hds hprog henv hstage.2).append (.drop rfl rfl hd)).counted hlevel (by omega)
  | zero _ _ hz _ hd =>
    exact ((Tracks.constant (isConstant_of_zeroInstr? hz)).append (.drop rfl rfl hd)).counted
      hlevel (by omega)
  | @assignCell env a is e f c t g d h el u k b m d' r o ha his _ ht _ hd he =>
    simp only [Stage.Fits, Node.stmtFits, Node.fits, Bool.and_eq_true] at hstage
    obtain ⟨⟨⟨harray, -⟩, hindices⟩, hvalue⟩ := hstage
    have hthree : 3 ≤ extra := hextra
    have target := (ha.tracks hds hprog henv harray).append
      (his.args_tracks hds hprog henv hindices)
    have hdt := ht.sameCounters.depth (target.advances.depth hlevel)
    have hmt := ht.sameCounters.maxDepth
    have hk := ht.depth_le
    have hm := hd.depth
    have hmm := hd.maxDepth
    have hme := he.advances.maxDepth
    have hde := he.advances.depth (by omega)
    -- The three values that the store takes are counted off already.
    have value : Leads (methodExchanges (globalSymbols ds)) prog bound d' (m.depth + 3)
        (o.depth + 3) := (he.tracks hds hprog henv hvalue).leads (by omega) (by omega)
    exact ((target.counted hlevel (by omega)).append
      (value.mono (by omega) (Int.le_refl _))).append (.one rfl rfl (by omega) (by omega))
  | @assignField env a n e f c t g es ft u k owner d m d' r o ha _ _ ht _ _ hd he =>
    simp only [Stage.Fits, Node.stmtFits, Node.fits, Bool.and_eq_true] at hstage
    have htwo : 2 ≤ extra := hextra
    have target := ha.tracks hds hprog henv hstage.1
    have hdt := ht.sameCounters.depth (target.advances.depth hlevel)
    have hmt := ht.sameCounters.maxDepth
    have hk := ht.depth_le
    have hm := hd.depth
    have hmm := hd.maxDepth
    have hme := he.advances.maxDepth
    have hde := he.advances.depth (by omega)
    have value : Leads (methodExchanges (globalSymbols ds)) prog bound d' (m.depth + 2)
        (o.depth + 2) := (he.tracks hds hprog henv hstage.2).leads (by omega) (by omega)
    exact ((target.counted hlevel (by omega)).append
      (value.mono (by omega) (Int.le_refl _))).append (.one rfl rfl (by omega) (by omega))
  | @block env ms f c ls g d h hls hms ih =>
    obtain ⟨henv', hdepth⟩ := hls.enter henv hms hstage
    intro k hk hcontained
    have stop : label (.ofNat (f.label + 1)) ++ k <:+ prog := by
      simp only [List.append_assoc] at hk
      exact (((List.suffix_append _ _).trans (List.suffix_append _ _)).trans
        (List.suffix_append _ _)).trans hk
    have inside := ih henv' hstage hextra (hls.advances.depth hlevel) hbound
      (hls.advances.loops.trans hloops) fun s hs => by
        rw [hls.advances.scopes] at hs
        cases hs
        exact ⟨k, stop, hcontained⟩
    exact (((Leads.label.append hls.leads).append (inside.mono hdepth (Int.le_refl _))).append
      Leads.label) k hk hcontained
  | @ifOnly env e y f c t g h d k he hd hy ih =>
    simp only [Stage.Fits, Node.stmtFits, Bool.and_eq_true] at hstage
    simp only [Stage.uncounted, Node.uncounted] at hextra ih
    have hde := he.advances.depth hlevel
    have hh : h.depth = g.depth - 1 := hd.depth
    have hhm : h.maxDepth = g.maxDepth := hd.maxDepth
    have hmy := hy.advances.maxDepth
    have hgains := hy.gains henv hstage.1.2
    have same : f.Advances h :=
      (he.advances.trans (Frame.advances_labelled g 1)).drops hd
    have test := (he.tracks hds hprog henv hstage.1.1).counted hlevel
      (by omega : g.maxDepth ≤ bound)
    have inside := ih henv hstage.1.2 (by omega) (same.depth hlevel) hbound
      (same.loops.trans hloops) fun s hs => hstop s (same.scopes ▸ hs)
    rw [hh] at inside hgains
    simpa only [List.append_assoc] using
      test.append (Leads.skip hprog rfl rfl rfl (by omega) inside hgains)
  | @ifElse env e y n f c t g h d k d' m he hd _ hy hn ih ih' =>
    simp only [Stage.Fits, Node.stmtFits, Bool.and_eq_true] at hstage
    simp only [Stage.uncounted, Node.uncounted] at hextra ih ih'
    have hde := he.advances.depth hlevel
    have hh : h.depth = g.depth - 1 := hd.depth
    have hhm : h.maxDepth = g.maxDepth := hd.maxDepth
    have hmy := hy.advances.maxDepth
    have hmn := hn.advances.maxDepth
    have hgy := hy.gains henv hstage.1.2
    have hgn := hn.gains henv hstage.2
    have same : f.Advances h :=
      (he.advances.trans (Frame.advances_labelled g 2)).drops hd
    have same' : f.Advances k := same.trans hy.advances
    have test := (he.tracks hds hprog henv hstage.1.1).counted hlevel
      (by omega : g.maxDepth ≤ bound)
    have first := ih henv hstage.1.2 (by omega) (same.depth hlevel) (by omega)
      (same.loops.trans hloops) fun s hs => by
        obtain ⟨r, hr, hcontained⟩ := hstop s (same.scopes ▸ hs)
        exact ⟨r, hr, hcontained.mono hgn⟩
    have second := ih' henv hstage.2 (by omega) (same'.depth hlevel) hbound
      (same'.loops.trans hloops) fun s hs => hstop s (same'.scopes ▸ hs)
    -- The frame counts the second way after the first, so it starts at a depth that is no less.
    rw [hh] at first hgy
    simpa only [List.append_assoc] using test.append (Leads.choose hprog rfl rfl rfl (by omega)
      (first.mono (Int.le_refl _) hgn) (second.mono hgy (Int.le_refl _)))
  | breakLoop hs =>
    obtain ⟨r, hr, hcontained⟩ := hstop _ hs
    exact .jump hprog hr hcontained
  | continueLoop hl =>
    rw [hloops] at hl
    cases hl
  | ret hc hr hd =>
    have := hd.maxDepth
    have := hc.advances.depth hlevel
    exact ((hc.tracks hds hprog henv hstage).counted hlevel (by omega)).append
      (leads_retPiece hr (by omega))
  | leave => exact .leave rfl rfl rfl (by omega)
  | call hc =>
    have := hc.gains henv hstage
    exact .nil (by omega)
  | noMembers => exact .nil (Int.le_refl _)
  | @member env m ms f c g d h hm hms ih ih' =>
    simp only [Stage.Fits, Node.stmtsFit, Bool.and_eq_true] at hstage
    have hmax := hms.advances.maxDepth
    have hdepth := hms.gains henv hstage.2
    simp only [Stage.uncounted, Node.uncountedIn] at hextra ih ih'
    refine (ih henv hstage.1 (by omega) hlevel (by omega) hloops fun s hs => ?_).append
      (ih' henv hstage.2 (by omega) (hm.advances.depth hlevel) hbound
        (hm.advances.loops.trans hloops) fun s hs => ?_)
    · obtain ⟨r, hr, hcontained⟩ := hstop s hs
      exact ⟨r, hr, hcontained.mono hdepth⟩
    · rw [hm.advances.scopes] at hs
      exact hstop s hs

end Code

/-! ## Methods -/

/-- The depth of the operand stack that a line asks for. -/
def Line.stackLimit? : Line → Option Operand
  | limitStack n => some n
  | _ => none

/-- The depths of the operand stack that lines ask for. -/
def Code.stackLimits (c : Code) : List Operand := c.filterMap Line.stackLimit?

@[simp] theorem Code.stackLimits_append (c d : Code) :
    Code.stackLimits (c ++ d) = Code.stackLimits c ++ Code.stackLimits d := List.filterMap_append

theorem Code.stackLimits_of_isCode {c : Code} (h : c.all Line.isCode) : c.stackLimits = [] := by
  rw [stackLimits, List.filterMap_eq_nil_iff]
  intro l hl
  have := List.all_eq_true.1 h l hl
  cases l <;> first | rfl | simp [Line.isCode] at this

/-- A method without code, or one that asks for a depth of the operand stack.  On every path from
its start with an empty stack, what comes next is known, and the depth is at most the one that the
method asks for and some more. -/
def Code.StackFits (globals : List Symbol) (extra : Nat) (body : Code) : Prop :=
  body = [] ∨ ∃ limit, body.stackLimits = [.number limit] ∧
    ∀ point, Flows (methodExchanges globals) body (body, 0) point →
      point.2 ≤ limit + extra ∧ (successors? (methodExchanges globals) body point).isSome

theorem contained_limitLines {calls : Exchanges} {prog : Code} {bound : Int} {f : Frame}
    (hprog : limitLines f <:+ prog) (hn : n ≤ bound) :
    Contained calls prog bound (limitLines f) n := by
  have lines : Leads calls prog bound (limitLines f) n n := .lines (by simp [limitLines])
  simpa using lines [] (by simpa using hprog) (.nil hn)

/-- The lines of a method from its start to its limits. -/
theorem Code.StackFits.of_leads {globals : List Symbol} {extra : Nat} {c : Code} {f : Frame}
    (hc : c.all Line.isCode) (hn : n ≤ f.maxDepth + extra)
    (h : Leads (methodExchanges globals) (c ++ limitLines f) (f.maxDepth + extra) c 0 n) :
    Code.StackFits globals extra (c ++ limitLines f) := by
  refine .inr ⟨f.maxDepth, ?_, ?_⟩
  · rw [stackLimits_append, stackLimits_of_isCode hc]
    rfl
  · exact h (limitLines f) (List.suffix_refl _)
      (contained_limitLines (List.suffix_append _ _) hn) 0 (Int.le_refl 0)

theorem Initialised.tracks {ds : List Node} (hds : ds.all Node.isDeclTree) {prog : Code}
    (hprog : prog.labels.Nodup) {items : List (Symbol × Node)} {f g : Frame} {c : Code}
    (h : Initialised (globalSymbols ds) items f c g)
    (hitems : ∀ item ∈ items, (Gen.initOf item.2).fits (globalSymbols ds) true) :
    Tracks (methodExchanges (globalSymbols ds)) prog c f g := by
  induction h with
  | nil => exact .nil (.refl _) (Int.le_refl _)
  | cons hc _ hd _ ih =>
    have hfirst := hitems _ (List.mem_cons_self ..)
    exact ((hc.tracks hds hprog Nested.outermost hfirst).append (.drop rfl rfl hd)).append
      (ih fun item hitem => hitems item (List.mem_cons_of_mem _ hitem))

theorem InitBody.stackFits (hds : ds.all Node.isDeclTree) {items : List (Symbol × Node)}
    (h : InitBody (globalSymbols ds) items body)
    (hitems : ∀ item ∈ items, (Gen.initOf item.2).fits (globalSymbols ds) true) :
    body.StackFits (globalSymbols ds) 0 := by
  have hlabels := h.labels_nodup
  cases h with
  | @intro c f hc =>
    have hdepth := hc.advances.depth (Int.le_refl 0)
    refine .of_leads (by simp [hc.isCode, label, one, Line.isCode]) (by omega : f.depth ≤ _) ?_
    have fields := hc.tracks hds hlabels hitems
    exact ((Leads.label.append (fields.counted (Int.le_refl 0) (by omega))).append
      Leads.label).append (.leave rfl rfl rfl (by omega))

/-- The parameters of a method have slots, and nothing is counted for them. -/
theorem Params.enter {ds : List Node} {ps : List (String × Node)} {f g : Frame} {c : Code}
    {ss : List Symbol} (h : Params ps f c ss g) (hps : ∀ p ∈ ps, p.2.isTypeTree) :
    CallEnv ds (ss ++ globalSymbols ds) ∧ g.depth = f.depth := by
  have names : (∀ s ∈ ss, (∃ i, s.home = .slot i) ∧ s.type.isNoFunction) ∧ g.depth = f.depth := by
    induction h with
    | nil => exact ⟨by simp, rfl⟩
    | @cons n t ps f s d c ss g _ _ _ ih =>
      obtain ⟨hss, hdepth⟩ := ih fun p hp => hps p (List.mem_cons_of_mem _ hp)
      refine ⟨fun s hs => ?_, hdepth⟩
      rcases List.mem_cons.1 hs with rfl | hs
      · have ht := Node.funcParts?_of_isTypeTree (hps (n, t) (List.mem_cons_self ..))
        exact ⟨⟨f.index, rfl⟩, Option.isNone_iff_eq_none.2 ht⟩
      · exact hss s hs
  exact ⟨Nested.outermost.enter fun n s hs => names.1 s (Symbol.mem_of_find? hs), names.2⟩

theorem Params.leads {calls : Exchanges} {prog : Code} {bound n : Int} {ps : List (String × Node)}
    {f g : Frame} {c : Code} {ss : List Symbol} (h : Params ps f c ss g) :
    Leads calls prog bound c n n := by
  induction h with
  | nil => exact .nil (Int.le_refl _)
  | cons _ _ _ ih => exact (leads_slotLine _ _ _ _).append ih

/-- The method of a function asks for enough, up to what its statements take off too early. -/
theorem FuncBody.stackFits (hds : ds.all Node.isDeclTree) {params : List (String × Node)}
    {r b : Node} (h : FuncBody (globalSymbols ds) params r b body)
    (hparams : ∀ p ∈ params, p.2.isTypeTree) (hb : b.stmtFits (globalSymbols ds)) :
    body.StackFits (globalSymbols ds) b.uncounted := by
  have hlabels := h.labels_nodup
  cases h with
  | @intro c ss f d g rc h hps hd hr hdrops =>
    obtain ⟨henv, hdepth⟩ := @Params.enter ds _ _ _ _ _ hps hparams
    have hlevel : f.depth ≤ f.maxDepth := hps.advances.depth (Int.le_refl 0)
    have hlast := hd.advances.depth hlevel
    have hmax := hdrops.maxDepth
    have hcode : (label (.ofNat 0) ++ c ++ d ++ label (.ofNat 1) ++ rc).all Line.isCode := by
      simp [hps.isCode, hd.isCode, isCode_retPiece hr, label, Line.isCode]
    refine .of_leads hcode (by omega : g.depth ≤ _) ?_
    have stop : label (.ofNat 1) ++ (rc ++ limitLines h) <:+
        label (.ofNat 0) ++ c ++ d ++ label (.ofNat 1) ++ rc ++ limitLines h :=
      ⟨label (.ofNat 0) ++ c ++ d, by simp⟩
    have limits : limitLines h <:+
        label (.ofNat 0) ++ c ++ d ++ label (.ofNat 1) ++ rc ++ limitLines h :=
      List.suffix_append _ _
    have inside := hd.leads hds hlabels henv hb (Nat.le_refl _) hlevel
      (by omega : g.maxDepth + b.uncounted ≤ h.maxDepth + b.uncounted) hps.advances.loops
      fun s hs => by
        rw [hps.advances.scopes] at hs
        cases hs
        refine ⟨_, stop, ?_⟩
        exact leads_retPiece hr (by omega) _ ((List.suffix_append _ _).trans stop)
          (contained_limitLines limits (by omega : g.depth ≤ _))
    exact (((Leads.label.append hps.leads).append
      (inside.mono (Int.le_of_eq hdepth.symm) (Int.le_refl _))).append Leads.label).append
      (leads_retPiece hr (by omega))

theorem constructorBody_stackFits (globals : List Symbol) (type : String) :
    (constructorBody type).StackFits globals 0 := by
  have object : Leads (methodExchanges globals) (constructorBody type) 1 (one (.load .ref 0)) 0 1 :=
    .one rfl rfl (by decide) (by decide)
  have construct : Leads (methodExchanges globals) (constructorBody type) 1
      (one (.invokeSpecial "java/lang/Object/<init>" "()V")) 1 0 :=
    .one rfl rfl (by decide) (by decide)
  have leave : Leads (methodExchanges globals) (constructorBody type) 1 (one .ret) 0 0 :=
    .leave rfl rfl rfl (by decide)
  exact .of_leads (f := { maxDepth := 1, maxIndex := 1 }) rfl (by decide)
    ((((((leads_slotLine _ _ _ _).append .label).append object).append construct).append
      .label).append leave)

mutual

theorem Node.uncounted_le (m : Node) : m.uncounted ≤ 3 := by
  unfold uncounted
  split
  · omega
  · omega
  · exact uncountedIn_le _
  · exact Nat.max_le.2 ⟨uncounted_le _, uncounted_le _⟩
  · exact uncounted_le _
  · omega

theorem Node.uncountedIn_le (ms : List Node) : Node.uncountedIn ms ≤ 3 := by
  unfold uncountedIn
  split
  · omega
  · exact Nat.max_le.2 ⟨uncounted_le _, uncountedIn_le _⟩

end

theorem Code.StackFits.mono {globals : List Symbol} {extra extra' : Nat}
    (h : body.StackFits globals extra) (hle : extra ≤ extra') : body.StackFits globals extra' := by
  refine h.imp_right ?_
  rintro ⟨limit, hlimit, hpaths⟩
  refine ⟨limit, hlimit, fun point hpoint => ?_⟩
  have := hpaths point hpoint
  exact ⟨by omega, this.2⟩

theorem BodyOf.stackFits (hds : ds.all Node.isDeclTree) {d : Node} (hd : d.isDeclTree)
    (hfits : d.declFits (globalSymbols ds)) {m : String × Code}
    (h : BodyOf (globalSymbols ds) d m) : m.2.StackFits (globalSymbols ds) d.uncounted := by
  cases h with
  | intro h =>
    simp only [Node.isDeclTree, Bool.and_eq_true] at hd
    exact h.stackFits hds (fun p hp => isTypeTree_of_mem_methodParams hd.1.1.1 hp) hfits

/-- In a program whose calls fit, no path through a method takes its operand stack deeper than the
method asks for, if the function has no assignment to a cell or to a field.  With one, the depth
may be exceeded, by two for fields and by three for cells.  The methods that initialise fields and
objects have no assignments. -/
theorem depth_within_limit {ds : List Node} {w : Workspace} (hds : (Node.program ds).isProgram)
    (hfits : ds.all (Node.declFits (globalSymbols ds)))
    (hgen : Gen.run (.program ds) = (.ok (), w)) :
    (w.files = w.written.map fun l => (l.file, l.code.render)) ∧
      (∀ l ∈ w.written, ∀ body ∈ l.code.bodies, body.StackFits (globalSymbols ds) 3) ∧
      (∀ l ∈ w.others, ∀ body ∈ l.code.bodies, body.StackFits (globalSymbols ds) 0) ∧
      w.current ∈ w.written ∧
      List.Forall₂ (Code.StackFits (globalSymbols ds))
        (0 :: (ds.filter Node.isFunc).map Node.uncounted) w.current.code.bodies := by
  have holds := Gen.run_holds hds hgen
  have hdecls : ∀ d ∈ ds, d.isDeclTree ∧ d.declFits (globalSymbols ds) := fun d hd =>
    ⟨List.all_eq_true.1 hds d hd, List.all_eq_true.1 hfits d hd⟩
  have inits {items : List (Symbol × Node)} (hitems : ∀ item ∈ items, item.2 ∈ ds) :
      ∀ item ∈ items, (Gen.initOf item.2).fits (globalSymbols ds) true := by
    rintro ⟨s, d⟩ hitem
    have hd := (hdecls d (hitems _ hitem)).2
    cases d with
    | var | const => exact hd
    | _ => rfl
  refine ⟨Gen.run_files hds hgen, ?_, ?_, holds.main_written, ?_⟩
  · refine Gen.run_bodies hds hgen (.inl rfl)
      (fun type => (constructorBody_stackFits _ type).mono (by omega)) ?_ ?_
    · intro items body hitems h
      exact (h.stackFits hds (inits hitems)).mono (by omega)
    · intro d hd m h
      exact (h.stackFits hds (hdecls d hd).1 (hdecls d hd).2).mono d.uncounted_le
  · intro l hl body hbody
    obtain ⟨d, -, hd⟩ := exists_of_mem_right holds.classes hl
    rcases hd.bodies body hbody with rfl | ⟨type, rfl⟩
    · exact .inl rfl
    · exact constructorBody_stackFits _ type
  · obtain ⟨items, init, bodies, hitems, hinit, hbodies, hfuncs⟩ := holds.main.bodies
    rw [hbodies]
    refine .cons (hinit.stackFits hds (inits hitems)) ?_
    rw [List.forall₂_map_left_iff]
    have hmem : ∀ d ∈ ds.filter Node.isFunc, d ∈ ds := fun d hd => (List.mem_filter.1 hd).1
    refine ((List.forall₂_and_left _ _).2 ⟨hmem, hfuncs⟩).imp ?_
    rintro d body ⟨hd, n, hm⟩
    exact hm.stackFits hds (hdecls d hd).1 (hdecls d hd).2

/-- Four numbers, added from the right. -/
def fourSummands : Node :=
  .binary "+" (.intLit (.int 1))
    (.binary "+" (.intLit (.int 2)) (.binary "+" (.intLit (.int 3)) (.intLit (.int 4))))

/-- An array of two elements, of which one is assigned to in a branch. -/
def deepStore : List Node :=
  [.func "main" [] .voidType (.block
    [.var "a" (.arrayType [.intLit (.int 2)] .intType)
       (.arrayLit [.intLit (.int 2)] .intType (.list [.intLit (.int 1), .intLit (.int 2)])),
     .ifElse (.binary "<" (.intLit (.int 1)) (.intLit (.int 2)))
       (.block [.assign (.cell (.id "a") [.intLit (.int 0)]) fourSummands]) .none])]

/-- A function without assignments, and one that assigns to cells of two arrays and calls it. -/
def deeperStore : List Node :=
  [.func "f" [.param "x" .intType] .voidType
     (.block [.var "y" .intType (.binary "+" (.id "x") (.id "x"))]),
   .func "main" [] .voidType (.block
    [.var "a" (.arrayType [.intLit (.int 2), .intLit (.int 3)] .intType) .none,
     .var "b" (.arrayType [.intLit (.int 2)] .intType)
       (.arrayLit [.intLit (.int 2)] .intType (.list [.intLit (.int 1), .intLit (.int 2)])),
     .assign (.cell (.id "a") [.intLit (.int 1), .intLit (.int 1)]) (.intLit (.int 5)),
     .assign (.cell (.id "b") [.intLit (.int 0)]) fourSummands,
     .ret (.call "f" [.intLit (.int 1)])])]

/-- Some method with a limit has a path that leads to a depth. -/
theorem exists_path {calls : Exchanges} {bodies : List Code} {limit : Int} {k : Nat}
    (h : ∃ body ∈ bodies, body.stackLimits = [.number limit] ∧
      (walk calls body k (body, 0)).map Prod.snd = some n) :
    ∃ body ∈ bodies, body.stackLimits = [.number limit] ∧
      ∃ rest, Flows calls body (body, 0) (rest, n) := by
  obtain ⟨body, hbody, hlimit, hwalk⟩ := h
  obtain ⟨⟨rest, m⟩, hpoint, rfl⟩ := Option.map_eq_some_iff.1 hwalk
  exact ⟨body, hbody, hlimit, rest, flows_of_walk hpoint⟩

theorem depth_within_limit_stores :
    ((∃ body ∈ (Gen.run (.program deepStore)).2.current.code.bodies,
        body.stackLimits = [.number 4] ∧
        ∃ rest, Flows (methodExchanges (globalSymbols deepStore)) body (body, 0) (rest, 6)) ∧
      List.Forall₂ (Code.StackFits (globalSymbols deepStore)) [0, 3]
        (Gen.run (.program deepStore)).2.current.code.bodies) ∧
    ((∃ body ∈ (Gen.run (.program deeperStore)).2.current.code.bodies,
        body.stackLimits = [.number 4] ∧
        ∃ rest, Flows (methodExchanges (globalSymbols deeperStore)) body (body, 0) (rest, 7)) ∧
      List.Forall₂ (Code.StackFits (globalSymbols deeperStore)) [0, 0, 3]
        (Gen.run (.program deeperStore)).2.current.code.bodies) := by
  have deep := @depth_within_limit deepStore _ (by decide) (by decide)
    (Gen.run_eq_of_isOk (by decide +kernel))
  have deeper := @depth_within_limit deeperStore _ (by decide) (by decide)
    (Gen.run_eq_of_isOk (by decide +kernel))
  refine ⟨⟨exists_path (k := 30) (by decide +kernel), deep.2.2.2.2⟩, ?_, deeper.2.2.2.2⟩
  exact exists_path (k := 31) (by decide +kernel)

end MiniGoc
