import MiniGoc.Proofs.Demands

/-!
# The calls of a function

`calls` lists the functions that a piece of source calls, in the order of evaluation: the
arguments before the call, the statements as they stand.  The method of a function invokes
the functions of this list, in this order, but for those that the generator leaves out
(`calls_invoked_iff`).  It leaves out a call that stands as a statement, with the calls in
its arguments, and the calls in operands that do not go together.
-/

namespace MiniGoc

open Emit

/-! ## Calls in the source -/

mutual

/-- The functions that a piece of source calls, in the order of evaluation. -/
def calls : Node → List String
  | .call f as => callsAll as ++ [f]
  | .methodCall r _ as => calls r ++ callsAll as
  | .cell a is => calls a ++ callsAll is
  | .field e _ | .pair _ e | .unary _ e => calls e
  | .binary _ l r => calls l ++ calls r
  | .arrayLit ds _ v => callsAll ds ++ calls v
  | .structLit _ es | .list es => callsAll es
  | .var _ _ e | .const _ _ e | .ret e => calls e
  | .assign t e => calls t ++ calls e
  | .block ms => callsAll ms
  | .ifElse c y n => calls c ++ calls y ++ calls n
  | .forBasic c b => calls c ++ calls b
  | .forStep i c u b => calls i ++ calls c ++ calls b ++ calls u
  | .forEach _ _ a b => calls a ++ calls b
  | .func _ _ _ b => calls b
  | _ => []

/-- The functions that pieces of source in a row call. -/
def callsAll : List Node → List String
  | [] => []
  | n :: ns => calls n ++ callsAll ns

end

attribute [local simp] calls

/-- The function that a demand calls, left out or not. -/
def Demand.call? : Demand → Option String
  | call f _ => some f
  | lost d => d.call?
  | _ => none

def called (ds : List Demand) : List String := ds.filterMap Demand.call?

@[simp] theorem called_nil : called [] = [] := rfl

@[simp] theorem called_use (k : Access) (x : String) (a b : Option Address) (ds : List Demand) :
    called (.use k x a b :: ds) = called ds := rfl

@[simp] theorem called_temp (ds : List Demand) : called (.temp :: ds) = called ds := rfl

@[simp] theorem called_call (f : String) (o : Option String) (ds : List Demand) :
    called (.call f o :: ds) = f :: called ds := rfl

@[simp] theorem called_append (ds es : List Demand) : called (ds ++ es) = called ds ++ called es :=
  List.filterMap_append

@[simp] theorem called_lost (ds : List Demand) : called (ds.map .lost) = called ds := by
  simp only [called, List.filterMap_map]
  rfl

def Fragment.calls : Fragment → List String
  | expr e => MiniGoc.calls e
  | args es | cells _ es | elems _ _ _ _ es | fields _ _ _ es => callsAll es

/-- An expression with code asks for each of its calls once, in order. -/
theorem Coded.called_eq (E scope : List Symbol) {env : List Symbol} {part : Fragment} {f g : Frame}
    {c : Code} {t : Node} (h : Coded env part f c t g) :
    called (part.demands E scope) = part.calls := by
  induction h with
  | name => rfl
  | arithmetic _ _ _ _ _ _ ihl ihr | comparison _ _ _ _ ihl ihr | both _ _ _ ihl ihr
  | either _ _ _ ihl ihr =>
    simp only [Fragment.demands, Fragment.calls, exprDemands, MiniGoc.calls] at *
    split <;> simp [ihl, ihr]
  | number | decimal | text | truth | nil | struct => rfl
  | noArgs | noCells | noElems | noFields => rfl
  | arrayOf _ _ _ _ _ ih ih' =>
    simp only [Fragment.demands, Fragment.calls, exprDemands, MiniGoc.calls, called_append] at *
    simp [ih, ih']
  | structOf _ _ _ _ _ _ ih =>
    simpa [Fragment.demands, Fragment.calls, exprDemands, MiniGoc.calls] using ih
  | _ =>
    simp_all [Fragment.demands, Fragment.calls, exprDemands, argsDemands, elemsDemands,
      MiniGoc.calls, callsAll]

def Stage.calls : Stage → List String
  | stmt m => MiniGoc.calls m
  | members ms => callsAll ms

/-- A statement with code asks for each of its calls once, in order. -/
theorem Printed.called_eq {env : List Symbol} {stage : Stage} {f g : Frame} {c : Code}
    (h : Printed env stage f c g) (E scope : List Symbol) (owns : List (Option Symbol)) (i : Int) :
    called (stage.demands E scope owns i) = stage.calls := by
  induction h generalizing E scope owns i with
  | var _ _ h _ _ | const _ _ h _ _ | assignSlot _ _ h _ _ | assignStatic _ _ h _ _ =>
    have := h.called_eq E scope
    simpa [Stage.demands, Stage.calls, stmtDemands, placeDemands, storeDemands, MiniGoc.calls,
      Fragment.demands, Fragment.calls] using this
  | zero | breakLoop | continueLoop | leave | noMembers => rfl
  | assignCell ha his _ _ _ _ he =>
    have ha := ha.called_eq E scope
    have his := his.called_eq E scope
    have he := he.called_eq E scope
    simp_all [Stage.demands, Stage.calls, stmtDemands, placeDemands, storeDemands, exprDemands,
      MiniGoc.calls, Fragment.demands, Fragment.calls]
  | assignField ha _ _ _ _ _ _ he =>
    have ha := ha.called_eq E scope
    have he := he.called_eq E scope
    simp_all [Stage.demands, Stage.calls, stmtDemands, placeDemands, storeDemands, exprDemands,
      MiniGoc.calls, Fragment.demands, Fragment.calls]
  | block _ _ ih => exact ih _ _ _ _
  | ifOnly hc _ _ ih =>
    have hc := hc.called_eq E scope
    have yes := ih E scope []
    simp_all [Stage.demands, Stage.calls, stmtDemands, MiniGoc.calls, Fragment.demands,
      Fragment.calls]
  | ifElse hc _ _ _ _ ih ih' =>
    have hc := hc.called_eq E scope
    have yes := ih E scope []
    have no := ih' E scope []
    simp_all [Stage.demands, Stage.calls, stmtDemands, MiniGoc.calls, Fragment.demands,
      Fragment.calls]
  | ret h _ _ => exact h.called_eq E scope
  | call h =>
    have := h.called_eq E scope
    simpa [Stage.demands, Stage.calls, stmtDemands, Fragment.demands, Fragment.calls] using this
  | member _ _ ih ih' =>
    simp only [Stage.demands, Stage.calls, membersDemands, callsAll, called_append] at *
    rw [ih, ih']

theorem BodyOf.called_eq {ds : List Node} {d : Node} {m : String × Code}
    (h : BodyOf (globalSymbols ds) d m) : called (funcDemands ds d) = calls d := by
  cases h with
  | intro hbody =>
    cases hbody with
    | intro _ hb _ _ => exact hb.called_eq _ _ [] _

/-! ## Calls in the code -/

def Instr.invoked? : Instr → Option String
  | invokeStatic m _ => some m
  | _ => none

def Line.invoked? : Line → Option String
  | instr i => i.invoked?
  | _ => none

/-- The methods that a listing invokes, in order. -/
def Code.invoked (c : Code) : List String := c.filterMap Line.invoked?

/-- The method goes by the name of the function. -/
def Invokes (f m : String) : Prop := ∃ owner, m = owner ++ "/" ++ f

/-- The method that a demand calls, if it is not left out. -/
def Demand.method? : Demand → Option String
  | call f (some o) => some (o ++ "/" ++ f)
  | _ => none

def Effect.method? : Effect → Option String
  | invoke m => some m
  | access .. => none

theorem Code.invoked_eq (c : Code) : c.invoked = c.effects.filterMap Effect.method? := by
  simp only [invoked, effects, List.filterMap_filterMap]
  congr
  funext l
  cases l with
  | instr i => cases i <;> rfl
  | _ => rfl

theorem Answers.invoked_eq {ds : List Demand} {c : Code} (h : Answers ds c) :
    c.invoked = (kept ds).filterMap Demand.method? := by
  rw [Code.invoked_eq]
  unfold Answers at h
  generalize kept ds = demands at h ⊢
  generalize c.effects = effects at h ⊢
  induction h with
  | nil => rfl
  | cons hd _ ih =>
    cases hd with
    | use | temp => exact ih
    | call => exact congrArg (_ :: ·) ih

theorem Answers.invokes {ds : List Demand} {c : Code} (h : Answers ds c) :
    List.Forall₂ Invokes (called (kept ds)) c.invoked := by
  rw [Code.invoked_eq]
  unfold Answers at h
  generalize kept ds = demands at h ⊢
  generalize c.effects = effects at h ⊢
  induction h with
  | nil => exact .nil
  | cons hd _ ih =>
    cases hd with
    | use | temp => exact ih
    | call => exact .cons ⟨_, rfl⟩ ih

/-! ## The calls that are left out -/

/-- The demands that are left out. -/
def dropped (ds : List Demand) : List Demand := ds.filter fun d => !d.isKept

theorem called_kept_sublist (ds : List Demand) : (called (kept ds)).Sublist (called ds) :=
  List.filter_sublist.filterMap _

theorem length_called (ds : List Demand) :
    (called ds).length = (called (kept ds)).length + (called (dropped ds)).length := by
  have parts := (List.filter_append_perm Demand.isKept ds).filterMap Demand.call?
  rw [← List.length_append, ← called_append]
  exact parts.length_eq.symm

/-- A function's method invokes each function that is called in it once, in order, exactly
if no call is left out. -/
theorem calls_invoked_iff {ds : List Node} {w : Workspace} (hds : (Node.program ds).isProgram)
    (hgen : Gen.run (.program ds) = (.ok (), w)) :
    ∃ code init bodies, w.files.lookup (Listing.fileName mainClass) = some (Code.render code) ∧
      code.methods = ("<clinit>", init) :: bodies ∧
      List.Forall₂ (fun d (m : String × Code) => d.name? = some m.1 ∧
        m.2.invoked = (kept (funcDemands ds d)).filterMap Demand.method? ∧
        List.Forall₂ Invokes (called (kept (funcDemands ds d))) m.2.invoked ∧
        (called (kept (funcDemands ds d))).Sublist (calls d) ∧
        (List.Forall₂ Invokes (calls d) m.2.invoked ↔ called (dropped (funcDemands ds d)) = []))
        (ds.filter Node.isFunc) bodies := by
  obtain ⟨code, init, bodies, hfile, hmethods, hbodies⟩ := Gen.run_methods hds hgen
  refine ⟨code, init, bodies, hfile, hmethods, hbodies.imp fun d m hm => ?_⟩
  have hinvokes := hm.answers.invokes
  have hsub := called_kept_sublist (funcDemands ds d)
  have hlength := length_called (funcDemands ds d)
  rw [hm.called_eq] at hsub hlength
  refine ⟨hm.name?_eq, hm.answers.invoked_eq, hinvokes, hsub, ?_, ?_⟩
  · intro hall
    have := hall.length_eq
    have := hinvokes.length_eq
    exact List.eq_nil_of_length_eq_zero (by omega)
  · intro hnone
    rw [hnone, List.length_nil, Nat.add_zero] at hlength
    rwa [← hsub.eq_of_length hlength.symm]

/-- A function with a call that stands as a statement, and one that calls it twice. -/
def callers : List Node :=
  [.func "next" [.param "a" .intType] .intType (.block [.call "getInt" [], .ret (.id "a")]),
   .func "main" [] .voidType (.block [.var "x" .intType
     (.binary "+" (.call "next" [.call "next" [.call "getInt" []]]) (.call "getInt" []))])]

theorem calls_invoked_callers :
    ∃ code init next main, (Gen.run (.program callers)).2.files.lookup
        (Listing.fileName mainClass) = some (Code.render code) ∧
      code.methods = [("<clinit>", init), ("next", next), ("main", main)] ∧
      next.invoked = [] ∧ ¬ List.Forall₂ Invokes ["getInt"] next.invoked ∧
      main.invoked = ["io/getInt", "MiniGoClass/next", "MiniGoClass/next", "io/getInt"] ∧
      List.Forall₂ Invokes ["getInt", "next", "next", "getInt"] main.invoked := by
  obtain ⟨code, init, bodies, hfile, hmethods, hbodies⟩ :=
    @calls_invoked_iff callers _ (by decide) (Gen.run_eq_of_isOk (by decide +kernel))
  have hfuncs : callers.filter Node.isFunc = callers := rfl
  rw [hfuncs] at hbodies
  cases hbodies with
  | @cons _ next _ _ hnext hrest =>
      cases hrest with
      | @cons _ main _ _ hmain hnil =>
          cases hnil
          obtain ⟨_, next⟩ := next
          obtain ⟨_, main⟩ := main
          obtain ⟨hname, hinvoked, -, -, hall⟩ := hnext
          obtain ⟨hname', hinvoked', -, -, hall'⟩ := hmain
          cases hname
          cases hname'
          refine ⟨code, init, next, main, hfile, hmethods, hinvoked.trans (by decide +kernel),
            fun h => absurd (hall.1 h) (by decide +kernel), hinvoked'.trans (by decide +kernel),
            hall'.2 (by decide +kernel)⟩

end MiniGoc
