import MiniGoc.Proofs.Locals

/-!
# The method of the main function

For a program whose only function is `main`, with checked statements on integers and truth
values, the method of `main` writes the same values to the same variables, in the same
order, as the program does, and comes to its end with an empty stack.  This holds exactly
if no variable with the name `this` is read (`main_writes_iff`): such a variable is kept as
an integer, but read as an object.
-/

namespace MiniGoc

open Emit

/-- The names that no variable of `main` has. -/
def reservedNames : List String := "args" :: "main" :: Symbol.builtins.map Symbol.name

/-- The last lines of a method: the instruction that leaves it, and the limits. -/
def IsEnd (result : Node) (stop : Code) : Prop :=
  ∃ rc f, retPiece result = some rc ∧ stop = rc ++ limitLines f

/-- At the end of a method there is no next step. -/
theorem IsEnd.step_eq_none {r : Node} {stop : Code} (h : IsEnd r stop) (prog : Code)
    (m : StackMachine) :
    step prog (stop, m) = none ∧ ∀ j k m', (stop, m) ≠ (one (.load .ref j) ++ k, m') := by
  obtain ⟨rc, f, hr, rfl⟩ := h
  have hrc : ∃ i, rc = one i ∧ (i = .ret ∨ ∃ b, i = .retValue b) := by
    cases r with
    | voidType =>
      cases hr
      exact ⟨_, rfl, .inl rfl⟩
    | intType | boolType | floatType | stringType =>
      cases hr
      exact ⟨_, rfl, .inr ⟨_, rfl⟩⟩
    | _ => cases hr
  obtain ⟨i, rfl, hi⟩ := hrc
  rcases hi with rfl | ⟨b, rfl⟩
  · exact ⟨by simp [perform, Instr.constant?, Instr.binary?], by simp [one]⟩
  · exact ⟨by simp [perform, Instr.constant?, Instr.binary?], by simp [one]⟩

/-- The body of `main` does what the statements do. -/
theorem FuncBody.outcome {ds ms : List Node} {r : Node} {body : Code} {Γ : Vars}
    {used : List String} {ρ : Store} {es : List Event}
    (hbody : FuncBody (globalSymbols ds) [("args", Gen.commandLine)] r (.block ms) body)
    (hms : Checked (topNames ds) [] reservedNames (.members ms) Γ used)
    (hes : execAll false [] ms = .ok (ρ, es)) :
    ∃ stop m, IsEnd r stop ∧ m.stack = [] ∧
      List.Forall₂ (Stores body) (Event.writes es) m.writes ∧
      Outcome body (body, {}) (.read "this" ∈ es) (stop, m) := by
  have hlabels := hbody.labels_nodup
  cases hbody with
  | @intro c ss f d g rc h hparams hd hr _ =>
    generalize hbody : label (.ofNat 0) ++ c ++ d ++ label (.ofNat 1) ++ rc ++ limitLines h = body
      at hlabels ⊢
    have hargs : c.varNames = ["args"] ∧ ss = [.localVar "args" Gen.commandLine 0] ∧
        f.index = 1 ∧ ∀ line ∈ c, ∃ i n d l l', line = .var i n d l l' := by
      cases hparams with
      | cons _ _ hnil =>
        cases hnil
        refine ⟨rfl, rfl, rfl, ?_⟩
        intro line hline
        obtain rfl := List.mem_singleton.1 hline
        exact ⟨_, _, _, _, _, rfl⟩
    obtain ⟨hnames, rfl, hindex, hlines⟩ := hargs
    have hsite : Site (topNames ds) body
        ([Symbol.localVar "args" Gen.commandLine 0] ++ globalSymbols ds) reservedNames used []
        (label (.ofNat 0) ++ c) (d ++ (label (.ofNat 1) ++ (rc ++ limitLines h))) := by
      have hpre : Code.varNames (label (.ofNat 0) ++ c) = ["args"] := by
        rw [Code.varNames_append, hnames]
        rfl
      refine ⟨by simp [← hbody], ?_, ?_⟩
      · intro s hs
        rw [hpre]
        rcases List.mem_append.1 hs with hs | hs
        · obtain rfl := List.mem_singleton.1 hs
          exact .inl (List.mem_singleton.2 rfl)
        · exact .inr (List.mem_map_of_mem hs)
      · intro x hx _
        rw [hpre] at hx
        obtain rfl := List.mem_singleton.1 hx
        exact .inl (List.mem_cons_self ..)
    have hspread :
        Spread ([Symbol.localVar "args" Gen.commandLine 0] ++ globalSymbols ds) f.index := by
      have hglobals : Spread (globalSymbols ds) 0 :=
        ⟨fun s hs i hi => absurd hi (globalSymbols_home hs i),
          fun s hs _ _ i hi _ => absurd hi (globalSymbols_home hs i)⟩
      rw [hindex]
      refine hglobals.take (n := "args") (u := Gen.commandLine) ?_
      intro s hs
      rcases List.mem_append.1 hs with hs | hs
      · exact .inr (List.mem_singleton.1 hs)
      · exact .inl hs
    have hempty :
        Holds ([Symbol.localVar "args" Gen.commandLine 0] ++ globalSymbols ds) [] [] {} := by
      simp [Holds]
    obtain ⟨m, ws, hrun, -, hstack, hwrites, hall⟩ :=
      (Checked.block hms).simulated hlabels (by simp [Within]) hd hsite (by simp [Bound]) hspread
        hempty hes
    refine ⟨rc ++ limitLines h, m, ⟨rc, h, hr, rfl⟩, hstack, ?_, ?_⟩
    · rw [hwrites]
      exact hall
    · have hstart :
          Runs body (body, {}) (d ++ (label (.ofNat 1) ++ (rc ++ limitLines h)), {}) := by
        nth_rewrite 2 [← hbody]
        simp only [List.append_assoc]
        exact Runs.label.trans (Runs.vars hlines)
      exact (Outcome.after hstart hrun).andThen .label

/-- The method of `main` writes to each variable what the program writes to it, in the same
order, and comes to its end, exactly if no variable named `this` is read. -/
theorem main_writes_iff {ds ps ms : List Node} {r : Node} {Γ : Vars} {used : List String}
    {w : Workspace} (hds : (Node.program ds).isProgram)
    (hmain : ds.filter Node.isFunc = [.func "main" ps r (.block ms)])
    (hms : Checked (topNames ds) [] reservedNames (.members ms) Γ used)
    (hdiv : execAll false [] ms ≠ .error .zeroDivide)
    (hgen : Gen.run (.program ds) = (.ok (), w)) :
    ∃ code init body stop ρ es,
      w.files.lookup (Listing.fileName mainClass) = some (Code.render code) ∧
      code.methods = [("<clinit>", init), ("main", body)] ∧ IsEnd r stop ∧
      execAll false [] ms = .ok (ρ, es) ∧
      (∃ es', execAll true [] ms = .ok (ρ, es') ∧ Event.writes es' = Event.writes es) ∧
      ((∃ m, Runs body (body, {}) (stop, m) ∧ m.stack = [] ∧
        List.Forall₂ (Stores body) (Event.writes es) m.writes) ↔ .read "this" ∉ es) := by
  obtain ⟨code, init, bodies, hfile, hmethods, hbodies⟩ := Gen.run_methods hds hgen
  rw [hmain] at hbodies
  cases hbodies with
  | cons hbody hnil =>
      cases hnil
      cases hbody with
      | @intro _ _ _ _ body hbody =>
          obtain ⟨ρ, es, hes, -⟩ :=
            (hms.sound (by simp [Within]) (by simp [Fits])).resolve_right hdiv
          obtain ⟨stop, m, hend, hstack, hwrites, hrun⟩ := hbody.outcome hms hes
          refine ⟨code, init, body, stop, ρ, es, hfile, hmethods, hend, hes, hms.shortened hes,
            ?_, fun hgood => ⟨m, hrun.runs hgood, hstack, hwrites⟩⟩
          rintro ⟨m', hm', -, -⟩
          obtain ⟨hstep, hload⟩ := hend.step_eq_none body m'
          exact hrun.not_bad hm' hstep hload

/-- A program that computes a square in a branch. -/
def squareBody : List Node :=
  [.var "a" .intType (.intLit (.int 7)),
   .ifElse (.binary "<" (.id "a") (.intLit (.int 9)))
     (.block [.assign (.id "b") (.binary "*" (.id "a") (.id "a"))]) .none]

/-- A program that reads a variable named `this`. -/
def thisBody : List Node :=
  [.var "this" .intType (.intLit (.int 1)), .var "y" .intType (.id "this")]

/-- A program with such a body. -/
def mainOnly (ms : List Node) : List Node := [.func "main" [] .voidType (.block ms)]

theorem main_writes_samples :
    (∃ code init body stop m, (Gen.run (.program (mainOnly squareBody))).2.files.lookup
        (Listing.fileName mainClass) = some (Code.render code) ∧
      code.methods = [("<clinit>", init), ("main", body)] ∧ IsEnd .voidType stop ∧
      Runs body (body, {}) (stop, m) ∧ m.stack = [] ∧
      List.Forall₂ (Stores body) [("a", .int 7), ("b", .int 49)] m.writes) ∧
    (∃ code init body stop, (Gen.run (.program (mainOnly thisBody))).2.files.lookup
        (Listing.fileName mainClass) = some (Code.render code) ∧
      code.methods = [("<clinit>", init), ("main", body)] ∧ IsEnd .voidType stop ∧
      ¬ ∃ m, Runs body (body, {}) (stop, m) ∧ m.stack = [] ∧
        List.Forall₂ (Stores body) [("this", .int 1), ("y", .int 1)] m.writes) := by
  have hsquare : execAll false [] squareBody = .ok ([("b", .int 49), ("a", .int 7)],
      [.write "a" (.int 7), .read "a", .read "a", .read "a", .write "b" (.int 49)]) := by
    rfl
  have hthis : execAll false [] thisBody = .ok ([("y", .int 1), ("this", .int 1)],
      [.write "this" (.int 1), .read "this", .write "y" (.int 1)]) := by
    rfl
  constructor
  · have checked : Checked (topNames (mainOnly squareBody)) [] reservedNames (.members squareBody)
        [("a", .int)] ("b" :: "a" :: reservedNames) := by
      refine .member (@Checked.var _ _ _ _ _ .int (by decide) ?_) (.member (.ifElse ?_ ?_ .none)
        .noMembers)
      · exact .literal rfl (by decide) (by decide)
      · exact .comparison (by decide) (.name rfl) (.literal rfl (by decide) (by decide))
      · exact .block (.member (.introduce (by decide) (by decide)
          (.arithmetic (by decide) (.name rfl) (.name rfl))) .noMembers)
    obtain ⟨code, init, body, stop, ρ, es, hfile, hmethods, hend, hes, -, hiff⟩ :=
      main_writes_iff (by decide) rfl checked (by rw [hsquare]; nofun)
        (Gen.run_eq_of_isOk (by decide +kernel))
    rw [hsquare] at hes
    cases hes
    obtain ⟨m, hm⟩ := hiff.2 (by decide)
    exact ⟨code, init, body, stop, m, hfile, hmethods, hend, hm⟩
  · have checked : Checked (topNames (mainOnly thisBody)) [] reservedNames (.members thisBody)
        [("y", .int), ("this", .int)] ("y" :: "this" :: reservedNames) := by
      refine .member (@Checked.var _ _ _ _ _ .int (by decide) ?_)
        (.member (@Checked.var _ _ _ _ _ .int (by decide) ?_) .noMembers)
      · exact .literal rfl (by decide) (by decide)
      · exact .name rfl
    obtain ⟨code, init, body, stop, ρ, es, hfile, hmethods, hend, hes, -, hiff⟩ :=
      main_writes_iff (by decide) rfl checked (by rw [hthis]; nofun)
        (Gen.run_eq_of_isOk (by decide +kernel))
    rw [hthis] at hes
    cases hes
    exact ⟨code, init, body, stop, hfile, hmethods, hend, fun hm => hiff.1 hm (by decide)⟩

end MiniGoc
