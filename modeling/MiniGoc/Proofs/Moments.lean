import MiniGoc.Proofs.Demands
import MiniGoc.Proofs.Generated
import MiniGoc.Proofs.Locality
import MiniGoc.Proofs.Watch
import Mathlib.Data.List.Nodup

/-!
# The names in sight while a function is generated

Whenever the generator calls itself while it makes a method, the slots of the names in sight and
those of literals are pairwise distinct and below the next slot of the frame (`Watch.run_sound`).
That is said of the record of a watched run, and holds of programs that are not generated in the
end as well.  Without the record, the watched run is the run of the generator (`Watch.run_eq`).

Both come from one induction.  A watched action *tracks* an action of the generator if it does the
same wherever the frame is the same, puts down nothing but sound sights, and leaves slots that are
apart.  Within a scope the index of the frame does not go down, and what is added gets the index as
its slot.  The watched generator tracks the generator in all surroundings that know the same names,
so what is printed for a function depends on the function and on what the names at the top level
stand for (`func_agree`).
-/

namespace MiniGoc

open Act (Yields)
open Emit

/-! ## Slots -/

/-- The slot of a name that is kept in one. -/
def Symbol.slot? (s : Symbol) : Option Int :=
  match s.home with
  | .slot i => some i
  | _ => none

def Symbol.slots (ss : List Symbol) : List Int := ss.filterMap Symbol.slot?

@[simp] theorem Symbol.slots_append (ss ss' : List Symbol) :
    Symbol.slots (ss ++ ss') = Symbol.slots ss ++ Symbol.slots ss' := List.filterMap_append

/-- Pairwise distinct slots below an index. -/
structure Apart (slots : List Int) (index : Int) : Prop where
  nodup : slots.Nodup
  bounds : ∀ i ∈ slots, 0 ≤ i ∧ i < index

namespace Apart

variable {slots slots' : List Int} {index index' : Int}

theorem mono (h : Apart slots index) (hi : index ≤ index') : Apart slots index' :=
  ⟨h.nodup, fun i hs => ⟨(h.bounds i hs).1, Int.lt_of_lt_of_le (h.bounds i hs).2 hi⟩⟩

theorem perm (h : Apart slots index) (hp : slots.Perm slots') : Apart slots' index :=
  ⟨hp.nodup_iff.1 h.nodup, fun i hi => h.bounds i (hp.mem_iff.2 hi)⟩

theorem sublist (h : Apart slots index) (hs : slots'.Sublist slots) : Apart slots' index :=
  ⟨h.nodup.sublist hs, fun i hi => h.bounds i (hs.subset hi)⟩

theorem next (h : Apart slots index) (hi : 0 ≤ index) : Apart (index :: slots) (index + 1) where
  nodup := List.nodup_cons.2 ⟨fun hs => Int.lt_irrefl _ (h.bounds index hs).2, h.nodup⟩
  bounds i hs := by
    rcases List.mem_cons.1 hs with rfl | hs
    · exact ⟨hi, Int.lt_succ i⟩
    · exact ⟨(h.bounds i hs).1, Int.lt_trans (h.bounds i hs).2 (Int.lt_succ index)⟩

theorem take {ts : List Int} {locals outer : List Symbol} {n : String} {u : Node}
    (h : Apart (ts ++ Symbol.slots (locals ++ outer)) index) (hi : 0 ≤ index) :
    Apart (ts ++ Symbol.slots (locals ++ [Symbol.localVar n u index] ++ outer)) (index + 1) := by
  refine (h.next hi).perm ?_
  have hslot : Symbol.slots [.localVar n u index] = [index] := rfl
  simp only [Symbol.slots_append, hslot, List.perm_iff_count, List.count_append,
    List.count_cons, List.count_nil]
  intro i
  omega

end Apart

/-! ## Actions that track others -/

/-- What holds of all that is in sight at a call: the slots are apart, and a method starts with
its parameters and the names at the top level. -/
structure Sight.Sound (globals : List Symbol) (v : Sight) : Prop where
  apart : Apart (v.temps ++ Symbol.slots v.names) v.index
  names : ∀ ps, v.params? = some ps → v.names = paramSymbols 0 ps ++ globals

/-- All that has been put down is sound. -/
def Watched.Clear (globals : List Symbol) (s : Watched) : Prop := ∀ v ∈ s.seen, v.Sound globals

/-- The slots of some names and of the literals are apart. -/
structure Watched.Fits (env : List Symbol) (s : Watched) : Prop where
  apart : Apart (s.temps ++ Symbol.slots env) s.work.frame.index
  index : 0 ≤ s.work.frame.index

namespace Watch

variable {α β : Type} {globals : List Symbol}

/-- Started there, the watched action does what the other one does wherever the frame is the same,
and puts down sound sights. -/
def Follows (globals : List Symbol) (m : Watch α) (g : Gen α) (s : Watched) : Prop :=
  ∃ r f ps t, m.start s = (r, t) ∧ t.work = s.work.extend f ps ∧ t.Clear globals ∧
    ∀ w : Workspace, w.frame = s.work.frame → g.start w = (r, w.extend f ps)

namespace Follows

variable {m : Watch α} {g : Gen α} {k : α → Watch β} {l : α → Gen β} {s : Watched}

protected theorem plain {g' : Gen α} (hg : Gen.Agree g g') (hs : s.Clear globals) :
    Follows globals (plain g) g' s := by
  obtain ⟨r, f, ps, h⟩ := hg s.work.frame
  refine ⟨r, f, ps, { s with work := s.work.extend f ps }, ?_, rfl, hs, fun w hw => (h w hw).2⟩
  show ((g.start s.work).1, { s with work := (g.start s.work).2 }) = _
  rw [(h s.work rfl).1]

/-- The result of the one is a result of the other. -/
theorem yields (h : Follows globals m g s) {a : α} {t : Watched} (hm : Yields m s a t) :
    Yields g s.work a t.work ∧ t.Clear globals := by
  obtain ⟨r, f, ps, u, hstart, hwork, hu, hg⟩ := h
  cases hstart.symm.trans hm
  exact ⟨(hg s.work rfl).trans (by rw [hwork]), hu⟩

protected theorem bind (hm : Follows globals m g s)
    (hk : ∀ a t, Yields m s a t → t.Clear globals → Follows globals (k a) (l a) t) :
    Follows globals (m >>= k) (g >>= l) s := by
  obtain ⟨r, f, ps, t, hstart, hwork, ht, hg⟩ := hm
  cases r with
  | error e =>
    refine ⟨.error e, f, ps, t, ?_, hwork, ht, fun w hw => ?_⟩
    · rw [Act.start_bind, hstart]
    · rw [Act.start_bind, hg w hw]
  | ok a =>
    obtain ⟨r, f', qs, u, hstart', hwork', hu, hl⟩ := hk a t hstart ht
    refine ⟨r, f', ps ++ qs, u, ?_, ?_, hu, fun w hw => ?_⟩
    · rw [Act.start_bind, hstart]
      exact hstart'
    · rw [hwork', hwork, Workspace.extend_extend]
    · rw [Act.start_bind, hg w hw, ← Workspace.extend_extend]
      exact hl _ (by rw [hwork]; rfl)

/-- A frame of its own makes no difference. -/
theorem withFrame
    (h : Follows globals m g { s with work := s.work.extend {} [], temps := [] }) :
    Follows globals (withFrame m) (Gen.withFrame g) s := by
  simp only [Workspace.extend_nil] at h
  obtain ⟨r, f, ps, t, hstart, hwork, ht, hg⟩ := h
  refine ⟨r, s.work.frame, ps,
    { t with work := { t.work with frame := s.work.frame }, temps := s.temps }, ?_, ?_, ht, ?_⟩
  · have unfolded : (Watch.withFrame m).start s =
        let p := m.start { s with work := { s.work with frame := {} }, temps := [] }
        (p.1, { p.2 with
          work := { p.2.work with frame := s.work.frame }
          temps := s.temps }) := rfl
    rw [unfolded, hstart]
  · rw [hwork]
    rfl
  · intro w hw
    show ((g.start { w with frame := {} }).1, { (g.start { w with frame := {} }).2 with
      frame := w.frame }) = _
    rw [hg { w with frame := {} } rfl, hw]
    rfl

end Follows

/-- Started with slots that are apart, the watched action follows the other one, and leaves slots
that are apart if it has a result. -/
def Tracks (globals env : List Symbol) (m : Watch α) (g : Gen α) (env' : α → List Symbol) : Prop :=
  ∀ s : Watched, s.Fits env → s.Clear globals →
    Follows globals m g s ∧ ∀ a t, Yields m s a t → t.Fits (env' a)

/-- The action tracks the other one with the names of a context in sight, before and after. -/
abbrev Inside (globals : List Symbol) (ctx : Context) (m : Watch α) (g : Gen α) : Prop :=
  Tracks globals ctx.scopes.flatten m g fun _ => ctx.scopes.flatten

namespace Tracks

variable {env : List Symbol} {m : Watch α} {g : Gen α} {k : α → Watch β} {l : α → Gen β}
  {env₁ : α → List Symbol} {env₂ : β → List Symbol} {ctx ctx' : Context}

protected theorem plain {g' : Gen α} (hg : Gen.Level g g') :
    Tracks globals env (plain g) g' fun _ => env := by
  intro s hs hclear
  refine ⟨.plain hg.agree hclear, fun a t h => ?_⟩
  obtain ⟨w, hw, rfl⟩ := Act.yields_onPart.1 h
  have hle := hg.climbs _ _ _ hw
  exact ⟨hs.apart.mono hle, Int.le_trans hs.index hle⟩

protected theorem pure (a : α) (h : env₁ a = env) :
    Tracks globals env (pure a) (pure a) env₁ := by
  intro s hs hclear
  refine ⟨.plain (.pure a) hclear, fun b t hb => ?_⟩
  obtain ⟨rfl, rfl⟩ := Act.yields_pure.1 hb
  exact h ▸ hs

protected theorem throw (f : Fault) : Tracks globals env (throw f : Watch α) (throw f) env₁ :=
  fun _ _ hclear => ⟨.plain (.throw f) hclear, fun _ _ h => absurd h Act.yields_throw⟩

/-- The next action may use what is known of the results that there can be. -/
theorem bind_of_yields (hm : Tracks globals env m g env₁)
    (hk : ∀ a w v, Yields g w a v → Tracks globals (env₁ a) (k a) (l a) env₂) :
    Tracks globals env (m >>= k) (g >>= l) env₂ := by
  intro s hs hclear
  obtain ⟨hfollows, hfits⟩ := hm s hs hclear
  have next (a : α) (t : Watched) (h : Yields m s a t) :=
    hk a _ _ (hfollows.yields h).1 t (hfits a t h) (hfollows.yields h).2
  refine ⟨hfollows.bind fun a t h _ => (next a t h).1, fun b u h => ?_⟩
  obtain ⟨a, t, h, h'⟩ := Act.yields_bind.1 h
  exact (next a t h).2 b u h'

protected theorem bind (hm : Tracks globals env m g env₁)
    (hk : ∀ a, Tracks globals (env₁ a) (k a) (l a) env₂) :
    Tracks globals env (m >>= k) (g >>= l) env₂ := hm.bind_of_yields fun a _ _ _ => hk a

/-- An action of which nothing is put down, and what comes next. -/
theorem step {g' : Gen α} (hg : Gen.Level g g')
    (hk : ∀ a, Tracks globals env (k a) (l a) env₂) :
    Tracks globals env (Watch.plain g >>= k) (g' >>= l) env₂ := (Tracks.plain hg).bind hk

theorem pure_bind {a : α} (h : Tracks globals env (k a) (l a) env₂) :
    Tracks globals env (pure a >>= k) (pure a >>= l) env₂ := by
  rw [LawfulMonad.pure_bind, LawfulMonad.pure_bind]
  exact h

theorem throw_bind (f : Fault) :
    Tracks globals env ((throw f : Watch α) >>= k) (throw f >>= l) env₂ := by
  have first : Tracks globals env (throw f : Watch α) (throw f) fun _ => env := .throw f
  exact first.bind_of_yields fun _ _ _ h => absurd h Act.yields_throw

protected theorem ite {c : Prop} [Decidable c] {m' : Watch α} {g' : Gen α}
    (h : c → Tracks globals env m g env₁) (h' : ¬ c → Tracks globals env m' g' env₁) :
    Tracks globals env (if c then m else m') (if c then g else g') env₁ := by
  split
  · next hc => exact h hc
  · next hc => exact h' hc

/-- What is in sight is put down. -/
theorem look {params? : Option (List (String × Node))}
    (hparams : ∀ ps, params? = some ps → env = paramSymbols 0 ps ++ globals)
    (hm : Tracks globals env m g env₁) :
    Tracks globals env (look env params? >>= fun _ => m) g env₁ := by
  intro s hs hclear
  refine hm { s with seen := s.seen ++ [⟨env, s.temps, s.work.frame.index, params?⟩] }
    ⟨hs.apart, hs.index⟩ fun v hv => ?_
  rcases List.mem_append.1 hv with hv | hv
  · exact hclear v hv
  · obtain rfl := List.mem_singleton.1 hv
    exact ⟨hs.apart, hparams⟩

theorem see (henv : ctx.scopes.flatten = env) (hm : Tracks globals env m g env₁) :
    Tracks globals env (see ctx >>= fun _ => m) g env₁ := by
  subst henv
  exact hm.look (by simp)

/-- An action that takes a slot goes on with the next index, and with other slots that are
apart. -/
theorem taking {env' : List Symbol} {m' : Watch α} {g' : Gen α} (s : Watched) (temps : List Int)
    (hm' : Tracks globals env' m' g' env₁)
    (hfits : Watched.Fits env' ⟨{ s.work with frame := s.work.frame.indexed }, temps, s.seen⟩)
    (hm : m.start s = m'.start ⟨{ s.work with frame := s.work.frame.indexed }, temps, s.seen⟩)
    (hg : ∀ w : Workspace, w.frame = s.work.frame →
      g.start w = g'.start { w with frame := w.frame.indexed }) (hclear : s.Clear globals) :
    Follows globals m g s ∧ ∀ a t, Yields m s a t → t.Fits (env₁ a) := by
  obtain ⟨⟨r, f, ps, t, hstart, hwork, ht, hl⟩, hpost⟩ := hm' _ hfits hclear
  refine ⟨⟨r, f, ps, t, hm.trans hstart, hwork, ht, fun w hw => ?_⟩, fun a t h => ?_⟩
  · exact (hg w hw).trans (hl { w with frame := w.frame.indexed } (by rw [hw]))
  · exact hpost a t (hm.symm.trans h)

/-- The slot of a literal is apart from all others. -/
theorem temporary {k : Int → Watch β} {l : Int → Gen β}
    (hk : ∀ slot, Tracks globals ctx.scopes.flatten (k slot) (l slot) env₂) :
    Tracks globals ctx.scopes.flatten (temporary ctx >>= k)
      (Gen.onFrame Frame.newIndex >>= l) env₂ := by
  intro s hs hclear
  refine taking s (s.work.frame.index :: s.temps) ((hk s.work.frame.index).see rfl)
    ⟨hs.apart.next hs.index, Int.le_trans hs.index (Frame.advances_indexed _).index⟩ rfl
    (fun w hw => ?_) hclear
  rw [← hw]
  rfl

/-- The first pass goes on after it has given a slot to a name. -/
theorem take {p : Gen.Pass} {n : String} {u : Node} {outer : List Symbol} {k : Gen.Pass → Watch β}
    {l : Gen.Pass → Gen β} (hp : Regular p.locals) (hu : u.isKnownType)
    (hk : ∀ q, Regular q.locals → Tracks globals (q.locals ++ outer) (k q) (l q) env₂) :
    Tracks globals (p.locals ++ outer) (plain (p.take n u) >>= k) (p.take n u >>= l) env₂ := by
  intro s hs hclear
  have next := hk { p with
    locals := p.locals ++ [.localVar n u s.work.frame.index]
    slot? := some s.work.frame.index } (hp.snoc hu)
  refine taking s s.temps next
    ⟨hs.apart.take hs.index, Int.le_trans hs.index (Frame.advances_indexed _).index⟩ rfl
    (fun w hw => ?_) hclear
  rw [← hw]
  rfl

/-- An action that puts nothing down comes last.  It need not keep the index up. -/
theorem ends {g' : Gen β} (hm : Tracks globals env m g env₁) (hg : Gen.Agree g' g') {s : Watched}
    (hs : s.Fits env) (hclear : s.Clear globals) :
    Follows globals (m >>= fun _ => plain g') (g >>= fun _ => g') s :=
  (hm s hs hclear).1.bind fun _ _ _ ht => .plain hg ht

/-- Names go out of sight. -/
theorem hide {locals outer : List Symbol} (h : Tracks globals env m g fun _ => locals ++ outer) :
    Tracks globals env m g fun _ => outer := by
  intro s hs hclear
  obtain ⟨hfollows, hfits⟩ := h s hs hclear
  refine ⟨hfollows, fun a t ht => ⟨(hfits a t ht).apart.sublist ?_, (hfits a t ht).index⟩⟩
  rw [Symbol.slots_append]
  exact (List.Sublist.refl _).append (List.sublist_append_right _ _)

protected theorem forM {as : List α} {f : α → Watch PUnit} {f' : α → Gen PUnit}
    (h : ∀ a ∈ as, Tracks globals env (f a) (f' a) fun _ => env) :
    Tracks globals env (as.forM f) (as.forM f') fun _ => env := by
  induction as with
  | nil => exact .pure _ rfl
  | cons a as ih =>
    exact (h a (List.mem_cons_self ..)).bind fun _ =>
      ih fun a ha => h a (List.mem_cons_of_mem _ ha)

/-- A scope of its own leaves the slots as they were, if the index does not go down. -/
theorem inScope {m : Watch Unit} {g : Gen Unit} (hm : Tracks globals env m g fun _ => env)
    (hindex : ∀ w v, Yields (do
      Gen.onFrame (Frame.enterScope false)
      g
      Gen.onFrame Frame.exitScope) w () v → w.frame.index ≤ v.frame.index) :
    Tracks globals env (inScope m) (do
      Gen.onFrame (Frame.enterScope false)
      g
      Gen.onFrame Frame.exitScope) fun _ => env := by
  intro s hs hclear
  have entering : Gen.Level (Gen.onFrame (Frame.enterScope false)) _ :=
    .onFrame Frame.enterScope_index
  obtain ⟨hfirst, hfits⟩ := (Tracks.plain entering).bind (fun _ => hm) s hs hclear
  have body := hfirst.bind fun _ t _ ht => Follows.plain (.onFrame Frame.exitScope) ht
  simp only [bind_assoc] at body
  have restored (t : Watched) (ht : t.Clear globals) : Follows globals
      (modify fun u => { u with temps := s.temps }) (pure PUnit.unit) t :=
    ⟨.ok ⟨⟩, t.work.frame, [], _, rfl, by simp, ht, fun w hw => by
      rw [← hw, Workspace.extend_self]
      rfl⟩
  have follows := body.bind fun _ t _ ht => restored t ht
  rw [bind_pure_unit] at follows
  refine ⟨follows, fun u t h => ?_⟩
  have hle := hindex _ _ (Follows.yields follows h).1
  simp only [Watch.inScope, Act.yields_bind, Act.yields_get, Act.yields_modify] at h
  obtain ⟨_, _, ⟨rfl, rfl⟩, _, t', -, rfl⟩ := h
  exact ⟨hs.apart.mono hle, Int.le_trans hs.index hle⟩

end Tracks

/-! ## Expressions -/

variable {other : Visitor} {ctx ctx' : Context}

theorem expr_known (h : ctx.Matches ctx') {e : Node} (he : e.isExprTree) {w v : Workspace}
    {r : Piece × Node} (hr : Yields (Gen.expr other ctx' e) w r v) : r.2.isKnownType := by
  obtain ⟨c, f, -, -, -, hknown⟩ := exprCoded h.complete' h.regular' he hr
  exact hknown

mutual

/-- The watched generator tracks the generator for expressions as they are written. -/
theorem expr_tracks (h : ctx.Matches ctx') (e : Node) (he : e.isExprTree) :
    Inside globals ctx (expr other ctx e) (Gen.expr other ctx' e) := by
  cases e with
  | id n =>
    refine .see rfl (.plain (.of_expr h he ((h.readId n).bind fun r => ?_)))
    cases r with
    | none => exact .throw _
    | some r => exact .pure _
  | intLit | stringLit | nilLit =>
    exact .see rfl (.plain (.of_expr h he ((h.need _).bind fun _ => .onFrame_bind fun _ =>
      .pure _)))
  | floatLit | boolLit =>
    exact .see rfl (.plain (.of_expr h he ((Gen.Agree.ofExcept _).bind fun _ =>
      (h.need _).bind fun _ => .onFrame_bind fun _ => .pure _)))
  | cell a is =>
    simp only [Node.isExprTree, Bool.and_eq_true] at he
    exact .see rfl (.step (.needMethod h) fun _ => .bind (expr_tracks h a he.1) fun _ =>
      .bind (cells_tracks h _ is he.2) fun _ => .step (.join _) fun _ => .pure _ rfl)
  | field r n =>
    simp only [Node.isExprTree] at he
    refine .see rfl (.step (.needMethod h) fun _ =>
      .bind_of_yields (expr_tracks h r he) fun x _ _ hr =>
      .bind_of_yields (.plain (.require _)) fun es _ _ hes =>
      .bind_of_yields (.plain (.elementOf _ _)) fun ft _ _ hft => ?_)
    -- The type of the receiver is known, so that of the element is as it is written.
    have htype := Node.isTypeTree_of_elements? (expr_known h he hr) (Gen.yields_require.1 hes).1
      (Gen.yields_elementOf.1 hft).1
    exact .step (.typeOf h htype) fun _ => .step (.ofExcept _) fun _ =>
      .step (.onFrame getField_index) fun _ => .step (.join _) fun _ =>
      .pure _ rfl
  | binary op l r =>
    simp only [Node.isExprTree, Bool.and_eq_true] at he
    exact .see rfl (.step (.needMethod h) fun _ =>
      .bind (expr_tracks h l he.1.2) fun _ => .bind (expr_tracks h r he.2) fun _ =>
      .plain (.binary _ _ _))
  | unary op e =>
    simp only [Node.isExprTree, Bool.and_eq_true] at he
    exact .see rfl (.step (.needMethod h) fun _ =>
      .bind (expr_tracks h e he.2) fun _ => .ite (fun _ => .throw_bind _) fun _ => .pure _ rfl)
  | call n as =>
    simp only [Node.isExprTree] at he
    exact .see rfl (.step (.needMethod h) fun _ => .step (.find h _) fun _ =>
      .bind (args_tracks h as he) fun _ => .step (.require _) fun _ =>
      .step (.onFrame invokeStatic_index) fun _ => .step (.join _) fun _ =>
      .step (.require _) fun _ => .pure _ rfl)
  | methodCall r n as =>
    simp only [Node.isExprTree, Bool.and_eq_true] at he
    exact .see rfl (.step (.needMethod h) fun _ =>
      .bind (expr_tracks h r he.1) fun _ => .bind (args_tracks h as he.2) fun _ =>
      .plain (.methodCall h _ _ _))
  | arrayLit ds e v =>
    simp only [Node.isExprTree, Bool.and_eq_true] at he
    exact .see rfl (.step (.needMethod h) fun _ =>
      .bind (args_tracks h ds he.1.1) fun _ => .step (.onFrame made_index) fun _ =>
      .ite
        (fun _ => .temporary fun _ => .step (.onFrame writeVar_index) fun _ =>
          .bind (arrayValue_tracks h _ _ _ v he.2) fun _ =>
          .step (.onFrame readVar_index) fun _ =>
          .step (.join _) fun _ => .pure _ rfl)
        fun _ => .step (.join _) fun _ => .pure _ rfl)
  | structLit n es =>
    simp only [Node.isExprTree] at he
    exact .see rfl (.step (.needMethod h) fun _ => .step (.find h _) fun _ =>
      .step (.ofExcept _) fun _ => .step (.onFrame newObject_index) fun _ =>
      .step (.onFrame dup_index) fun _ =>
      .step (.onFrame invokeSpecial_index) fun _ =>
      .ite (fun _ => .step (.join _) fun _ => .pure _ rfl)
        fun _ => .temporary fun _ => .step (.onFrame writeVar_index) fun _ =>
          .bind (structValues_tracks h _ _ _ es he) fun _ =>
          .step (.onFrame readVar_index) fun _ =>
          .step (.join _) fun _ => .pure _ rfl)
  | _ => cases he
termination_by structural e

theorem args_tracks (h : ctx.Matches ctx') (es : List Node) (hes : Node.areExprTrees es) :
    Inside globals ctx (args other ctx es) (Gen.args other ctx' es) := by
  cases es with
  | nil => exact .pure _ rfl
  | cons e es =>
    simp only [Node.areExprTrees, Bool.and_eq_true] at hes
    exact .bind (expr_tracks h e hes.1) fun _ => .bind (args_tracks h es hes.2) fun _ =>
      .pure _ rfl
termination_by structural es

theorem cells_tracks (h : ctx.Matches ctx') (t : Node) (is : List Node)
    (his : Node.areExprTrees is) :
    Inside globals ctx (cells other ctx t is) (Gen.cells other ctx' t is) := by
  cases is with
  | nil => exact .pure _ rfl
  | cons i is =>
    simp only [Node.areExprTrees, Bool.and_eq_true] at his
    exact .bind (expr_tracks h i his.1) fun _ => .step (.require _) fun _ =>
      .step (.onFrame loadCell_index) fun _ =>
      .bind (cells_tracks h _ is his.2) fun _ => .pure _ rfl
termination_by structural is

theorem arrayValue_tracks (h : ctx.Matches ctx') (t e : Node) (slot : Int) (v : Node)
    (hv : v.isElementList) :
    Inside globals ctx (arrayValue other ctx t e slot v)
      (Gen.arrayValue other ctx' t e slot v) := by
  cases v with
  | list es => exact arrayValues_tracks h t e slot 0 es hv
  | _ => cases hv
termination_by structural v

theorem arrayValues_tracks (h : ctx.Matches ctx') (t e : Node) (slot : Int) (i : Nat)
    (es : List Node) (hes : Node.areExprTrees es) :
    Inside globals ctx (arrayValues other ctx t e slot i es)
      (Gen.arrayValues other ctx' t e slot i es) := by
  cases es with
  | nil => exact .pure _ rfl
  | cons el es =>
    simp only [Node.areExprTrees, Bool.and_eq_true] at hes
    exact .step (.onFrame readVar_index) fun _ =>
      .step (.onFrame pushInteger_index) fun _ => .bind (expr_tracks h el hes.1) fun _ =>
      .step (.onFrame storeCell_index) fun _ =>
      .bind (arrayValues_tracks h t e slot (i + 1) es hes.2) fun _ => .pure _ rfl
termination_by structural es

theorem structValues_tracks (h : ctx.Matches ctx') (t : Node) (owner : String) (slot : Int)
    (es : List Node) (hes : Node.areFieldTrees es) :
    Inside globals ctx (structValues other ctx t owner slot es)
      (Gen.structValues other ctx' t owner slot es) := by
  cases es with
  | nil => exact .pure _ rfl
  | cons el es =>
    cases el with
    | pair n e =>
      simp only [Node.areFieldTrees, Bool.and_eq_true] at hes
      exact .step (.onFrame readVar_index) fun _ =>
        .bind (expr_tracks h e hes.1) fun _ => .step (.require _) fun _ =>
        .step (.elementOf _ _) fun _ => .step (.onFrame putField_index) fun _ =>
        .bind (structValues_tracks h t owner slot es hes.2) fun _ => .pure _ rfl
    | _ => exact .throw _
termination_by structural es

end

/-! ## Statements -/

theorem exprType_tracks (h : ctx.Matches ctx') {e : Node} (he : e = .none ∨ e.isExprTree) :
    Inside globals ctx (exprType other ctx e) (Gen.exprType other ctx' e) := by
  refine .bind ?_ fun _ => .pure _ rfl
  rcases he with rfl | he
  · exact .see rfl (.plain (.throw _))
  · exact expr_tracks h e he

theorem exprType_known (h : ctx.Matches ctx') {e : Node} (he : e = .none ∨ e.isExprTree)
    {w v : Workspace} {u : Node} (hu : Yields (Gen.exprType other ctx' e) w u v) :
    u.isKnownType := by
  obtain ⟨p, hu⟩ := Gen.yields_exprType hu
  rcases he with rfl | he
  · exact absurd hu (by simp [Gen.expr, Node.hasRule])
  · exact expr_known h he hu

/-- The first pass over a block gives slots of their own to the names it finds. -/
theorem declare_tracks (h : ctx.Matches ctx') (ms : List Node) (hms : Node.areStmtTrees ms)
    (p : Gen.Pass) (hp : Regular p.locals) :
    Tracks globals (p.locals ++ ctx.scopes.flatten) (declare other ctx p ms)
      (Gen.declare other ctx' p ms) fun ls => ls ++ ctx.scopes.flatten := by
  induction ms generalizing p with
  | nil => exact .pure _ rfl
  | cons m ms ih =>
    simp only [Node.areStmtTrees, Bool.and_eq_true] at hms
    have inner := h.enter hp
    -- Once the type is there, a name with a type that is known gets the next slot.
    have rest {n : String} {u : Node} (hu : u.isKnownType) :
        Tracks globals (p.locals ++ ctx.scopes.flatten)
          (do
            let q ← plain (p.take n u)
            plain (Gen.printVar (q.slot?.getD 0) n u)
            declare other ctx q ms)
          (do
            let q ← p.take n u
            Gen.printVar (q.slot?.getD 0) n u
            Gen.declare other ctx' q ms)
          fun ls => ls ++ ctx.scopes.flatten :=
      .take hp hu fun q hq => .step (.printVar _ _ _) fun _ => ih hms.2 q hq
    cases m with
    | var n t i =>
      simp only [Node.isStmtTree, Bool.and_eq_true, Bool.or_eq_true, Node.isNone_iff] at hms
      refine .see rfl (.ite (fun htruthy => ?_) fun _ =>
        .bind_of_yields (exprType_tracks inner hms.1.2.2) fun u _ _ hu =>
          rest (exprType_known inner hms.1.2.2 hu))
      have ht : t.isTypeTree := hms.1.2.1.resolve_left (by rintro rfl; cases htruthy)
      refine .bind_of_yields (.plain (.typeOf inner ht)) fun u _ _ hu => rest ?_
      obtain ⟨f, -, -, hknown⟩ := TypeOf.of_yields inner.complete' ht hu
      exact hknown
    | const n t i =>
      simp only [Node.isStmtTree] at hms
      exact .see rfl (.step (.constant inner i) fun _ =>
        .bind_of_yields (exprType_tracks inner (.inr hms.1.2)) fun u _ _ hu =>
          rest (exprType_known inner (.inr hms.1.2) hu))
    | assign l e =>
      simp only [Node.isStmtTree, Bool.and_eq_true] at hms
      cases l with
      | id n =>
        have line {slot : Int} {u : Node} (q : Gen.Pass) (hq : Regular q.locals) :
            Tracks globals (q.locals ++ ctx.scopes.flatten)
              (do
                plain (Gen.printVar slot n u)
                declare other ctx q ms)
              (do
                Gen.printVar slot n u
                Gen.declare other ctx' q ms)
              fun ls => ls ++ ctx.scopes.flatten :=
          .step (.printVar _ _ _) fun _ => ih hms.2 q hq
        refine .see rfl (.step (.find? h n) fun o => ?_)
        cases o with
        | none =>
          refine .bind_of_yields (exprType_tracks inner (.inr hms.1.2.2)) fun u _ _ hu =>
            .take hp (exprType_known inner (.inr hms.1.2.2) hu) fun q hq => .pure_bind ?_
          obtain ⟨ls, _ | slot, type⟩ := q
          · exact .throw_bind _
          · exact line { locals := ls, slot? := some slot, type? := some u } hq
        | some s =>
          refine .pure_bind ?_
          obtain ⟨ls, _ | slot, _ | type⟩ := p
          · exact .throw_bind _
          · exact .throw_bind _
          · exact .throw_bind _
          · exact line _ hp
      | _ => exact ih hms.2 p hp
    | _ => exact ih hms.2 p hp

theorem indices_tracks (h : ctx.Matches ctx') (c : Code) (is : List Node)
    (his : Node.areExprTrees is) :
    Inside globals ctx (indices other ctx c is) (Gen.indices other ctx' c is) := by
  induction is generalizing c with
  | nil => exact .pure _ rfl
  | cons i is ih =>
    simp only [Node.areExprTrees, Bool.and_eq_true] at his
    exact .bind (expr_tracks h i his.1) fun _ => .step (.after _ _) fun _ => ih _ his.2

theorem assign_tracks (h : ctx.Matches ctx') {l e : Node} (htarget : l.isTarget)
    (hl : l.isExprTree) (he : e.isExprTree) :
    Inside globals ctx (assign other ctx l e) (Gen.assign other ctx' l e) := by
  refine .step (.needMethod h) fun _ => ?_
  -- The value is printed between the target and the instruction that stores it.
  have store (code action : Code) : Inside globals ctx
      (do
        plain (Gen.print code)
        plain (Gen.printPiece (← expr other ctx e).1)
        plain (Gen.print action))
      (do
        Gen.print code
        Gen.printPiece (← Gen.expr other ctx' e).1
        Gen.print action) :=
    .step (.print _) fun _ => .bind (expr_tracks h e he) fun _ =>
      .step (.printPiece _) fun _ => .plain (.print _)
  cases l with
  | id n =>
    refine .step (.find h n) fun s => .bind (expr_tracks h e he) fun _ =>
      .step (.printPiece _) fun _ => ?_
    cases s.home with
    | slot i => exact .plain (.emit writeVar_index)
    | member owner => exact .plain (.emit putStatic_index)
    | unknown => exact .plain (.print _)
  | cell a is =>
    simp only [Node.isExprTree, Bool.and_eq_true] at hl
    refine .bind_of_yields (expr_tracks h a hl.1) fun r _ _ hr =>
      .step (.after _ _) fun _ => .bind (indices_tracks h _ is hl.2) fun _ =>
      .bind_of_yields (.plain (.require _)) fun el _ _ hel => ?_
    have htype := Node.isTypeTree_of_element? (expr_known h hl.1 hr) (Gen.yields_require.1 hel).1
    exact .step (.typeOf h htype) fun _ =>
      .step (.onFrame storeCell_index) fun _ => store _ _
  | field r n =>
    simp only [Node.isExprTree] at hl
    refine .bind_of_yields (expr_tracks h r hl) fun x _ _ hr =>
      .step (.after _ _) fun _ => .bind_of_yields (.plain (.require _)) fun es _ _ hes =>
      .bind_of_yields (.plain (.elementOf _ _)) fun ft _ _ hft => ?_
    have htype := Node.isTypeTree_of_elements? (expr_known h hl hr) (Gen.yields_require.1 hes).1
      (Gen.yields_elementOf.1 hft).1
    exact .step (.typeOf h htype) fun _ => .step (.ofExcept _) fun _ =>
      .step (.onFrame putField_index) fun _ => store _ _
  | _ => cases htarget

theorem varDecl_tracks (h : ctx.Matches ctx') (n : String) {i : Node}
    (hi : i = .none ∨ i.isExprTree) :
    Inside globals ctx (varDecl other ctx n i) (Gen.varDecl other ctx' n i) := by
  refine .step (.needMethod h) fun _ => .step (.find h n) fun s => ?_
  cases s.home with
  | slot j =>
    refine .ite (fun htruthy => ?_) fun _ =>
      .step (.emit zero_index) fun _ => .plain (.emit writeVar_index)
    have hi := hi.resolve_left (by rintro rfl; cases htruthy)
    exact .bind (expr_tracks h i hi) fun _ => .step (.printPiece _) fun _ =>
      .plain (.emit writeVar_index)
  | _ => exact .pure _ rfl

theorem constDecl_tracks (h : ctx.Matches ctx') (n : String) {i : Node} (hi : i.isExprTree) :
    Inside globals ctx (constDecl other ctx n i) (Gen.constDecl other ctx' n i) := by
  refine .step (.needMethod h) fun _ => .step (.find h n) fun s =>
    .step (.require _) fun _ => .bind (expr_tracks h i hi) fun _ =>
    .step (.printPiece _) fun _ => ?_
  cases s.home with
  | slot j => exact .plain (.emit writeVar_index)
  | _ => exact .step (.onFrame writeBank_index) fun _ => .throw _

theorem forEach_tracks (h : ctx.Matches ctx') (i v : Node) {a : Node} (ha : a.isExprTree) :
    Inside globals ctx (forEach other ctx i v a) (Gen.forEach other ctx' i v a) := by
  refine .step (.needMethod h) fun _ => .step (.require _) fun _ =>
    .ite (fun _ => .step (.need h _) fun _ => ?_) fun _ => ?_
  all_goals
    exact .step (.require _) fun _ => .step (.need h _) fun _ =>
      .bind (expr_tracks h a ha) fun _ => .step (.printPiece _) fun _ =>
      .step (.require _) fun _ => .step (.emit dup_index) fun _ =>
      .temporary fun _ => .step (.emit writeVar_index) fun _ => .throw _

theorem returnStmt_tracks (h : ctx.Matches ctx') {e : Node} (he : e = .none ∨ e.isExprTree) :
    Inside globals ctx (returnStmt other ctx e) (Gen.returnStmt other ctx' e) := by
  refine .step (.needMethod h) fun _ => .ite (fun htruthy => ?_) fun _ =>
    .step (.onFrame ret_index) fun _ => .plain (.printPiece _)
  have he := he.resolve_left (by rintro rfl; cases htruthy)
  exact .bind (expr_tracks h e he) fun _ => .step (.printPiece _) fun _ =>
    .step (.onFrame ret_index) fun _ => .plain (.printPiece _)

/-- A block, from the start of its scope to the end. -/
theorem block_tracks (h : ctx.Matches ctx') (ms : List Node) (hms : Node.areStmtTrees ms)
    (hinside : ∀ ls, Regular ls → Tracks globals (ls ++ ctx.scopes.flatten)
      (stmts other (ctx.enter ls) ms) (Gen.stmts other (ctx'.enter ls) ms)
      fun _ => ls ++ ctx.scopes.flatten) :
    Inside globals ctx
      (inScope do
        plain (Gen.printLabel Frame.startLabel)
        let locals ← declare other ctx {} ms
        stmts other (ctx.enter locals) ms
        plain (Gen.printLabel Frame.endLabel))
      (do
        Gen.onFrame (Frame.enterScope false)
        Gen.printLabel Frame.startLabel
        let locals ← Gen.declare other ctx' {} ms
        Gen.stmts other (ctx'.enter locals) ms
        Gen.printLabel Frame.endLabel
        Gen.onFrame Frame.exitScope) := by
  have members : Inside globals ctx
      (do
        plain (Gen.printLabel Frame.startLabel)
        let locals ← declare other ctx {} ms
        stmts other (ctx.enter locals) ms
        plain (Gen.printLabel Frame.endLabel))
      (do
        Gen.printLabel Frame.startLabel
        let locals ← Gen.declare other ctx' {} ms
        Gen.stmts other (ctx'.enter locals) ms
        Gen.printLabel Frame.endLabel) :=
    .step (.emit (label_index Frame.startLabel_eq)) fun _ =>
      .bind_of_yields (declare_tracks h ms hms {} .nil) fun ls _ _ hls =>
      .hide (.bind (hinside ls (declareDeclared h.complete' h.regular' hms .nil hls).2) fun _ =>
        .plain (.emit (label_index Frame.endLabel_eq)))
  have scope := members.inScope fun w v hv => ?_
  · simp only [bind_assoc] at scope
    exact scope
  · simp only [bind_assoc] at hv
    have hblock : Yields (Gen.stmt other ctx' (.block ms)) w () v :=
      Act.yields_bind.2 ⟨(), w, (Context.yields_needMethod h.complete').2 rfl,
        Act.yields_bind.2 ⟨(), w, (Context.yields_need h.complete').2 rfl, hv⟩⟩
    have htree : (Node.block ms).isStmtTree := hms
    obtain ⟨ps, g, rfl, hg, -⟩ :=
      stmtPrinted h.complete' h.regular' htree (by simp [Node.declared?]) hblock
    exact hg.index

mutual

/-- The watched generator tracks the generator for statements as they are written. -/
theorem stmt_tracks {ctx ctx' : Context} (h : ctx.Matches ctx') (m : Node) (hm : m.isStmtTree)
    (hloops : m.hasLoopTrees) :
    Inside globals ctx (stmt other ctx m) (Gen.stmt other ctx' m) := by
  cases m with
  | none => exact .see rfl (.plain (.throw _))
  | var n t i =>
    simp only [Node.isStmtTree, Bool.and_eq_true, Bool.or_eq_true, Node.isNone_iff] at hm
    exact .see rfl (varDecl_tracks h n hm.2)
  | const n t i => exact .see rfl (constDecl_tracks h n hm)
  | assign l e =>
    simp only [Node.isStmtTree, Bool.and_eq_true] at hm
    exact .see rfl (assign_tracks h hm.1.1 hm.1.2 hm.2)
  | block ms =>
    exact .see rfl (.step (.needMethod h) fun _ => .step (.need h _) fun _ =>
      block_tracks h ms hm fun ls hls => stmts_tracks (h.enter hls) ms hm hloops)
  | ifElse c y n =>
    simp only [Node.isStmtTree, Node.hasLoopTrees, Bool.and_eq_true] at hm hloops
    have yes := stmt_tracks h y hm.1.1.2 hloops.1
    exact .see rfl (.step (.needMethod h) fun _ =>
      .bind (expr_tracks h c hm.1.1.1.1) fun _ => .step (.printPiece _) fun _ =>
      .step (.onFrame Frame.newLabel_index) fun _ => .ite
        (fun _ => .step (.onFrame Frame.newLabel_index) fun _ =>
          .step (.emit ifFalse_index) fun _ => .bind yes fun _ =>
          .step (.print _) fun _ => .step (.print _) fun _ =>
          .bind (stmt_tracks h n hm.2 hloops.2) fun _ => .plain (.print _))
        fun _ => .step (.emit ifFalse_index) fun _ => .bind yes fun _ =>
          .plain (.print _))
  | forBasic c b =>
    exact .see rfl (.plain (.bind (.needMethod h) fun _ =>
      .bind (.onFrame Frame.newLabel_index) fun _ =>
      .bind (.onFrame Frame.newLabel_index) fun _ => .throw _))
  | forStep i c p b =>
    simp only [Node.hasLoopTrees, Bool.and_eq_true] at hloops
    exact .see rfl (.step (.needMethod h) fun _ =>
      .step (.onFrame Frame.newLabel_index) fun _ =>
      .step (.onFrame Frame.newLabel_index) fun _ =>
      .step (.onFrame Frame.newLabel_index) fun _ => .step (.need h _) fun _ =>
      .bind (stmt_tracks (h.enter .nil) i hloops.1 hloops.2) fun _ => .throw _)
  | forEach i v a b => exact .see rfl (forEach_tracks h i v hloops)
  | breakLoop =>
    exact .see rfl (.plain (.bind (.needMethod h) fun _ => .emit (label_index Frame.endLabel_eq)))
  | continueLoop =>
    exact .see rfl (.plain (.bind (.needMethod h) fun _ =>
      .emit (label_index Frame.continueLabel_eq)))
  | ret e =>
    simp only [Node.isStmtTree, Bool.or_eq_true, Node.isNone_iff] at hm
    exact .see rfl (returnStmt_tracks h hm)
  | call n as => exact .see rfl (.bind (expr_tracks h _ hm) fun _ => .pure _ rfl)
  | methodCall r n as => exact .see rfl (.bind (expr_tracks h _ hm) fun _ => .pure _ rfl)
  | _ => cases hm
termination_by structural m

theorem stmts_tracks {ctx ctx' : Context} (h : ctx.Matches ctx') (ms : List Node)
    (hms : Node.areStmtTrees ms) (hloops : Node.haveLoopTrees ms) :
    Inside globals ctx (stmts other ctx ms) (Gen.stmts other ctx' ms) := by
  cases ms with
  | nil => exact .pure _ rfl
  | cons m ms =>
    simp only [Node.areStmtTrees, Node.haveLoopTrees, Bool.and_eq_true] at hms hloops
    exact .bind (stmt_tracks h m hms.1.2 hloops.1) fun _ => stmts_tracks h ms hms.2 hloops.2
termination_by structural ms

end

end Watch

/-! ## Methods -/

theorem Symbol.slots_globalSymbols (ds : List Node) : Symbol.slots (globalSymbols ds) = [] := by
  refine List.filterMap_eq_nil_iff.2 fun s hs => ?_
  rw [Symbol.slot?]
  split
  · next i hhome => exact absurd hhome (globalSymbols_home hs i)
  · rfl

theorem Params.apart {ps : List (String × Node)} {f g : Frame} {c : Code} {ss : List Symbol}
    (h : Params ps f c ss g) {slots : List Int} (hslots : Apart slots f.index)
    (hf : 0 ≤ f.index) : Apart (Symbol.slots ss ++ slots) g.index := by
  induction h generalizing slots with
  | nil => exact hslots
  | @cons n t ps f s d c ss g _ _ _ ih =>
    have hnext := ih (hslots.next hf) (Int.le_trans hf (Frame.advances_indexed f).index)
    exact hnext.perm List.perm_middle

/-- The names at the top level have no slots. -/
theorem apart_globals (ds : List Node) : Apart (Symbol.slots (globalSymbols ds)) 0 := by
  rw [Symbol.slots_globalSymbols]
  exact ⟨.nil, by simp⟩

namespace Watch

variable {other : Visitor} {ds ds' : List Node} {s : Watched}

theorem staticInit_follows (hds : ds.all Node.isDeclTree) {items : List (Symbol × Node)}
    (hitems : ∀ item ∈ items, (Gen.initOf item.2).isExprTree) (hs : s.Clear (globalSymbols ds)) :
    Follows (globalSymbols ds) (staticInit other items (globalSymbols ds))
      (Gen.staticInit other items (globalSymbols ds)) s := by
  refine .withFrame (.bind (.plain (startMethod_agree _ _ _) hs) fun _ t h ht => ?_)
  obtain ⟨w, hw, rfl⟩ := yields_plain.1 h
  obtain ⟨d, -, rfl⟩ := Gen.startMethod_yields hw
  have inside : Context.Matches ⟨[globalSymbols ds], []⟩ ⟨[globalSymbols ds], []⟩ :=
    .refl rfl (by simpa using globalSymbols_regular hds)
  have fields : Tracks (globalSymbols ds) (globalSymbols ds)
      (items.forM (initialise other ⟨[globalSymbols ds], []⟩))
      (items.forM (Gen.initialise other ⟨[globalSymbols ds], []⟩)) fun _ => globalSymbols ds := by
    refine .forM fun item hitem => ?_
    have value := @expr_tracks (globalSymbols ds) other _ _ inside _ (hitems item hitem)
    simp only [Inside, List.flatten_cons, List.flatten_nil, List.append_nil] at value
    exact .bind value fun _ => .step (.printPiece _) fun _ => .plain (.emit putStatic_index)
  rw [← bind_assoc]
  exact (fields.look (by simp [paramSymbols])).ends (finishMethod_agree _)
    ⟨apart_globals ds, Int.le_refl 0⟩ ht

theorem func_follows (hds : ds.all Node.isDeclTree) (hds' : ds'.all Node.isDeclTree)
    (hfind : ∀ x, Symbol.find? x (globalSymbols ds) = Symbol.find? x (globalSymbols ds'))
    {n : String} {ps : List Node} {r b : Node} (hd : (Node.func n ps r b).isDeclTree)
    (hloops : b.hasLoopTrees) (hs : s.Clear (globalSymbols ds)) :
    Follows (globalSymbols ds) (func other (globalSymbols ds) n ps r b)
      (Gen.func other ⟨[globalSymbols ds'], [.frame]⟩ n ps r b) s := by
  simp only [Node.isDeclTree, Bool.and_eq_true] at hd
  rw [Gen.func_eq]
  refine .withFrame (.bind (.plain (openFunc_agree n ps r) hs) fun ss t h ht => ?_)
  obtain ⟨w, hw, rfl⟩ := yields_plain.1 h
  obtain ⟨c, type, -, hparams, hss, -⟩ := Gen.openFunc_yields hd.1.1.1 hw
  have inside : (Context.enter ⟨[globalSymbols ds], [.frame]⟩ ss).Matches
      (Context.enter ⟨[globalSymbols ds'], [.frame]⟩ ss) :=
    { complete := rfl
      complete' := rfl
      regular := by simpa using hss.append (globalSymbols_regular hds)
      regular' := by simpa using hss.append (globalSymbols_regular hds')
      find? := fun x => by simp [Symbol.find?_append, hfind x] }
  have body := @stmt_tracks (globalSymbols ds) other _ _ inside b hd.2 hloops
  simp only [Inside, Context.enter_scopes, List.flatten_cons, List.flatten_nil,
    List.append_nil] at body
  have apart := hparams.apart (apart_globals ds) (Int.le_refl 0)
  rw [← bind_assoc]
  refine (body.look ?_).ends (finishMethod_agree _)
    ⟨by simpa using apart, hparams.advances.index⟩ ht
  rintro _ ⟨⟩
  rw [hparams.eq_paramSymbols.1]
  rfl

/-- Actions that one watched action follows do the same. -/
theorem agree_of_follows {α : Type} {globals : List Symbol} {m : Watch α} {g g' : Gen α}
    (h : ∀ s, s.Clear globals → Follows globals m g s)
    (h' : ∀ s, s.Clear globals → Follows globals m g' s) : Gen.Agree g g' := by
  intro f
  have clear : Watched.Clear globals { work := { (default : Workspace) with frame := f } } := by
    simp [Watched.Clear]
  obtain ⟨r, e, ps, t, hstart, hwork, -, hg⟩ := h _ clear
  obtain ⟨r', e', ps', t', hstart', hwork', -, hg'⟩ := h' _ clear
  cases hstart.symm.trans hstart'
  have same := hwork.symm.trans hwork'
  obtain rfl : e = e' := congrArg Workspace.frame same
  obtain rfl : ps = ps' := by simpa using congrArg (fun w => w.current.pieces) same
  exact ⟨r, e, ps, fun w hw => ⟨hg w hw, hg' w hw⟩⟩

end Watch

/-- What is printed for a function depends on what the names at the top level stand for. -/
theorem func_agree {other : Visitor} {ds ds' : List Node}
    (hds : ds.all Node.isDeclTree) (hds' : ds'.all Node.isDeclTree)
    (hfind : ∀ x, Symbol.find? x (globalSymbols ds) = Symbol.find? x (globalSymbols ds'))
    {n : String} {ps : List Node} {r b : Node} (hd : (Node.func n ps r b).isDeclTree)
    (hloops : b.hasLoopTrees) :
    Gen.Agree (Gen.func other ⟨[globalSymbols ds], [.frame]⟩ n ps r b)
      (Gen.func other ⟨[globalSymbols ds'], [.frame]⟩ n ps r b) :=
  Watch.agree_of_follows (fun _ => Watch.func_follows hds hds (fun _ => rfl) hd hloops)
    fun _ => Watch.func_follows hds hds' hfind hd hloops

theorem staticInit_agree {other : Visitor} {ds : List Node}
    (hds : ds.all Node.isDeclTree) {items : List (Symbol × Node)}
    (hitems : ∀ item ∈ items, (Gen.initOf item.2).isExprTree) :
    Gen.Agree (Gen.staticInit other items (globalSymbols ds))
      (Gen.staticInit other items (globalSymbols ds)) :=
  Watch.agree_of_follows (fun _ => Watch.staticInit_follows hds hitems)
    fun _ => Watch.staticInit_follows hds hitems

/-! ## Programs -/

namespace Watch

variable {α β : Type} {globals : List Symbol}

/-- Started there, the watched action does to the workspace what the other one does, and puts down
sound sights. -/
def Mirrors (globals : List Symbol) (m : Watch α) (g : Gen α) (s : Watched) : Prop :=
  ((m.start s).1, (m.start s).2.work) = g.start s.work ∧ (m.start s).2.Clear globals

namespace Mirrors

variable {m : Watch α} {g : Gen α} {k : α → Watch β} {l : α → Gen β} {s : Watched}

protected theorem plain (g : Gen α) (hs : s.Clear globals) : Mirrors globals (plain g) g s :=
  ⟨rfl, hs⟩

theorem get_bind {k : Workspace → Watch β} {l : Workspace → Gen β}
    (h : Mirrors globals (k s.work) (l s.work) s) :
    Mirrors globals (Watch.plain get >>= k) (get >>= l) s := h

theorem of_follows (h : Follows globals m g s) : Mirrors globals m g s := by
  obtain ⟨r, f, ps, t, hstart, hwork, ht, hg⟩ := h
  rw [Mirrors, hstart, hg s.work rfl, ← hwork]
  exact ⟨rfl, ht⟩

protected theorem bind (hm : Mirrors globals m g s)
    (hk : ∀ a t, Yields g s.work a t.work → t.Clear globals → Mirrors globals (k a) (l a) t) :
    Mirrors globals (m >>= k) (g >>= l) s := by
  obtain ⟨hstart, hclear⟩ := hm
  rw [Mirrors, Act.start_bind, Act.start_bind, ← hstart]
  rcases hr : m.start s with ⟨r, t⟩
  rw [hr] at hstart hclear
  cases r with
  | error e => exact ⟨rfl, hclear⟩
  | ok a => exact hk a t hstart.symm hclear

end Mirrors

variable {other : Visitor} {ds : List Node}

theorem topLevels_mirrors (hds : ds.all Node.isDeclTree) :
    ∀ {es : List Node} {s : Watched}, es.all Node.isDeclTree → es.all Node.hasLoopTreesInside →
      s.work.globals = globalSymbols ds → s.Clear (globalSymbols ds) →
      Mirrors (globalSymbols ds) (es.forM (topLevel other)) (es.forM (Gen.topLevel other)) s
  | [], _, _, _, _, hs => .plain (pure ()) hs
  | d :: es, s, hes, hloops, hglobals, hs => by
    simp only [List.all_cons, Bool.and_eq_true] at hes hloops
    have first : Mirrors (globalSymbols ds) (topLevel other d) (Gen.topLevel other d) s := by
      cases d with
      | func n ps r b =>
        refine .get_bind (.of_follows ?_)
        rw [hglobals]
        exact func_follows hds hds (fun _ => rfl) hes.1 hloops.1 hs
      | _ => exact .plain _ hs
    refine first.bind fun _ t h ht => topLevels_mirrors hds hes.2 hloops.2 ?_ ht
    exact (Gen.topLevel_globals hes.1 (hglobals ▸ globalSymbols_regular hds) h).trans hglobals

theorem declarations_mirrors (hds : ds.all Node.isDeclTree)
    (hloops : ds.all Node.hasLoopTreesInside) :
    Mirrors (globalSymbols ds) (declarations other ds) (Gen.declarations other ds)
      { work := .initial } := by
  have clear : Watched.Clear (globalSymbols ds) { work := .initial } := by simp [Watched.Clear]
  refine (Mirrors.plain _ clear).bind fun items s h hs => ?_
  obtain ⟨hglobals, fs, hfs, -⟩ := Gen.prologue_yields hds h
  refine .get_bind (.bind (.of_follows ?_) fun _ t hinit ht => ?_)
  · rw [hglobals]
    exact staticInit_follows hds (hfs.initOf_isExprTree hds) hs
  · obtain ⟨ps, body, hwork, -⟩ := Gen.staticInit_yields (hglobals ▸ globalSymbols_regular hds)
      (hfs.initOf_isExprTree hds) hinit
    exact topLevels_mirrors hds hds hloops (by rw [hwork]; exact hglobals) ht

/-- A watched program is generated as it is unwatched, and all that is put down is sound. -/
theorem run_mirrors (hds : ds.all Node.isDeclTree) (hloops : ds.all Node.hasLoopTreesInside) :
    ((run ds).1, (run ds).2.work) = Gen.run (.program ds) ∧
      (run ds).2.Clear (globalSymbols ds) := by
  rw [Gen.run_program]
  exact (declarations_mirrors hds hloops).bind fun _ _ _ hs =>
    (Mirrors.plain Gen.writeFile hs).bind fun _ _ _ ht => .plain _ ht

end Watch

end MiniGoc
