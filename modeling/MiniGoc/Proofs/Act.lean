import MiniGoc.Listing

/-!
# Actions that succeed

`Act.Yields m s a t` says that the action `m`, started in the state `s`, has the
result `a` and leaves the state `t`.  The lemmas take an action apart along the
operations it is built from, so that a successful run is read as a list of facts
about its steps.  Each is an equivalence, tagged for `simp`.

An action on the frame leaves all else of the workspace alone
(`Gen.yields_onFrame`), and printing only adds to the current listing
(`Gen.yields_printPiece`).
-/

namespace MiniGoc

namespace Act

variable {σ τ α β : Type}
variable {a : α} {s t : σ} {m : Act σ α}

/-- The action has a result, and leaves a state. -/
def Yields (m : Act σ α) (s : σ) (a : α) (t : σ) : Prop := m.start s = (.ok a, t)

/-! ## The operations of actions -/

@[simp] theorem yields_pure {b : α} : Yields (pure a : Act σ α) s b t ↔ b = a ∧ t = s := by
  constructor
  · intro h
    cases h
    exact ⟨rfl, rfl⟩
  · rintro ⟨rfl, rfl⟩
    rfl

/-- The second action is started where the first one has left off, if it has a result. -/
theorem start_bind (m : Act σ α) (k : α → Act σ β) (s : σ) :
    (m >>= k).start s = match m.start s with
      | (.ok a, t) => (k a).start t
      | (.error f, t) => (.error f, t) := by
  show (ExceptT.bindCont k (m.start s).1).run (m.start s).2 = _
  rcases m.start s with ⟨_ | _, _⟩ <;> rfl

/-- What holds after the first action, and is kept up by the second, holds after both, whatever
comes of them. -/
theorem bind_keeps {P : σ → Prop} {k : α → Act σ β} (hm : P (m.start s).2)
    (hk : ∀ a t, Yields m s a t → P t → P ((k a).start t).2) : P ((m >>= k).start s).2 := by
  rw [start_bind]
  rcases hstart : m.start s with ⟨f | a, t⟩
  · rw [hstart] at hm
    exact hm
  · rw [hstart] at hm
    exact hk a t hstart hm

@[simp] theorem yields_bind {k : α → Act σ β} {u : σ} {b : β} :
    Yields (m >>= k) s b u ↔ ∃ a t, Yields m s a t ∧ Yields (k a) t b u := by
  unfold Yields
  rw [start_bind]
  rcases m.start s with ⟨_ | a, t⟩
  · simp
  · constructor
    · intro h
      exact ⟨a, t, rfl, h⟩
    · rintro ⟨_, _, h, h'⟩
      cases h
      exact h'

@[simp] theorem yields_map {g : α → β} {b : β} :
    Yields (g <$> m) s b t ↔ ∃ a, Yields m s a t ∧ b = g a := by
  rw [map_eq_pure_bind, yields_bind]
  constructor
  · rintro ⟨a, u, h, h'⟩
    obtain ⟨rfl, rfl⟩ := yields_pure.1 h'
    exact ⟨a, h, rfl⟩
  · rintro ⟨a, h, rfl⟩
    exact ⟨a, t, h, yields_pure.2 ⟨rfl, rfl⟩⟩

@[simp] theorem yields_throw {f : Fault} : ¬ Yields (throw f : Act σ α) s a t := by
  intro h
  cases h

@[simp] theorem yields_get {a : σ} : Yields (get : Act σ σ) s a t ↔ a = s ∧ t = s := by
  constructor
  · intro h
    cases h
    exact ⟨rfl, rfl⟩
  · rintro ⟨rfl, rfl⟩
    rfl

@[simp] theorem yields_set {u : σ} {a : PUnit} : Yields (set u : Act σ PUnit) s a t ↔ t = u := by
  constructor
  · intro h
    cases h
    rfl
  · rintro rfl
    rfl

@[simp] theorem yields_modify {g : σ → σ} {a : PUnit} :
    Yields (modify g : Act σ PUnit) s a t ↔ t = g s := by
  constructor
  · intro h
    cases h
    rfl
  · rintro rfl
    rfl

@[simp] theorem yields_ofOption {f : Fault} {o : Option α} :
    Yields (ofOption f o : Act σ α) s a t ↔ o = some a ∧ t = s := by
  cases o with
  | none => simp [ofOption]
  | some b => simp [ofOption, eq_comm]

@[simp] theorem yields_ofExcept {r : Except Fault α} :
    Yields (ofExcept r : Act σ α) s a t ↔ r = .ok a ∧ t = s := by
  cases r with
  | error f => simp [ofExcept]
  | ok b => simp [ofExcept, eq_comm]

/-- An action on a part changes that part only. -/
@[simp] theorem yields_onPart {part : σ → τ} {put : τ → σ → σ} {m : Act τ α} :
    Yields (onPart part put m) s a t ↔ ∃ u, Yields m (part s) a u ∧ t = put u s := by
  have unfolded :
      (onPart part put m).start s = ((m.start (part s)).1, put (m.start (part s)).2 s) := rfl
  unfold Yields
  rw [unfolded]
  rcases m.start (part s) with ⟨r, u⟩
  simp only [Prod.mk.injEq]
  constructor
  · rintro ⟨rfl, rfl⟩
    exact ⟨u, ⟨rfl, rfl⟩, rfl⟩
  · rintro ⟨_, ⟨rfl, rfl⟩, rfl⟩
    exact ⟨rfl, rfl⟩

@[simp] theorem yields_andFinally {g : σ → σ} :
    Yields (andFinally m g) s a t ↔ ∃ u, Yields m s a u ∧ t = g u := by
  have unfolded : (andFinally m g).start s = ((m.start s).1, g (m.start s).2) := rfl
  unfold Yields
  rw [unfolded]
  rcases m.start s with ⟨r, u⟩
  simp only [Prod.mk.injEq]
  constructor
  · rintro ⟨rfl, rfl⟩
    exact ⟨u, ⟨rfl, rfl⟩, rfl⟩
  · rintro ⟨_, ⟨rfl, rfl⟩, rfl⟩
    exact ⟨rfl, rfl⟩

theorem yields_forM_nil {g : α → Act σ PUnit} {u : PUnit} :
    Yields (List.forM [] g) s u t ↔ t = s := by
  constructor
  · intro h
    exact (yields_pure.1 h).2
  · rintro rfl
    exact yields_pure.2 ⟨rfl, rfl⟩

theorem yields_forM_cons {as : List α} {g : α → Act σ PUnit} {u : PUnit} :
    Yields (List.forM (a :: as) g) s u t ↔
      ∃ r, Yields (g a) s ⟨⟩ r ∧ Yields (List.forM as g) r u t := by
  show Yields (g a >>= fun _ => List.forM as g) s u t ↔ _
  rw [yields_bind]
  constructor
  · rintro ⟨_, r, h, h'⟩
    exact ⟨r, h, h'⟩
  · rintro ⟨r, h, h'⟩
    exact ⟨⟨⟩, r, h, h'⟩

end Act

open Act (Yields)

/-! ## The operations of the code generator -/

namespace Context

variable {ctx : Context} {w v : Workspace} {u : Unit}

/-- Where nothing is missing, every need is met. -/
@[simp] theorem yields_need {n : Need} (hctx : ctx.missing = []) :
    Yields (ctx.need n) w u v ↔ v = w := by
  simp [need, hctx]

theorem not_yields_need {n : Need} (hn : n ∈ ctx.missing) : ¬ Yields (ctx.need n) w u v := by
  simp [need, hn]

@[simp] theorem yields_needMethod (hctx : ctx.missing = []) :
    Yields ctx.needMethod w u v ↔ v = w := by
  simp [needMethod, hctx]

@[simp] theorem yields_find? {name : String} {s : Option Symbol} (hctx : ctx.missing = []) :
    Yields (ctx.find? name) w s v ↔ s = Symbol.find? name ctx.scopes.flatten ∧ v = w := by
  simp [find?, hctx, and_comm]

@[simp] theorem yields_find {name : String} {s : Symbol} (hctx : ctx.missing = []) :
    Yields (ctx.find name) w s v ↔ Symbol.find? name ctx.scopes.flatten = some s ∧ v = w := by
  simp [find, hctx, eq_comm]

@[simp] theorem enter_missing (ctx : Context) (scope : List Symbol) :
    (ctx.enter scope).missing = [] := rfl

@[simp] theorem enter_scopes (ctx : Context) (scope : List Symbol) :
    (ctx.enter scope).scopes = scope :: ctx.scopes := rfl

end Context

/-- The workspace with another frame, after some pieces have been printed. -/
def Workspace.extend (w : Workspace) (f : Frame) (ps : List Piece) : Workspace :=
  { w with frame := f, current := { w.current with pieces := w.current.pieces ++ ps } }

namespace Workspace

@[simp] theorem extend_frame (w : Workspace) (f : Frame) (ps : List Piece) :
    (w.extend f ps).frame = f := rfl

@[simp] theorem extend_globals (w : Workspace) (f : Frame) (ps : List Piece) :
    (w.extend f ps).globals = w.globals := rfl

@[simp] theorem extend_pieces (w : Workspace) (f : Frame) (ps : List Piece) :
    (w.extend f ps).current.pieces = w.current.pieces ++ ps := rfl

@[simp] theorem extend_extend (w : Workspace) (f g : Frame) (ps qs : List Piece) :
    (w.extend f ps).extend g qs = w.extend g (ps ++ qs) := by
  simp [extend]

theorem extend_nil (w : Workspace) (f : Frame) : w.extend f [] = { w with frame := f } := by
  simp [extend]

@[simp] theorem extend_self (w : Workspace) : w.extend w.frame [] = w := by
  simp [extend]

end Workspace

namespace Gen

variable {α : Type}

variable {w v : Workspace} {u : Unit}

@[simp] theorem yields_onFrame {m : Act Frame α} :
    Yields (onFrame m) w a v ↔ ∃ f, Yields m w.frame a f ∧ v = w.extend f [] := by
  simp [onFrame, Workspace.extend]

@[simp] theorem yields_printPiece {p : Piece} :
    Yields (printPiece p) w u v ↔ v = w.extend w.frame [p] := by
  simp [printPiece, Workspace.extend]

@[simp] theorem yields_print {c : Code} :
    Yields (print c) w u v ↔ v = w.extend w.frame [some c] := by
  simp [print]

@[simp] theorem yields_emit {m : Act Frame Code} :
    Yields (emit m) w u v ↔ ∃ c f, Yields m w.frame c f ∧ v = w.extend f [some c] := by
  simp only [emit, Act.yields_bind, yields_onFrame, yields_print]
  constructor
  · rintro ⟨c, _, ⟨f, h, rfl⟩, rfl⟩
    exact ⟨c, f, h, by simp⟩
  · rintro ⟨c, f, h, rfl⟩
    exact ⟨c, _, ⟨f, h, rfl⟩, by simp⟩

@[simp] theorem yields_require {o : Option α} : Yields (require o) w a v ↔ o = some a ∧ v = w := by
  simp [require]

/-- Pieces are joined if none is missing. -/
@[simp] theorem yields_join {ps : List Piece} {c : Code} :
    Yields (join ps) w c v ↔ Emit.join ps = .ok c ∧ v = w := by
  simp [join]

end Gen

end MiniGoc
