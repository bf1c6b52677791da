import MiniGoc.Proofs.Lookahead

/-!
# Where a reader stops

`Reader.Steady` compares the runs of a reader on two token lists that start alike.  If one
run stops within the common part, at the end of what it has read or at a token it cannot
use, the other one stops there in the same way.  So a reader does not depend on tokens behind
the one it stops at.  The two readers may differ in the rounds that their loops have left.

There is one exception (`Exempt`).  Outside of brackets, whether an identifier and an open
brace start a struct literal depends on up to two more tokens.

A decision that the common part does not settle must not matter either.  In that case both branches
take all of it (`Clears`).
-/

namespace MiniGoc.Reader

variable {α β : Type}

/-! ## Positions -/

/-- The tokens that are left where a run stops, with the one it stops at. -/
def position : Except Stuck (α × TokenList) → Option TokenList
  | .ok (_, r) => some r
  | .error (.unexpected t r) => some (t :: r)
  | .error .ended => none

/-- A run stops among the tokens it is given. -/
def Stops (m : Reader α) : Prop := ∀ ts r, position (m ts) = some r → r <:+ ts

/-- A run takes all tokens of the kinds. -/
def Clears (ks : List TokenKind) (m : Reader α) : Prop :=
  ∀ u x r, u.map Token.kind = ks → position (m (u ++ x)) = some r → r <:+ x

/-- A run does not take a token of the kind. -/
def Rests (k : TokenKind) (m : Reader α) : Prop :=
  ∀ t ts r, t.kind = k → position (m (t :: ts)) = some r → r = t :: ts

/-- A run does not stop between an open brace and an identifier. -/
def Firm (m : Reader α) : Prop :=
  ∀ b i x, b.kind = .openBrace → i.kind = .ident → position (m (b :: i :: x)) ≠ some (i :: x)

/-- Two runs that stop before the same tokens `v`, which are followed by `x` or by `y`. -/
inductive Alike (v x y : TokenList) :
    Except Stuck (α × TokenList) → Except Stuck (α × TokenList) →
      Prop where
  | done {a : α} : Alike v x y (.ok (a, v ++ x)) (.ok (a, v ++ y))
  | stuck {t : Token TokenKind} {w : TokenList} : v = t :: w →
      Alike v x y (.error (.unexpected t (w ++ x))) (.error (.unexpected t (w ++ y)))

variable {v x u : TokenList} {ms : List (Reader Forest)}
  {pattern : List (List TokenKind)}

theorem Alike.stuck_inv {y r : TokenList} {t : Token TokenKind}
    {res : Except Stuck (α × TokenList)}
    (h : Alike v x y (.error (.unexpected t r)) res) :
    ∃ w, v = t :: w ∧ r = w ++ x ∧ res = .error (.unexpected t (w ++ y)) := by
  cases h with
  | stuck hv => exact ⟨_, hv, rfl, rfl⟩

/-- An identifier has been read, and an open brace, or the brace and an identifier, are next. -/
def Exempt (loose : Bool) (u v : TokenList) : Prop :=
  loose = true ∧ ∃ w i, u = w ++ i :: v ∧ i.kind = .ident ∧
    (v.map Token.kind = [.openBrace] ∨ v.map Token.kind = [.openBrace, .ident])

/-- Two readers that stop alike within a common part.  The first one takes tokens of the given
kinds, as many of them as there are at the start of the common part. -/
structure Steady (loose : Bool) (ks : List TokenKind) (m m' : Reader α) : Prop where
  stops : Stops m
  clears : ∀ q, q <+: ks → q ≠ [] → Clears q m
  same : ∀ u x y v, v ≠ [] → position (m (u ++ x)) = some (v ++ x) → ¬Exempt loose u v →
    Alike v x y (m (u ++ x)) (m' (u ++ y))

theorem Exempt.of_suffix {loose : Bool} {u' : TokenList} (h : Exempt loose u' v)
    (hu : u' <:+ u) : Exempt loose u v := by
  obtain ⟨hl, w, i, rfl, hi⟩ := h
  obtain ⟨w', rfl⟩ := hu
  exact ⟨hl, w' ++ w, i, by simp, hi⟩

/-- What is left of tokens that are exempt is exempt, or it is the identifier. -/
theorem Exempt.suffix {loose : Bool} {v' : TokenList} (h : Exempt loose u v')
    (hv : v <:+ v') (hne : v ≠ []) :
    v = v' ∨ ∃ b i, b.kind = .openBrace ∧ i.kind = .ident ∧ v' = [b, i] ∧ v = [i] := by
  have hone (t : Token TokenKind) (h : v <:+ [t]) : v = [t] :=
    (List.suffix_cons_iff.1 h).resolve_right fun h => hne (List.suffix_nil.1 h)
  obtain ⟨-, -, -, -, -, h | h⟩ := h
  · obtain ⟨b, rfl, -⟩ := List.map_eq_singleton_iff.1 h
    exact .inl (hone b hv)
  · obtain ⟨b, rest, rfl, hb, h⟩ := List.map_eq_cons_iff.1 h
    obtain ⟨i, rfl, hi⟩ := List.map_eq_singleton_iff.1 h
    rcases List.suffix_cons_iff.1 hv with hv | hv
    · exact .inl hv
    · exact .inr ⟨b, i, hb, hi, rfl, hone i hv⟩

theorem suffix_append_cases {r : TokenList} (h : r <:+ u ++ x) :
    (∃ v, r = v ++ x ∧ v <:+ u) ∨ r <:+ x := by
  rcases List.suffix_or_suffix_of_suffix h (List.suffix_append u x) with h' | ⟨v, rfl⟩
  · exact .inr h'
  · obtain ⟨w, hw⟩ := h
    rw [← List.append_assoc] at hw
    exact .inl ⟨v, rfl, w, List.append_cancel_right hw⟩

/-! ## Tokens that are not taken -/

namespace Rests

variable {m : Reader α} {f : α → Reader β} {k : TokenKind}

theorem firm (h : Rests .openBrace m) : Firm m := by
  intro b i x hb hi hpos
  have := congrArg List.length (h b (i :: x) _ hb hpos)
  simp at this

theorem ended : Rests k (ended : Reader α) := fun _ _ _ _ h => by cases h

protected theorem pure {a : α} : Rests k (pure a) := fun _ _ _ _ h => by simp_all [position]

variable {ks : List TokenKind} {pattern : List (List TokenKind)} {n : Nat}

theorem oneOf (hk : ks.contains k = false) : Rests k (oneOf ks) := by
  replace hk : k ∉ ks := by simpa using hk
  rintro t ts r rfl h
  simpa [Reader.oneOf, hk, position, eq_comm] using h

protected theorem bind (hm : Rests k m) (hf : ∀ a, Rests k (f a)) : Rests k (m >>= f) := by
  intro t ts r ht h
  rw [bind_apply] at h
  generalize hres : m (t :: ts) = res at h
  match res with
  | .ok (a, r') =>
    obtain rfl := hm t ts r' ht (by rw [hres]; rfl)
    exact hf a t ts r ht h
  | .error (.unexpected u r') => exact hm t ts r ht (by rw [hres]; exact h)
  | .error .ended => cases h

theorem seq_nil : Rests k (seq []) := .pure

theorem seq_cons {m : Reader Forest} {ms : List (Reader Forest)} (hm : Rests k m)
    (hms : Rests k (seq ms)) : Rests k (seq (m :: ms)) :=
  hm.bind fun _ => hms.bind fun _ => .pure

theorem seq_oneOf {ms : List (Reader Forest)} (hk : ks.contains k = false) :
    Rests k (seq (Reader.oneOf ks :: ms)) := by
  replace hk : k ∉ ks := by simpa using hk
  rintro t ts r rfl h
  simpa [seq, bind_apply, Reader.oneOf, hk, position, eq_comm] using h

theorem rule {m : Reader Forest} {r : Rule} (hm : Rests k m) : Rests k (rule r m) :=
  hm.bind fun _ => .pure

theorem ifAhead {yes no : Reader α} (hk : ks.contains k = false) (hno : Rests k no) :
    Rests k (ifAhead (ks :: pattern) yes no) := by
  replace hk : k ∉ ks := by simpa using hk
  rintro t ts r rfl h
  simp only [Reader.ifAhead, looksLike_cons, hk, if_false] at h
  exact hno t ts r rfl h

theorem ifNext {yes no : Reader α} (hk : ks.contains k = false) (hno : Rests k no) :
    Rests k (ifNext ks yes no) :=
  ifAhead hk hno

theorem many {body : Reader α} (hk : ks.contains k = false) :
    Rests k (many (ks :: pattern) body n) := by
  cases n with
  | zero => exact ended
  | succ n => exact ifAhead hk .pure

theorem manyTrees {body : Reader Forest} (hk : ks.contains k = false) :
    Rests k (manyTrees (ks :: pattern) body n) :=
  (many hk).bind fun _ => .pure

theorem joined {r : Rule} {tail : Reader Forest} {t : SyntaxTree} (hk : ks.contains k = false) :
    Rests k (joined r ks tail n t) := by
  cases n with
  | zero => exact ended
  | succ n => exact ifNext hk .pure

end Rests

theorem Firm.seq_oneOf {ks : List TokenKind} (hk : ks.contains .openBrace = false) :
    Firm (seq (oneOf ks :: ms)) :=
  (Rests.seq_oneOf hk).firm

/-! ## Tokens that are taken -/

theorem position_map {m : Reader α} {g : α → β} {ts : TokenList} :
    position ((m >>= fun a => pure (g a)) ts) = position (m ts) := by
  rw [bind_apply]
  generalize m ts = res
  match res with
  | .ok (a, r) => rfl
  | .error (.unexpected t r) => rfl
  | .error .ended => rfl

protected theorem Stops.bind {m : Reader α} {f : α → Reader β} (hm : Stops m)
    (hf : ∀ a, Stops (f a)) : Stops (m >>= f) := by
  intro ts r h
  rw [bind_apply] at h
  generalize hres : m ts = res at h
  match res with
  | .ok (a, r') => exact (hf a r' r h).trans (hm ts r' (by rw [hres]; rfl))
  | .error (.unexpected t r') => exact hm ts r (by rw [hres]; exact h)
  | .error .ended => cases h

theorem Stops.oneOf {ls : List TokenKind} : Stops (oneOf ls) := by
  intro ts r h
  cases ts with
  | nil => cases h
  | cons t ts =>
    by_cases hk : t.kind ∈ ls
    · obtain rfl : ts = r := by simpa [Reader.oneOf, hk, position] using h
      exact List.suffix_cons t ts
    · obtain rfl : t :: ts = r := by simpa [Reader.oneOf, hk, position] using h
      exact List.suffix_rfl

theorem Stops.eq_nil {m : Reader α} (h : Stops m) (hpos : position (m x) = some (v ++ x)) :
    v = [] := by
  have := (h x _ hpos).length_le
  rw [List.length_append] at this
  exact List.length_eq_zero_iff.1 (by omega)

theorem Stops.ifAhead {yes no : Reader α} (hyes : Stops yes) (hno : Stops no) :
    Stops (ifAhead pattern yes no) := by
  intro ts r h
  unfold Reader.ifAhead at h
  split at h
  · exact hyes ts r h
  · exact hno ts r h
  · cases h

theorem looksLike_append {b : Bool} (h : looksLike pattern u = some b) :
    looksLike pattern (u ++ x) = some b := by
  induction pattern generalizing u with
  | nil => simpa using h
  | cons ks pattern ih =>
    cases u with
    | nil => cases h
    | cons t u =>
      rw [List.cons_append, looksLike_cons] at *
      split at h
      · exact (if_pos ‹_›).trans (ih h)
      · exact (if_neg ‹_›).trans h

/-- Tokens that do not settle a pattern are as it says. -/
theorem kinds_prefix_of_undecided {ks : List TokenKind} (h : looksLike pattern u = none)
    (hp : pattern.dropLast <+: ks.map ([·])) : u.map Token.kind <+: ks := by
  induction pattern generalizing u ks with
  | nil => simp at h
  | cons ls pattern ih =>
    cases u with
    | nil => exact List.nil_prefix
    | cons t u =>
      rw [looksLike_cons] at h
      split at h
      · rename_i ht
        cases pattern with
        | nil => simp at h
        | cons ms pattern =>
          cases ks with
          | nil => simp at hp
          | cons k ks =>
            rw [List.dropLast_cons_cons, List.map_cons, List.cons_prefix_cons] at hp
            rw [hp.1, List.mem_singleton] at ht
            rw [List.map_cons, List.cons_prefix_cons]
            exact ⟨ht, ih h hp.2⟩
      · cases h

theorem Stops.many {body : Reader α} {n : Nat} (hbody : Stops body) :
    Stops (many pattern body n) := by
  have hpure {γ : Type} (c : γ) : Stops (pure c : Reader γ) := fun ts r h => by
    simp_all [position]
  induction n with
  | zero => exact fun _ _ h => by cases h
  | succ n ih => exact .ifAhead (hbody.bind fun _ => ih.bind fun _ => hpure _) (hpure _)

namespace Clears

variable {m : Reader α} {f : α → Reader β} {k : TokenKind} {ks : List TokenKind}

theorem of_stops (h : Stops m) : Clears [] m := by
  intro u x r hu hpos
  obtain rfl := List.map_eq_nil_iff.1 hu
  exact h x r hpos

protected theorem bind (hm : Clears ks m) (hf : ∀ a, Stops (f a)) : Clears ks (m >>= f) := by
  intro u x r hu h
  rw [bind_apply] at h
  generalize hres : m (u ++ x) = res at h
  match res with
  | .ok (a, r') => exact (hf a r' r h).trans (hm u x r' hu (by rw [hres]; rfl))
  | .error (.unexpected t r') => exact hm u x r hu (by rw [hres]; exact h)
  | .error .ended => cases h

theorem token {ls : List TokenKind} {ms : List (Reader Forest)} (hms : Clears ks (seq ms))
    (hk : k ∈ ls) : Clears (k :: ks) (seq (oneOf ls :: ms)) := by
  intro u x r hu h
  obtain ⟨t, u', rfl, rfl, hu'⟩ := List.map_eq_cons_iff.1 hu
  rw [seq, bind_apply] at h
  simp only [oneOf, List.cons_append, hk, if_true, position_map] at h
  exact hms u' x r hu' h

theorem ifAhead {pattern : List (List TokenKind)} {yes no : Reader α} (hyes : Clears ks yes)
    (hno : Clears ks no) : Clears ks (ifAhead pattern yes no) := by
  intro u x r hu h
  unfold Reader.ifAhead at h
  split at h
  · exact hyes u x r hu h
  · exact hno u x r hu h
  · cases h

end Clears

/-- A brace is taken, and the identifier behind it too. -/
theorem Firm.token (hms : Clears [.ident] (seq ms)) : Firm (seq (expect .openBrace :: ms)) := by
  intro b i x hb hi h
  have hsuffix := hms.token (k := .openBrace) (List.mem_singleton_self _) [b, i] x _
    (by simp [hb, hi]) h
  have := hsuffix.length_le
  simp only [List.length_cons] at this
  omega

theorem Firm.map {m : Reader α} {g : α → β} (hm : Firm m) :
    Firm (m >>= fun a => pure (g a)) := by
  intro b i x hb hi h
  rw [position_map] at h
  exact hm b i x hb hi h

protected theorem Firm.bind {m : Reader α} {f : α → Reader β} (hm : Firm m) (hs : Stops m)
    (hf : ∀ a, Firm (f a)) (hfs : ∀ a, Stops (f a)) : Firm (m >>= f) := by
  intro b i x hb hi h
  rw [bind_apply] at h
  generalize hres : m (b :: i :: x) = res at h
  match res with
  | .ok (a, r) =>
    have hpos : position (m (b :: i :: x)) = some r := by rw [hres]; rfl
    -- The first reader takes nothing, or both tokens.
    rcases List.suffix_cons_iff.1 (hs _ _ hpos) with rfl | hr
    · exact hf a b i x hb hi h
    · rcases List.suffix_cons_iff.1 hr with rfl | hr
      · exact hm b i x hb hi hpos
      · have := ((hfs a r _ h).trans hr).length_le
        simp only [List.length_cons] at this
        omega
  | .error (.unexpected t r) => exact hm b i x hb hi (by rw [hres]; exact h)
  | .error .ended => cases h

theorem Firm.seq_cons {m : Reader Forest} (hm : Firm m) (hs : Stops m) (hms : Firm (seq ms))
    (hss : Stops (seq ms)) : Firm (seq (m :: ms)) := by
  refine hm.bind hs (fun _ => hms.map) fun _ => ?_
  intro ts r h
  rw [position_map] at h
  exact hss ts r h

/-! ## Rules -/

namespace Steady

variable {m m' : Reader α} {f f' : α → Reader β} {loose l : Bool} {ks : List TokenKind}

variable {ls : List TokenKind} {ms : List (Reader Forest)} {k : TokenKind} {r : Rule}
  {pattern : List (List TokenKind)} {n n' : Nat}

theorem shorten (h : Steady loose ks m m') (hl : ls <+: ks) :
    Steady loose ls m m' where
  stops := h.stops
  clears q hq hne := h.clears q (hq.trans hl) hne
  same := h.same

theorem weaken (h : Steady loose ks m m') : Steady loose [] m m' := h.shorten List.nil_prefix

theorem loosen (h : Steady false ks m m') : Steady loose ks m m' where
  stops := h.stops
  clears := h.clears
  same u x y v hv hpos _ := h.same u x y v hv hpos (by simp [Exempt])

theorem ended : Steady loose ks (ended : Reader α) m' where
  stops _ _ h := by cases h
  clears _ _ _ _ _ _ _ h := by cases h
  same _ _ _ _ _ h := by cases h

protected theorem pure {a : α} : Steady loose [] (pure a) (pure a) where
  stops ts r h := by simp_all [position]
  clears _ hq hne := absurd (List.prefix_nil.1 hq) hne
  same u x y v hv h _ := by
    obtain rfl : u = v := by simpa [position] using h
    exact .done

/-- One reader after the other.  If the first one may stop where the exception applies, the
second one must be firm. -/
protected theorem bind (hm : Steady l ks m m') (hf : ∀ a, Steady loose [] (f a) (f' a))
    (hl : l = true → loose = true ∧ ∀ a, Firm (f a)) : Steady loose ks (m >>= f) (m' >>= f') where
  stops := hm.stops.bind fun a => (hf a).stops
  clears q hq hne := (hm.clears q hq hne).bind fun a => (hf a).stops
  same u x y v hv h hex := by
    rw [bind_apply] at h ⊢
    rw [bind_apply]
    generalize hres : m (u ++ x) = res at h ⊢
    match res with
    | .error .ended => simp [position] at h
    | .error (.unexpected t r) =>
      have hpos : position (m (u ++ x)) = some (v ++ x) := by rw [hres]; exact h
      have := hm.same u x y v hv hpos fun he => hex ⟨(hl he.1).1, he.2⟩
      rw [hres] at this
      generalize m' (u ++ y) = res' at this ⊢
      cases this with
      | stuck hv => exact .stuck hv
    | .ok (a, r) =>
      -- The tokens that the first reader leaves.
      have hr := hm.stops (u ++ x) r (by rw [hres]; rfl)
      obtain ⟨w, rfl⟩ := (hf a).stops r _ h
      rw [← List.append_assoc] at hr h hres
      change Alike v x y (f a (w ++ (v ++ x))) _
      rw [← List.append_assoc]
      have hne : w ++ v ≠ [] := by simp [hv]
      have hwu : w ++ v <:+ u := by
        rcases suffix_append_cases hr with ⟨v', heq, hv'⟩ | hx
        · exact List.append_cancel_right heq ▸ hv'
        · have := List.length_pos_iff.2 hv
          have := hx.length_le
          simp only [List.length_append] at this
          omega
      by_cases he : Exempt l u (w ++ v)
      · rcases he.suffix (List.suffix_append w v) hv with heq | ⟨b, i, hb, hi, heq, rfl⟩
        · exact absurd (heq ▸ ⟨(hl he.1).1, he.2⟩) hex
        · rw [heq] at h
          exact absurd h ((hl he.1).2 a b i x hb hi)
      · have hfirst := hm.same u x y (w ++ v) hne (by rw [hres]; rfl) he
        rw [hres] at hfirst
        generalize m' (u ++ y) = res' at hfirst ⊢
        cases hfirst with
        | done => exact (hf a).same (w ++ v) x y v hv h fun he => hex (he.of_suffix hwu)

theorem bind_tight (hm : Steady false ks m m') (hf : ∀ a, Steady loose [] (f a) (f' a)) :
    Steady loose ks (m >>= f) (m' >>= f') :=
  hm.bind hf fun h => by cases h

theorem map {g : α → β} (hm : Steady loose ks m m') :
    Steady loose ks (m >>= fun a => pure (g a)) (m' >>= fun a => pure (g a)) :=
  hm.bind (fun _ => .pure) fun h => ⟨h, fun _ => Rests.pure.firm⟩

theorem oneOf : Steady loose [] (oneOf ls) (oneOf ls) where
  stops := .oneOf
  clears _ hq hne := absurd (List.prefix_nil.1 hq) hne
  same u x y v hv h _ := by
    cases u with
    | nil => exact absurd (Stops.oneOf.eq_nil h) hv
    | cons t u =>
      by_cases hk : t.kind ∈ ls
      · obtain rfl : u = v := by simpa [Reader.oneOf, hk, position] using h
        simpa [Reader.oneOf, hk] using Alike.done
      · have h : some ((t :: u) ++ x) = some (v ++ x) := by
          simpa [Reader.oneOf, hk, position] using h
        obtain rfl : t :: u = v := List.append_cancel_right (Option.some.inj h)
        simpa [Reader.oneOf, hk] using Alike.stuck rfl

theorem nil : Steady loose [] (seq []) (seq []) := Steady.pure

theorem cons {m m' : Reader Forest} {ms ms' : List (Reader Forest)} (hm : Steady false ks m m')
    (hms : Steady loose [] (seq ms) (seq ms')) :
    Steady loose ks (seq (m :: ms)) (seq (m' :: ms')) :=
  hm.bind_tight fun _ => hms.map

theorem last {m m' : Reader Forest} (hm : Steady loose ks m m') :
    Steady loose ks (seq [m]) (seq [m']) :=
  hm.map (g := (· ++ []))

theorem cons_loose {m m' : Reader Forest} {ms' : List (Reader Forest)} (hm : Steady true ks m m')
    (hms : Steady true [] (seq ms) (seq ms')) (hf : Firm (seq ms)) :
    Steady true ks (seq (m :: ms)) (seq (m' :: ms')) :=
  hm.bind (fun _ => hms.map) (fun _ => ⟨rfl, fun _ => hf.map⟩)

theorem token {ms' : List (Reader Forest)} {t : TokenKind}
    (hms : Steady loose ks (seq ms) (seq ms')) :
    Steady loose (t :: ks) (seq (expect t :: ms)) (seq (expect t :: ms')) where
  stops := (cons oneOf hms.weaken).stops
  clears q hq hne := by
    rcases List.prefix_cons_iff.1 hq with rfl | ⟨q, rfl, hq'⟩
    · exact absurd rfl hne
    · refine Clears.token ?_ (List.mem_singleton_self t)
      cases q with
      | nil => exact .of_stops hms.stops
      | cons k q => exact hms.clears _ hq' (by simp)
  same := (cons oneOf hms.weaken).same

theorem oneOf_takes (hk : ls.contains k = true) :
    Steady loose [k] (Reader.oneOf ls) (Reader.oneOf ls) where
  stops := .oneOf
  clears q hq hne := by
    obtain rfl : q = [k] := by
      simpa [hne, List.prefix_cons_iff, List.prefix_nil] using hq
    intro u x r hu h
    obtain ⟨t, rfl, rfl⟩ := List.map_eq_singleton_iff.1 hu
    rw [List.contains_iff_mem] at hk
    obtain rfl : x = r := by simpa [Reader.oneOf, hk, position] using h
    exact List.suffix_rfl
  same := oneOf.same

theorem rule {m m' : Reader Forest} (hm : Steady loose ks m m') :
    Steady loose ks (rule r m) (rule r m') :=
  hm.map

theorem reject : Steady loose [] (reject : Reader α) reject where
  stops ts r h := by
    cases ts with
    | nil => cases h
    | cons t ts => exact Option.some.inj h ▸ List.suffix_rfl
  clears _ hq hne := absurd (List.prefix_nil.1 hq) hne
  same u x y v hv h _ := by
    cases u with
    | nil =>
      cases x with
      | nil => cases h
      | cons t x =>
        exact absurd (List.self_eq_append_left.1 (Option.some.inj h)) hv
    | cons t u =>
      obtain rfl : t :: u = v := List.append_cancel_right (Option.some.inj h)
      exact .stuck rfl

/-! ### Decisions -/

/-- A decision.  If the common part does not settle it, no branch stops within that part but where
the exception applies. -/
theorem ifAhead_open {yes yes' no no' : Reader α} (hyes : Steady loose [] yes yes')
    (hno : Steady loose [] no no')
    (hopen : ∀ u, u ≠ [] → looksLike pattern u = none → ∀ x v, v ≠ [] →
      position (yes (u ++ x)) = some (v ++ x) ∨ position (no (u ++ x)) = some (v ++ x) →
        Exempt loose u v) :
    Steady loose [] (ifAhead pattern yes no) (ifAhead pattern yes' no') where
  stops := Stops.ifAhead hyes.stops hno.stops
  clears _ hq hne := absurd (List.prefix_nil.1 hq) hne
  same u x y v hv h hex := by
    cases hlook : looksLike pattern u with
    | some b =>
      simp only [Reader.ifAhead, looksLike_append hlook] at h ⊢
      cases b with
      | true => exact hyes.same u x y v hv h hex
      | false => exact hno.same u x y v hv h hex
    | none =>
      have hu : u ≠ [] := by
        rintro rfl
        exact hv ((Stops.ifAhead hyes.stops hno.stops).eq_nil h)
      refine absurd (hopen u hu hlook x v hv ?_) hex
      unfold Reader.ifAhead at h
      split at h
      · exact .inl h
      · exact .inr h
      · cases h

/-- A decision by tokens that both branches take. -/
theorem ifAhead {yes yes' no no' : Reader α} (hyes : Steady loose ks yes yes')
    (hno : Steady loose ks no no') (hp : pattern.dropLast.isPrefixOf (ks.map ([·])) = true) :
    Steady loose ks (ifAhead pattern yes no) (ifAhead pattern yes' no') where
  stops := Stops.ifAhead hyes.stops hno.stops
  clears q hq hne := (hyes.clears q hq hne).ifAhead (hno.clears q hq hne)
  same := by
    refine (ifAhead_open hyes.weaken hno.weaken ?_).same
    intro u hu hlook x v hv h
    have hq : u.map Token.kind <+: ks :=
      kinds_prefix_of_undecided hlook (List.isPrefixOf_iff_prefix.1 hp)
    have hclears : v ++ x <:+ x := by
      rcases h with h | h
      · exact hyes.clears _ hq (by simpa using hu) u x _ rfl h
      · exact hno.clears _ hq (by simpa using hu) u x _ rfl h
    have := hclears.length_le
    rw [List.length_append] at this
    exact absurd (List.length_eq_zero_iff.1 (by omega)) hv

theorem ifNext {yes yes' no no' : Reader α} (hyes : Steady loose ks yes yes')
    (hno : Steady loose ks no no') : Steady loose ks (ifNext ls yes no) (ifNext ls yes' no') :=
  hyes.ifAhead hno rfl

/-- A decision that the first token settles. -/
theorem ifNext_of_notMem {yes yes' no no' : Reader α} (hyes : Steady loose [] yes yes')
    (hno : Steady loose (k :: ks) no no') (hk : ls.contains k = false) :
    Steady loose (k :: ks) (Reader.ifNext ls yes no) (Reader.ifNext ls yes' no') where
  stops := Stops.ifAhead hyes.stops hno.stops
  clears q hq hne := by
    rcases List.prefix_cons_iff.1 hq with rfl | ⟨q, rfl, -⟩
    · exact absurd rfl hne
    · intro u x r hu h
      obtain ⟨t, u', rfl, rfl, hu'⟩ := List.map_eq_cons_iff.1 hu
      replace hk : t.kind ∉ ls := by simpa using hk
      simp only [Reader.ifNext, Reader.ifAhead, List.cons_append, looksLike_cons, hk, if_false] at h
      exact hno.clears _ hq hne (t :: u') x r hu h
  same := (hyes.ifNext hno.weaken).same

theorem ifNext_of_mem {yes yes' no no' : Reader α} (hyes : Steady loose (k :: ks) yes yes')
    (hno : Steady loose [] no no') (hk : ls.contains k = true) :
    Steady loose (k :: ks) (Reader.ifNext ls yes no) (Reader.ifNext ls yes' no') where
  stops := Stops.ifAhead hyes.stops hno.stops
  clears q hq hne := by
    rcases List.prefix_cons_iff.1 hq with rfl | ⟨q, rfl, -⟩
    · exact absurd rfl hne
    · intro u x r hu h
      obtain ⟨t, u', rfl, rfl, hu'⟩ := List.map_eq_cons_iff.1 hu
      simp only [Reader.ifNext, Reader.ifAhead, List.cons_append, looksLike_cons,
        List.contains_iff_mem.1 hk, if_true, looksLike_nil] at h
      exact hyes.clears _ hq hne (t :: u') x r hu h
  same := (hyes.weaken.ifNext hno).same

theorem optional {m m' : Reader Forest} (hm : Steady loose [] m m') :
    Steady loose [] (optional ls m) (optional ls m') :=
  hm.ifNext .pure

/-! ### Loops -/

theorem many {body body' : Reader α} (hbody : Steady loose [] body body') (hn : n ≤ n')
    (hl : (loose && ls.contains .openBrace) = false) :
    Steady loose [] (many [ls] body n) (many [ls] body' n') := by
  induction n generalizing n' with
  | zero => exact ended
  | succ n ih =>
    obtain ⟨n', rfl⟩ : ∃ k, n' = k + 1 := ⟨n' - 1, by omega⟩
    refine ifAhead (hbody.bind (fun _ => (ih (by omega)).map) fun h => ⟨h, fun _ => ?_⟩) .pure rfl
    exact (Rests.many (by simpa [h] using hl)).firm.map

theorem manyTrees {body body' : Reader Forest} (hbody : Steady loose [] body body') (hn : n ≤ n')
    (hl : (loose && ls.contains .openBrace) = false) :
    Steady loose [] (manyTrees [ls] body n) (manyTrees [ls] body' n') :=
  (hbody.many hn hl).map

theorem listOf {item item' : Reader Forest} (hitem : Steady false ks item item') (hn : n ≤ n') :
    Steady false ks (listOf r item n) (listOf r item' n') :=
  .rule (.cons hitem (.cons ((cons oneOf (cons hitem.weaken nil)).manyTrees hn rfl) nil))

theorem joined {tail tail' : Reader Forest} (htail : Steady loose [] tail tail') (hn : n ≤ n')
    (hl : ls.contains .openBrace = false) (t : SyntaxTree) :
    Steady loose [] (joined r ls tail n t) (joined r ls tail' n' t) := by
  induction n generalizing n' t with
  | zero => exact ended
  | succ n ih =>
    obtain ⟨n', rfl⟩ : ∃ k, n' = k + 1 := ⟨n' - 1, by omega⟩
    exact ifNext (htail.bind (fun _ => ih (by omega) _)
      fun h => ⟨h, fun _ => (Rests.joined hl).firm⟩) .pure

theorem seq_rule_manyTrees {body : Reader Forest} :
    seq (Reader.rule r (Reader.manyTrees pattern body n) :: ms) =
      Reader.many pattern body n >>= fun css => seq ms >>= fun ds =>
        pure ([Tree.node r css.flatten] ++ ds) := by
  simp only [seq, Reader.rule, Reader.manyTrees, bind_assoc, pure_bind]

theorem ifAhead_bind {yes no : Reader α} {f : α → Reader β} :
    Reader.ifAhead pattern yes no >>= f = Reader.ifAhead pattern (yes >>= f) (no >>= f) := by
  funext ts
  simp only [bind_apply, Reader.ifAhead]
  cases looksLike pattern ts with
  | none => rfl
  | some b => cases b <;> rfl

/-- A loop and what is read after it.  Whether there is another round may depend on tokens past
the first, if that one is taken in either case. -/
theorem many_bind {body body' : Reader α} (hbody : Steady true [k] body body') (hn : n ≤ n')
    {f f' : List α → Reader β} (hf : ∀ as, Steady true [k] (f as) (f' as))
    (hfirm : ∀ as, Firm (f as)) (hk : k ≠ .openBrace) :
    Steady true [] (Reader.many [[k], ls] body n >>= f)
      (Reader.many [[k], ls] body' n' >>= f') := by
  induction n generalizing n' f f' with
  | zero => exact ended
  | succ n ih =>
    obtain ⟨n', rfl⟩ : ∃ k, n' = k + 1 := ⟨n' - 1, by omega⟩
    simp only [Reader.many, ifAhead_bind, bind_assoc, pure_bind]
    have hrest (a : α) : Steady true [] (Reader.many [[k], ls] body n >>= fun as => f (a :: as))
        (Reader.many [[k], ls] body' n' >>= fun as => f' (a :: as)) :=
      ih (by omega) (fun as => hf (a :: as)) fun as => hfirm (a :: as)
    refine (ifAhead (hbody.bind hrest fun _ => ⟨rfl, fun a => ?_⟩) (hf []) (by simp)).weaken
    have hrests : Rests .openBrace (Reader.many [[k], ls] body n) := .many (by simpa using hk.symm)
    exact hrests.firm.bind hbody.stops.many (fun _ => hfirm _) fun _ => (hf _).stops

end Steady

end MiniGoc.Reader
