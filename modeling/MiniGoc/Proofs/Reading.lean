import MiniGoc.Proofs.Phrases

/-!
# What a reader reads

`Reader.Parses` says three things of a reader on a token list that is closed by the end of the
source.

* What it gives is read from the tokens it has taken: for most readers, the leaves of the
  forest are those tokens, and the forest is a phrase (`Reader.Trees`).
* Where it stops at a token, the tokens before can be completed to a phrase.
* It never runs out of tokens or of rounds.

Each way to put readers together has a rule for it, and the rules are then applied along
the grammar.  The number in `Parses` bounds the tokens.  It goes down by one with
each token taken, and so do the rounds that the loops have left.
-/

namespace MiniGoc

open Grammar (miniGo RulePart)

/-! ## Token lists that are closed -/

/-- The end of the source stands last, and nowhere else. -/
def Closed (ts : TokenList) : Prop :=
  ∃ (body : TokenList) (stop : Token TokenKind), ts = body ++ [stop] ∧
    stop.kind = .eof ∧ ∀ t ∈ body, t.kind ≠ .eof

namespace Closed

variable {t : Token TokenKind} {ts : TokenList}

theorem ne_nil (h : Closed ts) : ts ≠ [] := by
  obtain ⟨body, stop, rfl, -⟩ := h
  simp

theorem exists_cons (h : Closed ts) : ∃ t rest, ts = t :: rest :=
  List.exists_cons_of_ne_nil h.ne_nil

theorem tail (h : Closed (t :: ts)) (ht : t.kind ≠ .eof) : Closed ts := by
  obtain ⟨body, stop, heq, hstop, hbody⟩ := h
  cases body with
  | nil =>
    obtain ⟨rfl, rfl⟩ := List.cons.inj heq
    exact absurd hstop ht
  | cons u body =>
    obtain ⟨rfl, rfl⟩ := List.cons.inj heq
    exact ⟨body, stop, rfl, hstop, fun v hv => hbody v (by simp [hv])⟩

theorem eq_nil (h : Closed (t :: ts)) (ht : t.kind = .eof) : ts = [] := by
  obtain ⟨body, stop, heq, -, hbody⟩ := h
  cases body with
  | nil => exact (List.cons.inj heq).2
  | cons u body =>
    obtain ⟨rfl, -⟩ := List.cons.inj heq
    exact absurd ht (hbody t (by simp))

end Closed

namespace Reader

variable {α β : Type}

/-! ## Running a reader -/

@[simp] theorem pure_apply (a : α) (ts : TokenList) :
    (pure a : Reader α) ts = .ok (a, ts) := rfl

theorem bind_apply (m : Reader α) (f : α → Reader β) (ts : TokenList) :
    (m >>= f) ts = match m ts with
      | .ok (a, r) => f a r
      | .error e => .error e := by
  simp only [bind, StateT.bind]
  cases m ts <;> rfl

theorem map_apply (f : α → β) (m : Reader α) (ts : TokenList) :
    (f <$> m) ts = match m ts with
      | .ok (a, r) => .ok (f a, r)
      | .error e => .error e := by
  rw [← bind_pure_comp, bind_apply]
  rfl

theorem seq_append (ms : List (Reader Forest)) (m : Reader Forest) :
    seq (ms ++ [m]) = seq ms >>= fun cs => m >>= fun ds => pure (cs ++ ds) := by
  induction ms with
  | nil => simp [seq]
  | cons k ms ih => simp only [List.cons_append, seq, ih, bind_assoc, pure_bind, List.append_assoc]

/-! ## The property and its rules -/

/-- How a reader may end on a token list: with what it has read and the tokens left, or at a
token.  `Phrase ts a` says that the tokens are read as `a`. -/
inductive Outcome (Phrase : TokenList → α → Prop) (ts : TokenList) :
    Except Stuck (α × TokenList) → Prop where
  | done {u r : TokenList} {a : α} :
      ts = u ++ r → Phrase u a → Closed r → Outcome Phrase ts (.ok (a, r))
  | stuck {u r v : TokenList} {t : Token TokenKind} {a : α} :
      ts = u ++ t :: r → Phrase (u ++ v) a → Outcome Phrase ts (.error (.unexpected t r))

def Parses (m : Reader α) (Phrase : TokenList → α → Prop) (n : Nat) : Prop :=
  ∀ ts, Closed ts → ts.length < n → Outcome Phrase ts (m ts)

/-- The forest is a phrase of the parts, and the tokens are its leaves. -/
def Trees (ps : List RulePart) (ts : TokenList) (cs : Forest) : Prop :=
  Tree.leavesList cs = ts ∧ miniGo.Grows ps cs

/-- The children of a node of the rule, and the leaves of the node. -/
def Children (r : Rule) (ts : TokenList) (cs : Forest) : Prop :=
  Tree.leavesList cs = ts ∧ ∃ a ∈ (miniGo.alternatives r).alts, miniGo.Grows a cs

/-- Whether there are tokens of the kinds before the end of a source. -/
def visible (ks : List TokenKind) : Bool := !ks.isEmpty && !ks.contains .eof

/-- Whether all of the parts can be read before the end of a source. -/
def readable (ps : List RulePart) : Bool :=
  Part.fillableAll (fun _ => true) ps && !ps.any fun
    | .token t => !visible [t]
    | _ => false

variable {ps : List RulePart}

theorem readable_of_cons {p : RulePart} (h : readable (p :: ps) = true) :
    Part.fillableAll (fun _ => true) ps = true ∧ readable ps = true := by
  simp only [readable, Part.fillableAll, List.any_cons, Bool.not_or, Bool.and_eq_true] at h ⊢
  exact ⟨h.1.2, h.1.2, h.2.2⟩

theorem visible_of_readable {t : TokenKind} (h : readable (.token t :: ps) = true) :
    visible [t] = true := by
  simp only [readable, List.any_cons, Bool.not_or, Bool.not_not, Bool.and_eq_true] at h
  exact h.2.1

theorem Trees.ne_nil {ts : TokenList} {cs : Forest} (h : Trees ps ts cs)
    (hs : Grammar.solid ps = true) : 1 ≤ ts.length := by
  obtain ⟨rfl, hg⟩ := h
  obtain ⟨t, ts, hl, -⟩ := hg.leaves_eq_cons hs
  simp [hl]

namespace Parses

variable {m : Reader α} {f : α → Reader β} {P Q : TokenList → α → Prop} {n k : Nat}

theorem mono (h : Parses m P n) (hPQ : ∀ ts a, P ts a → Q ts a) (hk : k ≤ n) : Parses m Q k := by
  intro ts hts hlen
  have h' := h ts hts (by omega)
  generalize m ts = res at h'
  cases h' with
  | done heq hP hr => exact .done heq (hPQ _ _ hP) hr
  | stuck heq hP => exact .stuck heq (hPQ _ _ hP)

theorem weaken (h : Parses m P n) (hPQ : ∀ ts a, P ts a → Q ts a) : Parses m Q n :=
  h.mono hPQ (Nat.le_refl n)

theorem fewer (h : Parses m P n) (hk : k ≤ n) : Parses m P k := h.mono (fun _ _ hP => hP) hk

theorem zero : Parses m P 0 := fun _ _ hlen => absurd hlen (Nat.not_lt_zero _)

protected theorem pure {a : α} (h : P [] a) : Parses (pure a) P n :=
  fun _ hts _ => .done rfl h hts

/-- One reader after the other.  `hk` says that there are few enough tokens left for the second
one, and `hex` that it can always be satisfied. -/
protected theorem bind {R : α → TokenList → β → Prop} (hm : Parses m P n)
    (hf : ∀ ts a, P ts a → Parses (f a) (R a) k) (hk : ∀ ts a, P ts a → n ≤ k + ts.length)
    (hex : ∀ ts a, P ts a → ∃ us b, R a us b) :
    Parses (m >>= f) (fun ts b => ∃ a us vs, ts = us ++ vs ∧ P us a ∧ R a vs b) n := by
  intro ts hts hlen
  have h₁ := hm ts hts hlen
  rw [bind_apply]
  generalize m ts = res at h₁
  cases h₁ with
  | @stuck taken r more t a heq hP =>
    obtain ⟨us, b, hR⟩ := hex _ a hP
    exact .stuck heq ⟨a, taken ++ more, us, (List.append_assoc ..).symm, hP, hR⟩
  | @done us r a heq hP hr =>
    have hlen' : r.length < k := by
      have := hk us a hP
      rw [heq, List.length_append] at hlen
      omega
    have h₂ := hf us a hP r hr hlen'
    dsimp only
    generalize f a r = res at h₂
    cases h₂ with
    | @done vs r' b heq' hR hr' =>
      exact .done (u := us ++ vs) (by rw [heq, heq', List.append_assoc])
        ⟨a, us, vs, rfl, hP, hR⟩ hr'
    | @stuck vs r' more t b heq' hR =>
      exact .stuck (u := us ++ vs) (by rw [heq, heq', List.append_assoc])
        ⟨a, us, vs ++ more, List.append_assoc .., hP, hR⟩

theorem map {g : α → β} {R : TokenList → β → Prop} (hm : Parses m P n)
    (hR : ∀ ts a, P ts a → R ts (g a)) : Parses (m >>= fun a => pure (g a)) R n := by
  refine (hm.bind (R := fun a ts b => ts = [] ∧ b = g a) (fun _ _ _ => .pure ⟨rfl, rfl⟩)
    (fun _ _ _ => Nat.le_add_right n _) (fun _ a _ => ⟨[], g a, rfl, rfl⟩)).weaken ?_
  rintro ts b ⟨a, us, vs, rfl, hP, rfl, rfl⟩
  rw [List.append_nil]
  exact hR us a hP

variable {ks : List TokenKind} {r : Rule} {a ps : List RulePart} {how : Lookahead}
  {pattern : List (List TokenKind)}

theorem oneOf (hks : visible ks = true) : Parses (oneOf ks) (Trees [.anyOf ks]) n := by
  obtain ⟨hne, heof⟩ : ks ≠ [] ∧ .eof ∉ ks := by simpa [visible] using hks
  intro ts hts _
  obtain ⟨t, r, rfl⟩ := hts.exists_cons
  by_cases hk : t.kind ∈ ks
  · have ht : t.kind ≠ .eof := fun h => heof (h ▸ hk)
    simp only [Reader.oneOf, hk, if_true]
    exact .done (u := [t]) rfl ⟨by simp, Grammar.grows_anyOf.2 ⟨t, hk, rfl⟩⟩ (hts.tail ht)
  · obtain ⟨k, hmem⟩ := List.exists_mem_of_ne_nil ks hne
    simp only [Reader.oneOf, hk, if_false]
    let t' : Token TokenKind := ⟨k, "", default⟩
    exact .stuck (u := []) (v := [t']) (a := [.leaf t']) rfl
      ⟨by simp, Grammar.grows_anyOf.2 ⟨t', hmem, rfl⟩⟩

theorem expect {t : TokenKind} (ht : visible [t] = true) :
    Parses (expect t) (Trees [.token t]) n := by
  refine (oneOf ht).weaken ?_
  rintro ts cs ⟨rfl, hg⟩
  refine ⟨rfl, ?_⟩
  simpa [Grammar.grows_anyOf, Grammar.grows_token] using hg

theorem rule {m : Reader Forest} (hm : Parses m (Children r) n) :
    Parses (rule r m) (Trees [.rule r]) n := by
  refine hm.map ?_
  rintro ts cs ⟨rfl, a, ha, hcs⟩
  exact ⟨by simp, Grammar.grows_rule.2 ⟨cs, rfl, a, ha, hcs⟩⟩

theorem alt {m : Reader Forest} (i : Nat) (ha : (miniGo.alternatives r).alts[i]? = some a)
    (hm : Parses m (Trees a) n) : Parses m (Children r) n :=
  hm.weaken fun _ _ h => ⟨h.1, a, List.mem_of_getElem? ha, h.2⟩

theorem leaf (hks : visible ks = true) (hr : ∀ k ∈ ks, [.token k] ∈ (miniGo.alternatives r).alts) :
    Parses (Reader.oneOf ks) (Children r) n := by
  refine (oneOf hks).weaken ?_
  rintro ts cs ⟨hl, hg⟩
  obtain ⟨t, ht, rfl⟩ := Grammar.grows_anyOf.1 hg
  exact ⟨hl, _, hr _ ht, Grammar.grows_token.2 ⟨t, rfl, rfl⟩⟩

theorem choice {m : Reader Forest} {alts : List (List RulePart)} (i : Nat)
    (ha : alts[i]? = some a) (hm : Parses m (Trees a) n) : Parses m (Trees [.choice how alts]) n :=
  hm.weaken fun _ _ h => ⟨h.1, Grammar.grows_choice.2 ⟨a, List.mem_of_getElem? ha, h.2⟩⟩

theorem only_of {m : Reader Forest} (ha : miniGo.alternatives r = Grammar.one a)
    (hm : Parses m (Trees a) n) : Parses (Reader.rule r m) (Trees [.rule r]) n :=
  (hm.alt 0 (by rw [ha]; rfl)).rule

/-! ### Decisions -/

theorem looksLike_isSome {ts : TokenList} (hp : ∀ ks ∈ pattern.dropLast, .eof ∉ ks)
    (hts : Closed ts) : ∃ b, looksLike pattern ts = some b := by
  induction pattern generalizing ts with
  | nil => exact ⟨true, rfl⟩
  | cons ks pattern ih =>
    obtain ⟨t, rest, rfl⟩ := hts.exists_cons
    rw [looksLike]
    split
    · cases pattern with
      | nil => exact ⟨true, rfl⟩
      | cons ls pattern =>
        -- The token is not the last one, since the pattern goes on.
        have ht : t.kind ≠ .eof := fun h => hp ks (by simp) (h ▸ ‹t.kind ∈ ks›)
        exact ih (fun js hj => hp js (by simp [hj])) (hts.tail ht)
    · exact ⟨false, rfl⟩

theorem ifAhead {yes no : Reader α} (hyes : Parses yes P n) (hno : Parses no P n)
    (hp : pattern.dropLast.all (!·.contains .eof) = true) :
    Parses (ifAhead pattern yes no) P n := by
  intro ts hts hlen
  obtain ⟨b, hb⟩ := looksLike_isSome (by simpa using hp) hts
  simp only [Reader.ifAhead, hb]
  cases b with
  | true => exact hyes ts hts hlen
  | false => exact hno ts hts hlen

theorem ifNext {yes no : Reader α} (hyes : Parses yes P n) (hno : Parses no P n) :
    Parses (ifNext ks yes no) P n :=
  hyes.ifAhead hno rfl

theorem optional {m : Reader Forest} (hm : Parses m (Trees ps) n) :
    Parses (optional ks m) (Trees [.option ps]) n := by
  refine ifNext (hm.weaken ?_) (.pure ⟨rfl, Grammar.grows_option.2 (.inl rfl)⟩)
  rintro ts cs ⟨rfl, h⟩
  exact ⟨rfl, Grammar.grows_option.2 (.inr h)⟩

/-! ### Loops -/

/-- Phrases one after the other. -/
inductive Rounds (Phrase : TokenList → α → Prop) :
    TokenList → List α → Prop where
  | nil : Rounds Phrase [] []
  | cons {u v : TokenList} {a : α} {as : List α} :
      Phrase u a → Rounds Phrase v as → Rounds Phrase (u ++ v) (a :: as)

theorem many {body : Reader α} (hbody : Parses body P n) (hlen : ∀ ts a, P ts a → 1 ≤ ts.length)
    (hk : n ≤ k) (hp : pattern.dropLast.all (!·.contains .eof) = true) :
    Parses (many pattern body k) (Rounds P) n := by
  induction k generalizing n with
  | zero => exact zero.fewer hk
  | succ k ih =>
    cases n with
    | zero => exact zero
    | succ n =>
      have hrest := ih (hbody.fewer (by omega)) (Nat.le_of_succ_le_succ hk)
      refine ifAhead ?_ (.pure .nil) hp
      refine (hbody.bind (fun _ a _ => hrest.map (R := fun ts bs => ∃ as, Rounds P ts as ∧
        bs = a :: as) fun ts as has => ⟨as, has, rfl⟩) ?_ ?_).weaken ?_
      · intro ts a h
        have := hlen ts a h
        omega
      · intro ts a _
        exact ⟨[], [a], [], .nil, rfl⟩
      · rintro ts bs ⟨a, us, vs, rfl, ha, as, has, rfl⟩
        exact .cons ha has

theorem Rounds.trees {ts : TokenList} {css : List Forest}
    (h : Rounds (Trees ps) ts css) : Trees [.many how ps] ts css.flatten := by
  have hall : Tree.leavesList css.flatten = ts ∧ ∀ ds ∈ css, miniGo.Grows ps ds := by
    induction h with
    | nil => simp
    | cons hd _ ih =>
      obtain ⟨rfl, hg⟩ := hd
      exact ⟨by simp [ih.1], List.forall_mem_cons.2 ⟨hg, ih.2⟩⟩
  exact ⟨hall.1, Grammar.grows_many.2 ⟨css, rfl, hall.2⟩⟩

theorem manyTrees {body : Reader Forest} (hs : Grammar.solid ps = true)
    (hbody : Parses body (Trees ps) n) (hk : n ≤ k)
    (hp : pattern.dropLast.all (!·.contains .eof) = true) :
    Parses (manyTrees pattern body k) (Trees [.many how ps]) n :=
  (hbody.many (fun _ _ h => h.ne_nil hs) hk hp).map fun _ _ h => h.trees

/-- A loop that joins to the left, from a tree of the rule on.  What it reads after the tree
belongs to the tree it gives. -/
theorem joined {tail : Reader Forest} (htail : Parses tail (Trees ps) n) (hk : n ≤ k)
    (hr : ∀ t cs, miniGo.Grows [.rule r] [t] → miniGo.Grows ps cs →
      miniGo.Grows [.rule r] [.node r (t :: cs)]) (hs : Grammar.solid ps = true) {t : SyntaxTree}
    (ht : miniGo.Grows [.rule r] [t]) :
    Parses (joined r ks tail k t)
      (fun ts cs => Tree.leavesList cs = t.leaves ++ ts ∧ miniGo.Grows [.rule r] cs) n := by
  induction k generalizing n t with
  | zero => exact zero.fewer hk
  | succ k ih =>
    cases n with
    | zero => exact zero
    | succ n =>
      refine ifNext ?_ (.pure ⟨by simp, ht⟩)
      -- The tree of the next round depends on what the tail has read.
      refine (htail.bind (fun _ cs hcs => ih (htail.fewer (by omega)) (Nat.le_of_succ_le_succ hk)
        (hr t cs ht hcs.2)) ?_ ?_).weaken ?_
      · intro ts cs hcs
        have := hcs.ne_nil hs
        omega
      · intro ts cs hcs
        exact ⟨[], _, by simp, hr t cs ht hcs.2⟩
      · rintro ts ds ⟨cs, us, vs, rfl, ⟨rfl, -⟩, hl, hds⟩
        exact ⟨by simpa using hl, hds⟩

end Parses

/-! ### Sequences -/

/-- Readers that read parts one after the other, if all of the parts can be read. -/
def InOrder (ms : List (Reader Forest)) (ps : List RulePart) (n : Nat) : Prop :=
  readable ps = true → Parses (seq ms) (Trees ps) n

namespace InOrder

variable {m : Reader Forest} {ms : List (Reader Forest)} {p : RulePart} {ps : List RulePart}
  {t : TokenKind} {n k : Nat}

theorem parses (h : InOrder ms ps n) (hr : readable ps = true) : Parses (seq ms) (Trees ps) n :=
  h hr

theorem nil : InOrder [] [] n := fun _ => .pure ⟨rfl, Grammar.grows_nil.2 rfl⟩

theorem last (hm : Parses m (Trees ps) n) : InOrder [m] ps n :=
  fun _ => hm.map (g := (· ++ [])) fun ts cs h => by rwa [List.append_nil]

theorem cons (hm : Parses m (Trees [p]) n) (h : InOrder ms ps k)
    (hk : ∀ ts cs, Trees [p] ts cs → n ≤ k + ts.length) : InOrder (m :: ms) (p :: ps) n := by
  intro hr
  obtain ⟨hf, hps⟩ := readable_of_cons hr
  obtain ⟨es, hes⟩ := exists_grows hf
  refine (hm.bind (fun _ cs _ => (h hps).map
    (R := fun ts es => ∃ ds, Trees ps ts ds ∧ es = cs ++ ds) fun ts ds hds => ⟨ds, hds, rfl⟩) hk
    (fun _ cs _ => ⟨_, cs ++ es, es, ⟨rfl, hes⟩, rfl⟩)).weaken ?_
  rintro ts es ⟨cs, us, vs, rfl, ⟨rfl, hcs⟩, ds, ⟨rfl, hds⟩, rfl⟩
  exact ⟨by simp, hcs.cons hds⟩

theorem same (hm : Parses m (Trees [p]) n) (h : InOrder ms ps n) : InOrder (m :: ms) (p :: ps) n :=
  cons hm h fun _ _ _ => Nat.le_add_right n _

theorem solid (hs : Grammar.solid [p] = true) (hm : Parses m (Trees [p]) (n + 1))
    (h : InOrder ms ps n) : InOrder (m :: ms) (p :: ps) (n + 1) := by
  refine cons hm h ?_
  intro ts cs hcs
  have := hcs.ne_nil hs
  omega

theorem token (h : InOrder ms ps n) : InOrder (expect t :: ms) (.token t :: ps) (n + 1) :=
  fun hr => solid rfl (.expect (visible_of_readable hr)) h hr

theorem token_same (h : InOrder ms ps n) : InOrder (expect t :: ms) (.token t :: ps) n :=
  fun hr => same (.expect (visible_of_readable hr)) h hr

theorem many1 {pattern : List (List TokenKind)} {how : Lookahead} {r : Rule}
    (hs : Grammar.solid [.rule r] = true) (hm : Parses m (Trees [.rule r]) n) (hk : n ≤ k)
    (hp : pattern.dropLast.all (!·.contains .eof) = true) (h : InOrder ms ps n) :
    InOrder (m :: manyTrees pattern m k :: ms) (.many1 how [.rule r] :: ps) n := by
  intro hr
  have hloop : Parses (manyTrees pattern m k) (Trees [.many how [.rule r]]) n :=
    .manyTrees hs hm hk hp
  refine (same hm (same hloop h) (readable_of_cons hr).2).weaken ?_
  rintro ts cs ⟨hl, hg⟩
  have hg : miniGo.Grows ([Part.rule r, Part.many how [.rule r]] ++ ps) cs := hg
  obtain ⟨as, bs, rfl, ha, hb⟩ := Grammar.grows_append.1 hg
  exact ⟨hl, Grammar.Grows.cons (Grammar.grows_many1.2 ha) hb⟩

end InOrder

/-- The only alternative of a rule, part by part. -/
theorem Parses.only {ms : List (Reader Forest)} {r : Rule} {a : List RulePart} {n : Nat}
    (ha : miniGo.alternatives r = Grammar.one a) (hr : readable a = true) (h : InOrder ms a n) :
    Parses (Reader.rule r (seq ms)) (Trees [.rule r]) n :=
  .only_of ha (h hr)

theorem Parses.listOf {r s : Rule} {m : Reader Forest} {n k : Nat}
    (hr : miniGo.alternatives r = Grammar.listOf s) (hm : Parses m (Trees [.rule s]) n)
    (hk : n ≤ k) : Parses (listOf r m k) (Trees [.rule r]) n :=
  .only hr rfl (.same hm (.same (.manyTrees rfl
    (InOrder.parses (.token_same (.same hm .nil)) rfl) hk (by rfl)) .nil))

end Reader

end MiniGoc
