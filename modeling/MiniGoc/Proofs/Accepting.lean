import MiniGoc.Proofs.Lookahead

/-!
# What a reader takes

`Reader.Accepts` is the converse of `Reader.Parses`: a reader that has a phrase ahead takes all of
it, gives its grouped trees, and leaves the rest.  There is a rule for each way to put readers
together.  A decision keeps those alternatives for which its branch is taken
(`Accepts.ifAhead`).
-/

namespace MiniGoc.Reader

open Grammar (miniGo RulePart)
open MiniGoc.Tree (groupedList)

variable {α β : Type}

/-! ## Grouped phrases -/

/-- The grouped trees of a phrase of the parts, and its leaves. -/
def Grouped (ps : List RulePart) (ts : TokenList) (ds : Forest) : Prop :=
  ∃ cs, miniGo.Grows ps cs ∧ Tree.leavesList cs = ts ∧ groupedList cs = ds

/-- A grouped phrase of one of the alternatives. -/
def Branch (alts : List (List RulePart)) (ts : TokenList) (ds : Forest) : Prop :=
  ∃ a ∈ alts, Grouped a ts ds

variable {ts : TokenList} {ds : Forest}

theorem Grouped.ne_nil {ps : List RulePart} (h : Grouped ps ts ds) (hs : Grammar.solid ps = true) :
    1 ≤ ts.length := by
  obtain ⟨cs, hg, rfl, -⟩ := h
  exact Trees.ne_nil ⟨rfl, hg⟩ hs

theorem grouped_cons {p : RulePart} {ps : List RulePart} : Grouped (p :: ps) ts ds ↔
      ∃ us vs es fs, ts = us ++ vs ∧ ds = es ++ fs ∧ Grouped [p] us es ∧ Grouped ps vs fs := by
  constructor
  · rintro ⟨cs, hg, rfl, rfl⟩
    obtain ⟨as, bs, rfl, ha, hb⟩ := Grammar.grows_cons.1 hg
    exact ⟨_, _, _, _, by simp, by simp, ⟨as, ha, rfl, rfl⟩, bs, hb, rfl, rfl⟩
  · rintro ⟨us, vs, es, fs, rfl, rfl, ⟨as, ha, rfl, rfl⟩, bs, hb, rfl, rfl⟩
    exact ⟨as ++ bs, ha.cons hb, by simp, by simp⟩

theorem grouped_rule {r : Rule} (hr : r ≠ .chain) :
    Grouped [.rule r] ts ds ↔
      ∃ es, ds = [.node r es] ∧ Branch (miniGo.alternatives r).alts ts es := by
  constructor
  · rintro ⟨cs, hg, rfl, rfl⟩
    obtain ⟨es, rfl, a, ha, hes⟩ := Grammar.grows_rule.1 hg
    exact ⟨groupedList es, by simp [Tree.grouped_node hr], a, ha, es, hes, by simp, rfl⟩
  · rintro ⟨es, rfl, a, ha, cs, hcs, rfl, rfl⟩
    exact ⟨_, Grammar.grows_rule.2 ⟨cs, rfl, a, ha, hcs⟩, by simp, by simp [Tree.grouped_node hr]⟩

theorem grouped_choice {how : Lookahead} {alts : List (List RulePart)} :
    Grouped [.choice how alts] ts ds ↔ Branch alts ts ds := by
  simp only [Grouped, Branch, Grammar.grows_choice]
  grind

/-! ## The property and its rules -/

/-- A reader that takes phrases, if what follows is right. -/
def Accepts (m : Reader α) (Phrase : TokenList → α → Prop)
    (Next : TokenList → Prop) (n : Nat) : Prop :=
  ∀ u a r, Phrase u a → u.length < n → Next r → m (u ++ r) = .ok (a, r)

/-- Whether phrases of the parts may follow each other in a loop with the pattern. -/
def Follow.repeats (f : Follow) (pattern : List (List TokenKind)) (ps : List RulePart) : Bool :=
  Grammar.solid ps && Grammar.looks 4 pattern ps == some true && f.admits ps

namespace Accepts

variable {m : Reader α} {f : α → Reader β} {P Q : TokenList → α → Prop}
  {F G : TokenList → Prop} {n k : Nat}

theorem mono (h : Accepts m P F n) (hP : ∀ u a, Q u a → P u a) (hF : ∀ r, G r → F r)
    (hk : k ≤ n) : Accepts m Q G k :=
  fun u a r hu hlen hr => h u a r (hP u a hu) (by omega) (hF r hr)

theorem zero : Accepts m P F 0 := fun _ _ _ _ hlen => absurd hlen (Nat.not_lt_zero _)

theorem fewer (h : Accepts m P F n) (hk : k ≤ n) : Accepts m P F k :=
  h.mono (fun _ _ h => h) (fun _ h => h) hk

theorem weaken (h : Accepts m P F n) (hP : ∀ u a, Q u a → P u a) : Accepts m Q F n :=
  h.mono hP (fun _ h => h) (Nat.le_refl n)

theorem before (h : Accepts m P F n) (hF : ∀ r, G r → F r) : Accepts m P G n :=
  h.mono (fun _ _ h => h) hF (Nat.le_refl n)

/-- One reader after the other.  `hF` says that what the second one reads may follow
the first. -/
protected theorem bind {R : α → TokenList → β → Prop} (hm : Accepts m P F n)
    (hf : ∀ u a, P u a → Accepts (f a) (R a) G k) (hk : ∀ u a, P u a → n ≤ k + u.length)
    (hF : ∀ a v b r, R a v b → G r → F (v ++ r)) :
    Accepts (m >>= f) (fun ts b => ∃ a u v, ts = u ++ v ∧ P u a ∧ R a v b) G n := by
  rintro _ b r ⟨a, u, v, rfl, hu, hv⟩ hlen hr
  rw [List.length_append] at hlen
  have := hk u a hu
  rw [bind_apply, List.append_assoc, hm u a (v ++ r) hu (by omega) (hF a v b r hv hr)]
  exact hf u a hu v b r hv (by omega) hr

theorem map {g : α → β} {R : TokenList → β → Prop} (hm : Accepts m P F n)
    (hR : ∀ u b, R u b → ∃ a, P u a ∧ b = g a) : Accepts (m >>= fun a => pure (g a)) R F n := by
  intro u b r hu hlen hr
  obtain ⟨a, ha, rfl⟩ := hR u b hu
  rw [bind_apply, hm u a r ha hlen hr]
  rfl

variable {ks : List TokenKind} {ms : List (Reader Forest)} {p : RulePart} {ps : List RulePart}
  {r : Rule} {alts : List (List RulePart)} {how : Lookahead} {pattern : List (List TokenKind)}
  {yes no : Reader Forest}

theorem oneOf : Accepts (oneOf ks) (Grouped [.anyOf ks]) F n := by
  rintro _ _ r ⟨cs, hcs, rfl, rfl⟩ _ _
  obtain ⟨t, ht, rfl⟩ := Grammar.grows_anyOf.1 hcs
  simp [Reader.oneOf, ht]

theorem expect {t : TokenKind} : Accepts (expect t) (Grouped [.token t]) F n := by
  have h : Accepts (Reader.oneOf [t]) (Grouped [.anyOf [t]]) F n := oneOf
  refine h.weaken ?_
  rintro u a ⟨cs, hcs, hl, hg⟩
  refine ⟨cs, ?_, hl, hg⟩
  simpa [Grammar.grows_anyOf, Grammar.grows_token] using hcs

theorem nil : Accepts (seq []) (Grouped []) F n := by
  rintro _ _ r ⟨cs, hcs, rfl, rfl⟩ _ _
  obtain rfl := Grammar.grows_nil.1 hcs
  rfl

theorem seq_cons {m : Reader Forest} (hm : Accepts m (Grouped [p]) F n)
    (hms : Accepts (seq ms) (Grouped ps) G k) (hk : ∀ u ds, Grouped [p] u ds → n ≤ k + u.length)
    (hF : ∀ cs r, miniGo.Grows ps cs → G r → F (Tree.leavesList cs ++ r)) :
    Accepts (seq (m :: ms)) (Grouped (p :: ps)) G n := by
  refine (hm.bind (fun _ cs _ => hms.map (R := fun ts es => ∃ ds, Grouped ps ts ds ∧
    es = cs ++ ds) fun _ _ h => h) hk ?_).weaken ?_
  · rintro cs v b r ⟨ds, ⟨es, hes, rfl, rfl⟩, rfl⟩ hr
    exact hF es r hes hr
  · intro u ds h
    obtain ⟨us, vs, es, fs, rfl, rfl, hes, hfs⟩ := grouped_cons.1 h
    exact ⟨es, us, vs, rfl, hes, fs, hfs, rfl⟩

theorem cons_same {m : Reader Forest} {f : Follow} (hm : Accepts m (Grouped [p]) f.Holds n)
    (hf : f.admits ps = true) (hms : Accepts (seq ms) (Grouped ps) F n) :
    Accepts (seq (m :: ms)) (Grouped (p :: ps)) F n :=
  hm.seq_cons hms (fun _ _ _ => Nat.le_add_right n _) fun _ r hcs _ => f.holds_of_admits hf hcs r

section

variable {m : Reader Forest} {ms : List (Reader Forest)} {p : RulePart} {t : TokenKind}
  {ps : List RulePart}

theorem cons_any (hm : Accepts m (Grouped [p]) Follow.any.Holds n)
    (hms : Accepts (seq ms) (Grouped ps) F n) : Accepts (seq (m :: ms)) (Grouped (p :: ps)) F n :=
  hm.cons_same rfl hms

theorem cons (hs : Grammar.solid [p] = true) (hm : Accepts m (Grouped [p]) Follow.any.Holds (n + 1))
    (hms : Accepts (seq ms) (Grouped ps) F n) :
    Accepts (seq (m :: ms)) (Grouped (p :: ps)) F (n + 1) := by
  refine hm.seq_cons hms ?_ fun _ r hcs _ => Follow.any.holds_of_admits rfl hcs r
  intro u ds h
  have := h.ne_nil hs
  omega

theorem token (hms : Accepts (seq ms) (Grouped ps) F n) :
    Accepts (seq (Reader.expect t :: ms)) (Grouped (.token t :: ps)) F (n + 1) :=
  cons rfl expect hms

theorem token_same (hms : Accepts (seq ms) (Grouped ps) F n) :
    Accepts (seq (Reader.expect t :: ms)) (Grouped (.token t :: ps)) F n :=
  cons_any expect hms

end

theorem last {m : Reader Forest} (hm : Accepts m (Grouped ps) F n) :
    Accepts (seq [m]) (Grouped ps) F n :=
  hm.map (g := (· ++ [])) fun _ ds h => ⟨ds, h, by simp⟩

theorem rule {m : Reader Forest} (hr : (r != .chain) = true)
    (hm : Accepts m (Branch (miniGo.alternatives r).alts) F n) :
    Accepts (rule r m) (Grouped [.rule r]) F n := by
  refine hm.map ?_
  intro u b h
  obtain ⟨es, rfl, hes⟩ := (grouped_rule (by simpa using hr)).1 h
  exact ⟨es, hes, rfl⟩

theorem alt {m : Reader Forest} {a : List RulePart} (ha : alts = [a])
    (hm : Accepts m (Grouped a) F n) : Accepts m (Branch alts) F n :=
  hm.weaken fun u ds h => by simpa [Branch, ha] using h

theorem only {m : Reader Forest} {a : List RulePart} (ha : miniGo.alternatives r = Grammar.one a)
    (hm : Accepts m (Grouped a) F n) : Accepts (Reader.rule r m) (Grouped [.rule r]) F n := by
  refine rule ?_ (hm.alt (by rw [ha, Grammar.one]))
  -- The rule of chains has several alternatives.
  rw [bne_iff_ne]
  rintro rfl
  simp [miniGo, Grammar.miniGoAlternatives, Grammar.one] at ha

theorem choice {m : Reader Forest} (hm : Accepts m (Branch alts) F n) :
    Accepts m (Grouped [.choice how alts]) F n :=
  hm.weaken fun _ _ h => grouped_choice.1 h

/-- Whether the parts are a token of one of the kinds. -/
def isTokenOf (ks : List TokenKind) : List RulePart → Bool
  | [.token k] => decide (k ∈ ks)
  | _ => false

theorem leaf (h : alts.all (isTokenOf ks) = true) :
    Accepts (Reader.oneOf ks) (Branch alts) F n := by
  refine oneOf.weaken ?_
  rintro u ds ⟨a, ha, cs, hcs, hl, hg⟩
  have ha := List.all_eq_true.1 h a ha
  unfold isTokenOf at ha
  split at ha
  · obtain ⟨t, rfl, rfl⟩ := Grammar.grows_token.1 hcs
    exact ⟨_, Grammar.grows_anyOf.2 ⟨t, by simpa using ha, rfl⟩, hl, hg⟩
  · cases ha

/-! ### Decisions -/

/-- A decision that holds for some phrases and not for the others. -/
theorem ifAhead_of {yes no : Reader α} (hyes : Accepts yes P F n) (hno : Accepts no Q F n)
    {R : TokenList → α → Prop}
    (h : ∀ u a r, R u a → F r → looksLike pattern (u ++ r) = some true ∧ P u a ∨
      looksLike pattern (u ++ r) = some false ∧ Q u a) :
    Accepts (ifAhead pattern yes no) R F n := by
  intro u a r hu hlen hr
  rcases h u a r hu hr with ⟨hp, hu⟩ | ⟨hp, hu⟩
  · simp only [Reader.ifAhead, hp]
    exact hyes u a r hu hlen hr
  · simp only [Reader.ifAhead, hp]
    exact hno u a r hu hlen hr

/-- A decision among alternatives.  `hrest` is about those that the pattern does not settle. -/
theorem ifAhead_follow
    (hyes : Accepts yes (Branch (alts.filter (Grammar.looks 4 pattern · == some true))) F n)
    (hno : Accepts no (Branch (alts.filter (Grammar.looks 4 pattern · != some true))) F n)
    (hrest : ∀ a ∈ alts.filter (Grammar.looks 4 pattern · == none), ∀ cs r, miniGo.Grows a cs →
      F r → looksLike pattern (Tree.leavesList cs ++ r) = some false) :
    Accepts (ifAhead pattern yes no) (Branch alts) F n := by
  refine hyes.ifAhead_of hno ?_
  rintro u ds r ⟨a, ha, cs, hcs, rfl, rfl⟩ hr
  cases hlook : Grammar.looks 4 pattern a with
  | none =>
    refine .inr ⟨hrest a (by simp [ha, hlook]) cs r hcs hr, a, by simp [ha, hlook], cs, hcs,
      rfl, rfl⟩
  | some b =>
    cases b with
    | true => exact .inl ⟨looksLike_of_looks hlook hcs, a, by simp [ha, hlook], cs, hcs, rfl, rfl⟩
    | false => exact .inr ⟨looksLike_of_looks hlook hcs, a, by simp [ha, hlook], cs, hcs, rfl, rfl⟩

theorem ifAhead (hrest : alts.filter (Grammar.looks 4 pattern · == none) = [])
    (hyes : Accepts yes (Branch (alts.filter (Grammar.looks 4 pattern · == some true))) F n)
    (hno : Accepts no (Branch (alts.filter (Grammar.looks 4 pattern · != some true))) F n) :
    Accepts (Reader.ifAhead pattern yes no) (Branch alts) F n :=
  ifAhead_follow hyes hno fun _ ha => absurd (hrest ▸ ha) List.not_mem_nil

theorem ifNext (hrest : alts.filter (Grammar.looks 4 [ks] · == none) = [])
    (hyes : Accepts yes (Branch (alts.filter (Grammar.looks 4 [ks] · == some true))) F n)
    (hno : Accepts no (Branch (alts.filter (Grammar.looks 4 [ks] · != some true))) F n) :
    Accepts (Reader.ifNext ks yes no) (Branch alts) F n :=
  ifAhead hrest hyes hno

theorem optional {m : Reader Forest} {f : Follow} (hp : Grammar.looks 1 [ks] ps = some true)
    (hm : Accepts m (Grouped ps) f.Holds n) :
    Accepts (optional ks m) (Grouped [.option ps]) (f.with ks).Holds n := by
  refine ifAhead_of (P := Grouped ps) (hm.before fun r hr => hr.of_with)
    (nil (F := (f.with ks).Holds)) ?_
  rintro u ds r ⟨cs, hcs, rfl, rfl⟩ hr
  rcases Grammar.grows_option.1 hcs with rfl | hcs
  · exact .inr ⟨by simpa using hr.looksLike, [], Grammar.grows_nil.2 rfl, rfl, rfl⟩
  · exact .inl ⟨looksLike_of_looks hp hcs, cs, hcs, rfl, rfl⟩

/-! ### Loops -/

/-- A loop.  Each round may be followed by another one and by what follows the loop. -/
theorem many {body : Reader α} (hbody : Accepts body P F n) (hk : n ≤ k)
    (hlen : ∀ u a, P u a → 1 ≤ u.length)
    (hgo : ∀ u a r, P u a → looksLike pattern (u ++ r) = some true ∧ F (u ++ r))
    (hstop : ∀ r, G r → looksLike pattern r = some false ∧ F r) :
    Accepts (many pattern body k) (Parses.Rounds P) G n := by
  induction k generalizing n with
  | zero => exact zero.fewer hk
  | succ k ih =>
    intro u as r hu hn hr
    cases hu with
    | nil => simp [Reader.many, Reader.ifAhead, (hstop r hr).1]
    | @cons u v a as ha has =>
      have hF : F (v ++ r) := by
        cases has with
        | nil => exact (hstop r hr).2
        | cons hb _ => simpa using (hgo _ _ _ hb).2
      rw [List.length_append] at hn
      have := hlen u a ha
      have hrest := ih (n := n - 1) (hbody.fewer (by omega)) (by omega) v as r has (by omega) hr
      rw [List.append_assoc]
      simp only [Reader.many, Reader.ifAhead, (hgo u a (v ++ r) ha).1]
      rw [bind_apply, hbody u a _ ha (by omega) hF]
      simp only [bind_apply, hrest, pure_apply]

theorem grouped_many {u : TokenList} {ds : Forest} (h : Grouped [.many how ps] u ds) :
    ∃ dss, Parses.Rounds (Grouped ps) u dss ∧ ds = dss.flatten := by
  obtain ⟨cs, hcs, rfl, rfl⟩ := h
  obtain ⟨css, rfl, hcss⟩ := Grammar.grows_many.1 hcs
  clear hcs
  induction css with
  | nil => exact ⟨[], by simpa using Parses.Rounds.nil, rfl⟩
  | cons cs css ih =>
    obtain ⟨dss, hdss, hd⟩ := ih fun ds hds => hcss ds (by simp [hds])
    have hcs : Grouped ps (Tree.leavesList cs) (groupedList cs) :=
      ⟨cs, hcss cs (by simp), rfl, rfl⟩
    exact ⟨groupedList cs :: dss, by simpa using Parses.Rounds.cons hcs hdss, by simp [hd]⟩

theorem manyTrees_of {body : Reader Forest} {f : Follow}
    (hbody : Accepts body (Grouped ps) f.Holds n) (hk : n ≤ k)
    (hstop : ∀ r, G r → looksLike pattern r = some false ∧ f.Holds r)
    (hp : f.repeats pattern ps = true) :
    Accepts (manyTrees pattern body k) (Grouped [.many how ps]) G n := by
  simp only [Follow.repeats, Bool.and_eq_true, beq_iff_eq] at hp
  refine (hbody.many hk (fun _ _ h => h.ne_nil hp.1.1) ?_ hstop).map fun _ _ h => grouped_many h
  rintro u ds r ⟨cs, hcs, rfl, rfl⟩
  exact ⟨looksLike_of_looks hp.1.2 hcs, f.holds_of_admits hp.2 hcs r⟩

theorem manyTrees {body : Reader Forest} {f : Follow}
    (hbody : Accepts body (Grouped ps) f.Holds n) (hk : n ≤ k) (hp : f.repeats [ks] ps = true) :
    Accepts (manyTrees [ks] body k) (Grouped [.many how ps]) (f.with ks).Holds n :=
  hbody.manyTrees_of hk (fun _ h => ⟨h.looksLike, h.of_with⟩) hp

theorem cons_many1 {m : Reader Forest} {f : Follow} (hm : Accepts m (Grouped [p]) f.Holds n)
    (hk : n ≤ k) (hp : f.repeats [ks] [p] = true) (hf : (f.with ks).admits ps = true)
    (hq : f.admits (.many how [p] :: ps) = true) (hms : Accepts (seq ms) (Grouped ps) F n) :
    Accepts (seq (m :: Reader.manyTrees [ks] m k :: ms)) (Grouped (.many1 how [p] :: ps)) F n := by
  have hloop : Accepts (Reader.manyTrees [ks] m k) (Grouped [.many how [p]]) (f.with ks).Holds n :=
    hm.manyTrees hk hp
  refine (hm.cons_same hq (hloop.cons_same hf hms)).weaken ?_
  rintro u ds ⟨cs, hcs, hl, hgr⟩
  obtain ⟨as, bs, rfl, ha, hb⟩ := Grammar.grows_cons.1 hcs
  exact ⟨_, (Grammar.grows_many1.1 ha).append hb, hl, hgr⟩

theorem listOf {s : Rule} {m : Reader Forest} {f : Follow}
    (hr : miniGo.alternatives r = Grammar.listOf s) (hm : Accepts m (Grouped [.rule s]) f.Holds n)
    (hk : n ≤ k) (hf : f.admits [.token .comma, .rule s] = true) :
    Accepts (listOf r m k) (Grouped [.rule r]) (f.with [.comma]).Holds n := by
  have hbody : Accepts (seq [Reader.expect .comma, m]) (Grouped [.token .comma, .rule s])
      f.Holds n := token_same hm.last
  have hloop : Accepts (Reader.manyTrees [[.comma]] (seq [Reader.expect .comma, m]) k)
      (Grouped [.many .next [.token .comma, .rule s]]) (f.with [.comma]).Holds n :=
    hbody.manyTrees hk (by rw [Follow.repeats, hf]; rfl)
  refine only (a := [.rule s, .many .next [.token .comma, .rule s]]) hr ?_
  refine hm.seq_cons hloop.last (fun _ _ _ => Nat.le_add_right n _) ?_
  intro cs r hcs hr
  obtain ⟨css, rfl, hcss⟩ := Grammar.grows_many.1 hcs
  cases css with
  | nil => simpa using hr.of_with
  | cons cs css =>
    simpa using f.holds_of_admits hf (hcss cs (by simp)) (Tree.leavesList css.flatten ++ r)

end Accepts

end MiniGoc.Reader
