import MiniGoc.Proofs.Grouping

/-!
# What the grammar says about the tokens ahead

Readers decide by patterns for the next tokens.  `Grammar.looks` computes what a pattern says about
the phrases of an alternative, whatever comes after them.

Two decisions look past the end of a phrase.  Whether an expression goes on depends on the next
token, and an open brace after an identifier may start a block.  `Reader.Follow` says
what may follow a phrase, and `Reader.Follow.admits` computes whether the phrases of other
parts do.  That a block does not look like the elements of a struct literal is due
to the token after an identifier at the start of a statement (`Reader.early_stmt`).
-/

namespace MiniGoc

open Grammar (miniGo RulePart)
/-! ## Patterns and alternatives -/

/-- What the pattern says of all phrases of the parts, whatever follows.  Rules with one
alternative are opened, up to the given depth. -/
def Grammar.looks : Nat → List (List TokenKind) → List RulePart → Option Bool
  | _, [], _ => some true
  | 0, _ :: _, _ => none
  | depth + 1, ks :: pattern, ps =>
    if !solid ps then none
    else if (starts ps).all (· ∉ ks) then some false
    else if pattern.isEmpty && (starts ps).all (· ∈ ks) then some true
    else match ps with
      | .token _ :: qs => looks depth pattern qs
      | .rule r :: qs =>
        match (miniGo.alternatives r).alts with
        | [a] => looks depth (ks :: pattern) (a ++ qs)
        | _ => none
      | _ => none

namespace Reader

variable {ks : List TokenKind} {ps : List RulePart} {cs : Forest} {r : TokenList}
  {f : Follow}

theorem looksLike_cons {pattern : List (List TokenKind)} {t : Token TokenKind}
    {ts : TokenList} :
    looksLike (ks :: pattern) (t :: ts) =
      if t.kind ∈ ks then looksLike pattern ts else some false := rfl

@[simp] theorem looksLike_nil {ts : TokenList} : looksLike [] ts = some true := by
  cases ts <;> rfl

theorem looksLike_of_looks {n : Nat} {pattern : List (List TokenKind)} {b : Bool}
    (h : Grammar.looks n pattern ps = some b) (hcs : miniGo.Grows ps cs) :
    looksLike pattern (Tree.leavesList cs ++ r) = some b := by
  induction n generalizing pattern ps cs with
  | zero =>
    cases pattern with
    | nil => simpa [Grammar.looks] using h
    | cons ks pattern => simp [Grammar.looks] at h
  | succ n ih =>
    cases pattern with
    | nil => simpa [Grammar.looks] using h
    | cons ks pattern =>
      unfold Grammar.looks at h
      split at h
      · cases h
      rename_i hs
      obtain ⟨t, ts, hl, ht⟩ := hcs.leaves_eq_cons (by simpa using hs)
      split at h
      · rename_i hout
        have hmem : t.kind ∉ ks := by simpa using List.all_eq_true.1 hout _ ht
        simpa [hl, looksLike_cons, hmem] using h
      rename_i hout
      split at h
      · rename_i hin
        rw [Bool.and_eq_true, List.isEmpty_iff, List.all_eq_true] at hin
        have hmem : t.kind ∈ ks := by simpa using hin.2 _ ht
        simpa [hl, looksLike_cons, hmem, hin.1] using h
      split at h
      · obtain ⟨as, ds, rfl, ha, hds⟩ := Grammar.grows_cons.1 hcs
        obtain ⟨u, rfl, rfl⟩ := Grammar.grows_token.1 ha
        have hmem : u.kind ∈ ks := by
          simpa [Grammar.starts, Part.headsAll, Part.heads, Part.nullable] using hout
        simpa [looksLike_cons, hmem] using ih h hds
      · split at h
        · rename_i a ha
          obtain ⟨as, ds, rfl, has, hds⟩ := Grammar.grows_cons.1 hcs
          obtain ⟨es, rfl, a', ha', hes⟩ := Grammar.grows_rule.1 has
          obtain rfl : a' = a := by simpa [ha] using ha'
          simpa using ih h (hes.append hds)
        · cases h
      · cases h

theorem grows_only_cons {r : Rule} {p : RulePart} (hcs : miniGo.Grows [.rule r] cs)
    (hr : miniGo.alternatives r = Grammar.one (p :: ps)) :
    ∃ as bs, Tree.leavesList cs = Tree.leavesList (as ++ bs) ∧ miniGo.Grows [p] as ∧
      miniGo.Grows ps bs := by
  obtain ⟨ds, rfl, a, ha, hds⟩ := Grammar.grows_rule.1 hcs
  obtain rfl : a = p :: ps := by simpa [hr, Grammar.one] using ha
  obtain ⟨as, bs, rfl, has, hbs⟩ := Grammar.grows_cons.1 hds
  exact ⟨as, bs, by simp, has, hbs⟩

/-! ## After an identifier -/

/-- If the tokens start with an identifier, the next one is of none of the kinds. -/
def Early (ks : List TokenKind) (u : TokenList) : Prop :=
  ∀ (t : Token TokenKind) r, t.kind ∉ ks → looksLike [[.ident], ks] (u ++ t :: r) = some false

section

variable {ks : List TokenKind} {u v : TokenList}

theorem Early.append (hu : Early ks u) (hv : ∀ t ∈ v.head?, t.kind ∉ ks) : Early ks (u ++ v) := by
  intro t r ht
  cases v with
  | nil => simpa using hu t r ht
  | cons x v => simpa using hu x (v ++ t :: r) (hv x (by simp))

variable {ps : List RulePart} {cs : Forest}

theorem early_of_first (hcs : miniGo.Grows ps cs) (hs : Grammar.solid ps = true)
    (hp : (Grammar.starts ps).all (· ≠ .ident) = true) : Early ks (Tree.leavesList cs) := by
  obtain ⟨t, ts, hl, ht⟩ := hcs.leaves_eq_cons hs
  have : t.kind ≠ .ident := by simpa using List.all_eq_true.1 hp _ ht
  intro x r _
  simp [hl, looksLike_cons, this]

theorem early_of_second {r : Rule} {k : TokenKind} (hcs : miniGo.Grows [.rule r] cs) (hk : k ∉ ks)
    (hr : miniGo.alternatives r = Grammar.one (.token .ident :: .token k :: ps)) :
    Early ks (Tree.leavesList cs) := by
  obtain ⟨as, es, hl, has, hes⟩ := grows_only_cons hcs hr
  obtain ⟨fs, gs, rfl, hfs, -⟩ := Grammar.grows_cons.1 hes
  obtain ⟨x, hx, rfl⟩ := Grammar.grows_token.1 has
  obtain ⟨y, rfl, rfl⟩ := Grammar.grows_token.1 hfs
  intro t r _
  simp [hl, looksLike_cons, hk]

theorem early_ident {t : Token TokenKind} : Early ks [t] := by
  intro x r hx
  simp [looksLike_cons, hx]

theorem head_notMem_of_starts (hcs : miniGo.Grows ps cs)
    (hp : (Grammar.starts ps).all (· ∉ ks) = true) :
    ∀ t ∈ (Tree.leavesList cs).head?, t.kind ∉ ks := by
  intro t ht
  simpa using List.all_eq_true.1 hp _ (hcs.head_mem t ht)

/-- The kinds that can stand after an identifier at the start of an expression. -/
def afterIdent : List TokenKind :=
  ([.openParen, .openBrace, .openBracket, .dot] : List TokenKind) ++
    levels.flatMap Level.operators

variable (hks : ∀ k ∈ afterIdent, k ∉ ks)

include hks

theorem early_operand (hcs : miniGo.Grows [.rule .operand] cs) : Early ks (Tree.leavesList cs) := by
  obtain ⟨ds, rfl, a, ha, hds⟩ := Grammar.grows_rule.1 hcs
  rw [Tree.leavesList_cons, Tree.leaves_node, Tree.leavesList_nil, List.append_nil]
  simp only [miniGo, Grammar.miniGoAlternatives, List.mem_cons, List.not_mem_nil, or_false] at ha
  rcases ha with rfl | rfl | rfl | rfl | rfl | rfl | rfl | rfl | rfl | rfl
  case inr.inr.inr.inr.inr.inr.inl => exact early_of_second hds (hks .openBrace (by decide)) rfl
  case inr.inr.inr.inr.inr.inr.inr.inl =>
    obtain ⟨t, -, rfl⟩ := Grammar.grows_token.1 hds
    exact early_ident
  case inr.inr.inr.inr.inr.inr.inr.inr.inl =>
    exact early_of_second hds (hks .openParen (by decide)) rfl
  all_goals exact early_of_first hds rfl rfl

theorem head_notMem (hcs : miniGo.Grows ps cs)
    (hp : (Grammar.starts ps).all (· ∈ afterIdent) = true) :
    ∀ t ∈ (Tree.leavesList cs).head?, t.kind ∉ ks := by
  intro t ht
  exact hks _ (by simpa using List.all_eq_true.1 hp _ (hcs.head_mem t ht))

theorem Primary.early {o bs : Forest} {ls : List Link} (h : Primary o bs ls) :
    Early ks (primaryLeaves o bs ls) := by
  rw [primaryLeaves, Tree.leavesList_append]
  refine ((early_operand hks h.operand).append (head_notMem hks h.boxes rfl)).append ?_
  cases ls with
  | nil => simp
  | cons l ls =>
    obtain ⟨⟨ps, hp, hm⟩, -⟩ := h.links l (by simp)
    have hhead := head_notMem hks (hp.grows_choice hm) rfl
    obtain ⟨t, ts, hl, -⟩ := hm.leaves_eq_cons hp.solid
    simpa [Link.leaves, hl] using hhead

theorem IsRead.early (h : IsRead cs) : Early ks (Tree.leavesList cs) := by
  obtain ⟨o, bs, ls, h, hl, -⟩ := h
  exact hl ▸ h.early hks

theorem early_expr5 (hcs : miniGo.Grows [.rule .expr5] cs) : Early ks (Tree.leavesList cs) := by
  obtain ⟨ds, rfl, a, ha, hds⟩ := Grammar.grows_rule.1 hcs
  rw [Tree.leavesList_cons, Tree.leaves_node, Tree.leavesList_nil, List.append_nil]
  simp only [miniGo, Grammar.miniGoAlternatives, List.mem_cons, List.not_mem_nil, or_false] at ha
  rcases ha with rfl | rfl
  · exact early_of_first hds rfl rfl
  · obtain ⟨es, rfl, b, hb, hes⟩ := Grammar.grows_rule.1 hds
    simpa using (isRead_expr6 hb hes).early hks

/-- A level of operators, from the one below. -/
theorem early_level {r s : Rule} {p : RulePart}
    (hs : ∀ cs, miniGo.Grows [.rule s] cs → Early ks (Tree.leavesList cs))
    (hcs : miniGo.Grows [.rule r] cs)
    (hr : miniGo.alternatives r = ⟨.next, [[.rule r, p, .rule s], [.rule s]]⟩)
    (hp : (Grammar.starts [p, .rule s]).all (· ∈ afterIdent) = true) :
    Early ks (Tree.leavesList cs) := by
  obtain ⟨ds, rfl, -⟩ := Grammar.grows_rule.1 hcs
  have hd : (Tree.node r ds).Derives miniGo := hcs.2 _ (by simp)
  clear hcs
  generalize ht : Tree.node r ds = t at hd
  induction hd generalizing ds with
  | leaf => cases ht
  | @node r' es a ha hw hes ih =>
    cases ht
    have hg : miniGo.Grows a es := ⟨hw, hes⟩
    simp only [hr, List.mem_cons, List.not_mem_nil, or_false] at ha
    rcases ha with rfl | rfl
    · obtain ⟨as, bs, rfl, has, hbs⟩ := Grammar.grows_cons.1 hg
      obtain ⟨fs, rfl, -⟩ := Grammar.grows_rule.1 has
      have hleft := ih (.node r fs) (by simp) fs rfl
      simpa using hleft.append (head_notMem hks hbs hp)
    · simpa using hs es hg

theorem early_expr (hcs : miniGo.Grows [.rule .expr] cs) : Early ks (Tree.leavesList cs) := by
  have h4 (cs : Forest) (h : miniGo.Grows [.rule .expr4] cs) : Early ks (Tree.leavesList cs) :=
    early_level hks (fun _ => early_expr5 hks) h rfl rfl
  have h3 (cs : Forest) (h : miniGo.Grows [.rule .expr3] cs) : Early ks (Tree.leavesList cs) :=
    early_level hks h4 h rfl rfl
  have h2 (cs : Forest) (h : miniGo.Grows [.rule .expr2] cs) : Early ks (Tree.leavesList cs) :=
    early_level hks h3 h rfl rfl
  have h1 (cs : Forest) (h : miniGo.Grows [.rule .expr1] cs) : Early ks (Tree.leavesList cs) :=
    early_level hks h2 h rfl rfl
  exact early_level hks h1 hcs rfl rfl

end

/-- No colon follows an identifier at the start of a statement. -/
theorem early_stmt (hcs : miniGo.Grows [.rule .stmt] cs) : Early [.colon] (Tree.leavesList cs) := by
  have hks : ∀ k ∈ afterIdent, k ∉ [TokenKind.colon] := by decide
  obtain ⟨ds, rfl, a, ha, hds⟩ := Grammar.grows_rule.1 hcs
  rw [Tree.leavesList_cons, Tree.leaves_node, Tree.leavesList_nil, List.append_nil]
  simp only [miniGo, Grammar.miniGoAlternatives, List.mem_cons, List.not_mem_nil, or_false] at ha
  rcases ha with rfl | rfl | rfl | rfl | rfl | rfl | rfl | rfl | rfl
  case inr.inr.inl =>
    obtain ⟨as, bs, hl, has, hbs⟩ := grows_only_cons hds rfl
    rw [hl, Tree.leavesList_append]
    refine Early.append ?_ (head_notMem_of_starts hbs rfl)
    obtain ⟨es, rfl, b, hb, hes⟩ := Grammar.grows_rule.1 has
    simp only [miniGo, Grammar.miniGoAlternatives, List.mem_cons, List.not_mem_nil, or_false] at hb
    rcases hb with rfl | rfl | rfl
    · obtain ⟨t, -, rfl⟩ := Grammar.grows_token.1 hes
      exact early_ident
    · simpa using (isRead_member .access hes).early hks
    · simpa using (isRead_arrayAccess hes).early hks
  case inr.inr.inr.inr.inr.inr.inr.inl =>
    obtain ⟨as, bs, hl, has, hbs⟩ := grows_only_cons hds rfl
    rw [hl, Tree.leavesList_append]
    refine Early.append ?_ (head_notMem_of_starts hbs rfl)
    obtain ⟨b, hb, has⟩ := Grammar.grows_choice.1 has
    simp only [List.mem_cons, List.not_mem_nil, or_false] at hb
    rcases hb with rfl | rfl
    · exact early_of_second has (hks .openParen (by decide)) rfl
    · exact (isRead_member .call has).early hks
  all_goals exact early_of_first hds rfl rfl

/-! ## What may follow -/

/-- What may follow a phrase. -/
inductive Follow where
  | any
  | other (ks : List TokenKind)
  /-- A token of none of the kinds; if it is an open brace, it starts a block. -/
  | orBlock (ks : List TokenKind)

/-- The tokens after a brace are not those of a struct literal. -/
def OpensBlock (ts : TokenList) : Prop :=
  looksLike [[.closeBrace]] ts = some false ∧ looksLike [[.ident], [.colon]] ts = some false

/-- Whether the tokens may follow. -/
def Follow.Holds : Follow → TokenList → Prop
  | any, _ => True
  | other ks, r => ∃ t ts, r = t :: ts ∧ t.kind ∉ ks
  | orBlock ks, r => ∃ t ts, r = t :: ts ∧ t.kind ∉ ks ∧ (t.kind = .openBrace → OpensBlock ts)

/-- What may follow if the kinds may not come next either. -/
def Follow.with : Follow → List TokenKind → Follow
  | any, ls => other ls
  | other ks, ls => other (ls ++ ks)
  | orBlock ks, ls => orBlock (ls ++ ks)

theorem Follow.Holds.of_with (h : (f.with ks).Holds r) : f.Holds r := by
  cases f with
  | any => trivial
  | other ls =>
    obtain ⟨t, ts, rfl, ht⟩ := h
    exact ⟨t, ts, rfl, fun hmem => ht (by simp [hmem])⟩
  | orBlock ls =>
    obtain ⟨t, ts, rfl, ht, hb⟩ := h
    exact ⟨t, ts, rfl, fun hmem => ht (by simp [hmem]), hb⟩

theorem Follow.Holds.looksLike (h : (f.with ks).Holds r) : looksLike [ks] r = some false := by
  obtain ⟨t, ts, rfl, ht⟩ : ∃ t ts, r = t :: ts ∧ t.kind ∉ ks := by
    cases f with
    | any => exact h
    | other ls =>
      obtain ⟨t, ts, rfl, ht⟩ := h
      exact ⟨t, ts, rfl, fun hmem => ht (by simp [hmem])⟩
    | orBlock ls =>
      obtain ⟨t, ts, rfl, ht, -⟩ := h
      exact ⟨t, ts, rfl, fun hmem => ht (by simp [hmem])⟩
  simp [looksLike_cons, ht]

/-- Whether the phrases of the parts may follow. -/
def Follow.admits : Follow → List RulePart → Bool
  | any, _ => true
  | other ks, ps => Grammar.solid ps && (Grammar.starts ps).all (· ∉ ks)
  | orBlock ks, .rule .block :: _ => decide (.openBrace ∉ ks)
  | orBlock ks, ps => Grammar.solid ps && (Grammar.starts ps).all (· ∉ .openBrace :: ks)

theorem opensBlock (hcs : miniGo.Grows (.rule .block :: ps) cs) (r : TokenList) :
    ∃ t ts, Tree.leavesList cs = t :: ts ∧ t.kind = .openBrace ∧ OpensBlock (ts ++ r) := by
  obtain ⟨as, rest, rfl, has, -⟩ := Grammar.grows_cons.1 hcs
  obtain ⟨bs, ds, hl, hbs, hds⟩ := grows_only_cons has rfl
  obtain ⟨t, ht, rfl⟩ := Grammar.grows_token.1 hbs
  obtain ⟨es, fs, rfl, hes, hfs⟩ := Grammar.grows_cons.1 hds
  obtain ⟨s, gs, rfl, hs, hgs⟩ := Grammar.grows_cons.1 (Grammar.grows_many1.1 hes)
  -- The tokens after the first statement are not empty.
  obtain ⟨u, us, hu, -⟩ := (hgs.append hfs).leaves_eq_cons rfl
  refine ⟨t, Tree.leavesList s ++ (u :: us) ++ Tree.leavesList rest, ?_, ht, ?_, ?_⟩
  · simp [hl, ← hu]
  · rw [List.append_assoc, List.append_assoc]
    exact looksLike_of_looks (n := 1) rfl hs
  · have hcolon : ∀ t ∈ (Tree.leavesList (gs ++ fs)).head?, t.kind ∉ [TokenKind.colon] :=
      head_notMem_of_starts (hgs.append hfs) rfl
    simpa using early_stmt hs u _ (hcolon u (by simp [hu]))

theorem Follow.holds_of_admits (h : f.admits ps = true) (hcs : miniGo.Grows ps cs)
    (r : TokenList) : f.Holds (Tree.leavesList cs ++ r) := by
  unfold Follow.admits at h
  split at h
  · trivial
  · rw [Bool.and_eq_true] at h
    obtain ⟨t, ts, hl, ht⟩ := hcs.leaves_eq_cons h.1
    exact ⟨t, ts ++ r, by simp [hl], by simpa using List.all_eq_true.1 h.2 _ ht⟩
  · obtain ⟨t, ts, hl, ht, hopen⟩ := opensBlock hcs r
    exact ⟨t, ts ++ r, by simp [hl], by simpa [ht] using h, fun _ => hopen⟩
  · rw [Bool.and_eq_true] at h
    obtain ⟨t, ts, hl, ht⟩ := hcs.leaves_eq_cons h.1
    obtain ⟨hb, hk⟩ : t.kind ≠ .openBrace ∧ _ := by
      simpa using List.all_eq_true.1 h.2 _ ht
    exact ⟨t, ts ++ r, by simp [hl], hk, fun h => absurd h hb⟩

end Reader

end MiniGoc
