import MiniGoc.Tree.Parser

/-!
# Derivations

A sequence of parts *grows* a forest when the labels of its trees spell a word of the
parts and all its trees are derivations (`Grammar.Grows`).  There is one equation for each
kind of part, and with them no proof has to speak of labels and words again.

Three facts about a grammar can be read off its alternatives by computation.

* Which tokens a phrase can start with, and whether it can be empty
  (`Grammar.Grows.head_mem`).  The tokens are given by a table, and the check is
  that no alternative starts with anything else.
* That every rule has a phrase (`Grammar.exists_grows`).  The rules are given in an order in
  which each has an alternative made of tokens and of rules before it.
-/

namespace MiniGoc

variable {κ ρ : Type}
variable {k : κ} {r : ρ} {w : List (Label κ ρ)} {p : Part κ ρ} {ps qs body : List (Part κ ρ)}
  {alts : List (List (Part κ ρ))}

/-! ## Leaves and labels -/

namespace Tree

@[simp] theorem leaves_leaf (t : Token κ) : (leaf t : Tree κ ρ).leaves = [t] := by
  simp [leaves]

@[simp] theorem leaves_node (r : ρ) (cs : List (Tree κ ρ)) :
    (node r cs).leaves = leavesList cs := by
  simp [leaves]

@[simp] theorem leavesList_nil : leavesList ([] : List (Tree κ ρ)) = [] := by
  simp [leavesList]

@[simp] theorem leavesList_cons (c : Tree κ ρ) (cs : List (Tree κ ρ)) :
    leavesList (c :: cs) = c.leaves ++ leavesList cs := by
  simp [leavesList]

@[simp] theorem leavesList_append (cs ds : List (Tree κ ρ)) :
    leavesList (cs ++ ds) = leavesList cs ++ leavesList ds := by
  induction cs with
  | nil => simp
  | cons c cs ih => simp [ih]

theorem leavesList_eq (cs : List (Tree κ ρ)) : leavesList cs = cs.flatMap leaves := by
  induction cs with
  | nil => simp
  | cons c cs ih => simp [ih]

theorem mem_leavesList {u : Token κ} {cs : List (Tree κ ρ)} :
    u ∈ leavesList cs ↔ ∃ c ∈ cs, u ∈ c.leaves := by
  rw [leavesList_eq, List.mem_flatMap]

theorem mem_nodesList {x : ρ × List (Tree κ ρ)} {cs : List (Tree κ ρ)} :
    x ∈ nodesList cs ↔ ∃ c ∈ cs, x ∈ c.nodes := by
  induction cs with
  | nil => simp [nodesList]
  | cons c cs ih => simp [nodesList, ih]

theorem label_eq_token {t : Tree κ ρ} :
    t.label = .token k ↔ ∃ u : Token κ, u.kind = k ∧ t = .leaf u := by
  cases t with
  | leaf u => simp [label]
  | node r cs => simp [label]

theorem label_eq_rule {t : Tree κ ρ} : t.label = .rule r ↔ ∃ cs, t = .node r cs := by
  cases t with
  | leaf u => simp [label]
  | node s cs => simp [label]

end Tree

theorem exists_of_isRule {t : SyntaxTree} {r : Rule} (h : t.isRule r = true) :
    ∃ cs, t = .node r cs := by
  cases t with
  | leaf u => simp [Tree.isRule] at h
  | node s cs =>
    obtain rfl : s = r := by simpa [Tree.isRule] using h
    exact ⟨cs, rfl⟩

/-! ## Words -/

namespace Part

theorem spellsAll_nil : SpellsAll [] w ↔ w = [] := by
  constructor
  · intro h
    cases h
    rfl
  · rintro rfl
    exact .nil

theorem spellsAll_cons :
    SpellsAll (p :: ps) w ↔ ∃ u v, w = u ++ v ∧ Spells p u ∧ SpellsAll ps v := by
  constructor
  · intro h
    cases h with
    | cons hp hps => exact ⟨_, _, rfl, hp, hps⟩
  · rintro ⟨u, v, rfl, hp, hps⟩
    exact .cons hp hps

theorem spellsAll_singleton : SpellsAll [p] w ↔ Spells p w := by
  simp [spellsAll_cons, spellsAll_nil]

theorem spellsAll_append :
    SpellsAll (ps ++ qs) w ↔ ∃ u v, w = u ++ v ∧ SpellsAll ps u ∧ SpellsAll qs v := by
  induction ps generalizing w with
  | nil =>
    constructor
    · intro h
      exact ⟨[], w, rfl, .nil, h⟩
    · rintro ⟨u, v, rfl, hu, hv⟩
      simpa [spellsAll_nil.1 hu] using hv
  | cons p ps ih =>
    simp only [List.cons_append, spellsAll_cons, ih]
    constructor
    · rintro ⟨u, v, rfl, hp, u', v', rfl, hps, hqs⟩
      exact ⟨u ++ u', v', by simp, ⟨u, u', rfl, hp, hps⟩, hqs⟩
    · rintro ⟨u, v, rfl, ⟨u', v', rfl, hp, hps⟩, hqs⟩
      exact ⟨u', v' ++ v, by simp, hp, v', v, rfl, hps, hqs⟩

theorem spells_token : Spells (.token k) w ↔ w = [.token k] := by
  constructor
  · intro h
    cases h
    rfl
  · rintro rfl
    exact .token

theorem spells_anyOf {ks : List κ} : Spells (.anyOf ks) w ↔ ∃ k ∈ ks, w = [.token k] := by
  constructor
  · intro h
    cases h with
    | anyOf hk => exact ⟨_, hk, rfl⟩
  · rintro ⟨k, hk, rfl⟩
    exact .anyOf hk

theorem spells_rule : Spells (.rule r) w ↔ w = [.rule r] := by
  constructor
  · intro h
    cases h
    rfl
  · rintro rfl
    exact .rule

variable {how : Lookahead}

theorem spells_choice : Spells (.choice how alts) w ↔ ∃ a ∈ alts, SpellsAll a w := by
  constructor
  · intro h
    cases h with
    | choice ha hw => exact ⟨_, ha, hw⟩
  · rintro ⟨a, ha, hw⟩
    exact .choice ha hw

theorem spells_option : Spells (.option body) w ↔ w = [] ∨ SpellsAll body w := by
  constructor
  · intro h
    cases h with
    | absent => exact .inl rfl
    | present hw => exact .inr hw
  · rintro (rfl | hw)
    · exact .absent
    · exact .present hw

theorem Spells.rounds {p : Part κ ρ} {w : List (Label κ ρ)} (h : Spells p w)
    {body : List (Part κ ρ)} (hp : p = .many how body) :
    ∃ ws : List (List (Label κ ρ)), w = ws.flatten ∧ ∀ v ∈ ws, SpellsAll body v := by
  match h with
  | .none => exact ⟨[], rfl, by simp⟩
  | .more hv hw =>
    obtain ⟨ws, hflat, hws⟩ := hw.rounds hp
    cases hp
    exact ⟨_ :: ws, by rw [hflat, List.flatten_cons], List.forall_mem_cons.2 ⟨hv, hws⟩⟩

theorem spells_many :
    Spells (.many how body) w ↔
      ∃ ws : List (List (Label κ ρ)), w = ws.flatten ∧ ∀ v ∈ ws, SpellsAll body v := by
  constructor
  · intro h
    exact h.rounds rfl
  · rintro ⟨ws, rfl, hws⟩
    induction ws with
    | nil => exact .none
    | cons v ws ih =>
      exact .more (hws v (by simp)) (ih fun u hu => hws u (by simp [hu]))

theorem spells_many1 :
    Spells (.many1 how body) w ↔
      ∃ u v, w = u ++ v ∧ SpellsAll body u ∧ Spells (.many how body) v := by
  constructor
  · intro h
    cases h with
    | some hu hv => exact ⟨_, _, rfl, hu, hv⟩
  · rintro ⟨u, v, rfl, hu, hv⟩
    exact .some hu hv

end Part

/-! ## Forests -/

namespace Grammar

variable {g : Grammar κ ρ}

/-- The parts derive the forest. -/
def Grows (g : Grammar κ ρ) (ps : List (Part κ ρ)) (cs : List (Tree κ ρ)) : Prop :=
  Part.SpellsAll ps (cs.map Tree.label) ∧ ∀ c ∈ cs, c.Derives g

@[simp] theorem grows_nil {cs : List (Tree κ ρ)} : g.Grows [] cs ↔ cs = [] := by
  constructor
  · rintro ⟨hw, -⟩
    simpa [Part.spellsAll_nil] using hw
  · rintro rfl
    exact ⟨.nil, by simp⟩

theorem grows_append {cs : List (Tree κ ρ)} :
    g.Grows (ps ++ qs) cs ↔ ∃ as bs, cs = as ++ bs ∧ g.Grows ps as ∧ g.Grows qs bs := by
  constructor
  · rintro ⟨hw, hc⟩
    obtain ⟨u, v, hcs, hu, hv⟩ := Part.spellsAll_append.1 hw
    obtain ⟨as, bs, rfl, rfl, rfl⟩ := List.map_eq_append_iff.1 hcs
    exact ⟨as, bs, rfl, ⟨hu, fun c h => hc c (by simp [h])⟩, hv, fun c h => hc c (by simp [h])⟩
  · rintro ⟨as, bs, rfl, ⟨hu, ha⟩, hv, hb⟩
    refine ⟨Part.spellsAll_append.2 ⟨_, _, List.map_append, hu, hv⟩, ?_⟩
    intro c hc
    exact (List.mem_append.1 hc).elim (ha c) (hb c)

theorem grows_cons {cs : List (Tree κ ρ)} :
    g.Grows (p :: ps) cs ↔ ∃ as bs, cs = as ++ bs ∧ g.Grows [p] as ∧ g.Grows ps bs :=
  (grows_append : g.Grows ([p] ++ ps) cs ↔ _)

theorem Grows.append {as bs : List (Tree κ ρ)} (ha : g.Grows ps as) (hb : g.Grows qs bs) :
    g.Grows (ps ++ qs) (as ++ bs) :=
  grows_append.2 ⟨as, bs, rfl, ha, hb⟩

theorem Grows.cons {as bs : List (Tree κ ρ)} (ha : g.Grows [p] as) (hb : g.Grows ps bs) :
    g.Grows (p :: ps) (as ++ bs) :=
  Grows.append ha hb

theorem grows_anyOf {ks : List κ} {cs : List (Tree κ ρ)} :
    g.Grows [.anyOf ks] cs ↔ ∃ t : Token κ, t.kind ∈ ks ∧ cs = [.leaf t] := by
  constructor
  · rintro ⟨hw, -⟩
    obtain ⟨k, hk, hcs⟩ := Part.spells_anyOf.1 (Part.spellsAll_singleton.1 hw)
    obtain ⟨c, rfl, hc⟩ := List.map_eq_singleton_iff.1 hcs
    obtain ⟨t, rfl, rfl⟩ := Tree.label_eq_token.1 hc
    exact ⟨t, hk, rfl⟩
  · rintro ⟨t, hk, rfl⟩
    refine ⟨Part.spellsAll_singleton.2 (Part.spells_anyOf.2 ⟨_, hk, rfl⟩), ?_⟩
    intro c hc
    rw [List.mem_singleton.1 hc]
    exact .leaf t

theorem grows_token {cs : List (Tree κ ρ)} :
    g.Grows [.token k] cs ↔ ∃ t : Token κ, t.kind = k ∧ cs = [.leaf t] := by
  have h : g.Grows [.token k] cs ↔ g.Grows [.anyOf [k]] cs := by
    simp [Grows, Part.spellsAll_singleton, Part.spells_token, Part.spells_anyOf]
  simp [h, grows_anyOf]

theorem derives_node {cs : List (Tree κ ρ)} :
    (Tree.node r cs).Derives g ↔ ∃ a ∈ (g.alternatives r).alts, g.Grows a cs := by
  constructor
  · intro h
    cases h with
    | node ha hw hc => exact ⟨_, ha, hw, hc⟩
  · rintro ⟨a, ha, hw, hc⟩
    exact .node ha hw hc

theorem grows_rule {cs : List (Tree κ ρ)} :
    g.Grows [.rule r] cs ↔
      ∃ ds, cs = [.node r ds] ∧ ∃ a ∈ (g.alternatives r).alts, g.Grows a ds := by
  constructor
  · rintro ⟨hw, hc⟩
    obtain ⟨c, rfl, hr⟩ := List.map_eq_singleton_iff.1
      (Part.spells_rule.1 (Part.spellsAll_singleton.1 hw))
    obtain ⟨ds, rfl⟩ := Tree.label_eq_rule.1 hr
    exact ⟨ds, rfl, derives_node.1 (hc _ (by simp))⟩
  · rintro ⟨ds, rfl, h⟩
    refine ⟨Part.spellsAll_singleton.2 (Part.spells_rule.2 rfl), ?_⟩
    intro c hc
    rw [List.mem_singleton.1 hc]
    exact derives_node.2 h

variable {how : Lookahead}

theorem grows_choice {cs : List (Tree κ ρ)} :
    g.Grows [.choice how alts] cs ↔ ∃ a ∈ alts, g.Grows a cs := by
  simp only [Grows, Part.spellsAll_singleton, Part.spells_choice]
  grind

theorem grows_option {cs : List (Tree κ ρ)} :
    g.Grows [.option body] cs ↔ cs = [] ∨ g.Grows body cs := by
  simp only [Grows, Part.spellsAll_singleton, Part.spells_option, List.map_eq_nil_iff]
  grind

theorem grows_many {cs : List (Tree κ ρ)} :
    g.Grows [.many how body] cs ↔
      ∃ css : List (List (Tree κ ρ)), cs = css.flatten ∧ ∀ ds ∈ css, g.Grows body ds := by
  constructor
  · rintro ⟨hw, hc⟩
    obtain ⟨ws, hcs, hws⟩ := Part.spells_many.1 (Part.spellsAll_singleton.1 hw)
    clear hw
    induction ws generalizing cs with
    | nil => exact ⟨[], by simpa using hcs, by simp⟩
    | cons w ws ih =>
      obtain ⟨as, bs, rfl, rfl, hbs⟩ := List.map_eq_append_iff.1 (List.flatten_cons ▸ hcs)
      obtain ⟨css, rfl, hcss⟩ := ih (fun c h => hc c (by simp [h])) hbs
        (fun v hv => hws v (by simp [hv]))
      refine ⟨as :: css, by simp, ?_⟩
      intro ds hds
      rcases List.mem_cons.1 hds with rfl | hds
      · exact ⟨hws _ (by simp), fun c h => hc c (by simp [h])⟩
      · exact hcss ds hds
  · rintro ⟨css, rfl, hcss⟩
    constructor
    · refine Part.spellsAll_singleton.2 (Part.spells_many.2
        ⟨css.map (List.map Tree.label), List.map_flatten, ?_⟩)
      intro w hw
      obtain ⟨ds, hds, rfl⟩ := List.mem_map.1 hw
      exact (hcss ds hds).1
    · intro c hc
      obtain ⟨ds, hds, hc⟩ := List.mem_flatten.1 hc
      exact (hcss ds hds).2 c hc

theorem Grows.many_append {as bs : List (Tree κ ρ)} (ha : g.Grows [.many how body] as)
    (hb : g.Grows [.many how body] bs) : g.Grows [.many how body] (as ++ bs) := by
  obtain ⟨ass, rfl, hass⟩ := grows_many.1 ha
  obtain ⟨bss, rfl, hbss⟩ := grows_many.1 hb
  exact grows_many.2 ⟨ass ++ bss, List.flatten_append.symm,
    List.forall_mem_append.2 ⟨hass, hbss⟩⟩

theorem grows_many1 {cs : List (Tree κ ρ)} :
    g.Grows [.many1 how body] cs ↔ g.Grows (body ++ [Part.many how body]) cs := by
  simp only [Grows, Part.spellsAll_append, Part.spellsAll_singleton, Part.spells_many1]

theorem Grows.many_of_many1 {cs : List (Tree κ ρ)} (h : g.Grows [.many1 how body] cs) :
    g.Grows [.many how body] cs := by
  obtain ⟨as, bs, rfl, ha, hb⟩ := grows_append.1 (grows_many1.1 h)
  obtain ⟨bss, rfl, hbss⟩ := grows_many.1 hb
  exact grows_many.2 ⟨as :: bss, rfl, List.forall_mem_cons.2 ⟨ha, hbss⟩⟩

end Grammar

/-! ## How a phrase starts -/

namespace Part

mutual

/-- Whether a part may grow no token, where `empty` says which rules may. -/
def nullable (empty : ρ → Bool) : Part κ ρ → Bool
  | .token _ => false
  | .anyOf _ => false
  | .rule r => empty r
  | .choice _ alts => nullableAny empty alts
  | .option _ => true
  | .many _ _ => true
  | .many1 _ body => nullableAll empty body

/-- Whether parts may all grow no token. -/
def nullableAll (empty : ρ → Bool) : List (Part κ ρ) → Bool
  | [] => true
  | p :: ps => p.nullable empty && nullableAll empty ps

/-- Whether one of several sequences may grow no token. -/
def nullableAny (empty : ρ → Bool) : List (List (Part κ ρ)) → Bool
  | [] => false
  | a :: alts => nullableAll empty a || nullableAny empty alts

end

mutual

/-- The kinds of the first tokens of a part, where `first` gives those of the rules. -/
def heads (first : ρ → List κ) (empty : ρ → Bool) : Part κ ρ → List κ
  | .token k => [k]
  | .anyOf ks => ks
  | .rule r => first r
  | .choice _ alts => headsAny first empty alts
  | .option body => headsAll first empty body
  | .many _ body => headsAll first empty body
  | .many1 _ body => headsAll first empty body

/-- The kinds of the first tokens of parts one after the other. -/
def headsAll (first : ρ → List κ) (empty : ρ → Bool) : List (Part κ ρ) → List κ
  | [] => []
  | p :: ps =>
    p.heads first empty ++ if p.nullable empty then headsAll first empty ps else []

/-- The kinds of the first tokens of one of several sequences. -/
def headsAny (first : ρ → List κ) (empty : ρ → Bool) : List (List (Part κ ρ)) → List κ
  | [] => []
  | a :: alts => headsAll first empty a ++ headsAny first empty alts

end

end Part

/-- The leaves of a forest start with a token of one of the kinds.  There is no leaf only if
`empty`. -/
def Tree.Begins (ks : List κ) (empty : Bool) (cs : List (Tree κ ρ)) : Prop :=
  match Tree.leavesList cs with
  | [] => empty = true
  | t :: _ => t.kind ∈ ks

namespace Tree.Begins

variable {ks ls : List κ} {d e : Bool} {as bs cs : List (Tree κ ρ)}

theorem nil : Begins ks true ([] : List (Tree κ ρ)) := by
  simp [Begins]

theorem leaf {t : Token κ} (h : t.kind ∈ ks) : Begins ks e ([.leaf t] : List (Tree κ ρ)) := by
  simpa [Begins] using h

theorem mono (h : Begins ks d cs) (hk : ∀ k ∈ ks, k ∈ ls) (hd : d = true → e = true) :
    Begins ls e cs := by
  unfold Begins at h ⊢
  split at h
  · exact hd h
  · exact hk _ h

theorem append (ha : Begins ks d as) (hb : Begins ls e bs) :
    Begins (ks ++ if d then ls else []) (d && e) (as ++ bs) := by
  unfold Begins at ha hb ⊢
  rw [leavesList_append]
  split at ha
  case h_1 h =>
    rw [h, List.nil_append]
    split at hb
    · simp [ha, hb]
    · simp [ha, hb]
  case h_2 t ts h =>
    simp [h, ha]

end Tree.Begins

namespace Part

variable {first : ρ → List κ} {empty : ρ → Bool}

theorem mem_headsAny {a : List (Part κ ρ)} (ha : a ∈ alts) (hk : k ∈ headsAll first empty a) :
    k ∈ headsAny first empty alts := by
  induction alts with
  | nil => simp at ha
  | cons b alts ih =>
    rw [headsAny, List.mem_append]
    rcases List.mem_cons.1 ha with rfl | ha
    · exact .inl hk
    · exact .inr (ih ha)

theorem nullableAny_of_mem {a : List (Part κ ρ)} (ha : a ∈ alts) (h : nullableAll empty a = true) :
    nullableAny empty alts = true := by
  induction alts with
  | nil => simp at ha
  | cons b alts ih =>
    rw [nullableAny, Bool.or_eq_true]
    rcases List.mem_cons.1 ha with rfl | ha
    · exact .inl h
    · exact .inr (ih ha)

mutual

/-- A part grows forests that begin with one of its heads, if that holds of the rules. -/
theorem Spells.begins {p : Part κ ρ} {w : List (Label κ ρ)} (h : Spells p w)
    {cs : List (Tree κ ρ)} (hw : cs.map Tree.label = w)
    (hc : ∀ r ds, Tree.node r ds ∈ cs → Tree.Begins (first r) (empty r) ds) :
    Tree.Begins (p.heads first empty) (p.nullable empty) cs := by
  match h with
  | .token =>
    obtain ⟨c, rfl, hk⟩ := List.map_eq_singleton_iff.1 hw
    obtain ⟨t, rfl, rfl⟩ := Tree.label_eq_token.1 hk
    exact .leaf (by simp [heads])
  | .anyOf hmem =>
    obtain ⟨c, rfl, hk⟩ := List.map_eq_singleton_iff.1 hw
    obtain ⟨t, rfl, rfl⟩ := Tree.label_eq_token.1 hk
    exact .leaf (by simpa [heads] using hmem)
  | .rule =>
    obtain ⟨c, rfl, hr⟩ := List.map_eq_singleton_iff.1 hw
    obtain ⟨ds, rfl⟩ := Tree.label_eq_rule.1 hr
    simpa [Tree.Begins, heads, nullable] using hc _ ds (by simp)
  | .choice ha hall =>
    rw [heads, nullable]
    exact (hall.begins hw hc).mono (fun _ hk => mem_headsAny ha hk) (nullableAny_of_mem ha)
  | .absent =>
    rw [List.map_eq_nil_iff.1 hw, nullable]
    exact .nil
  | .present hall =>
    rw [heads, nullable]
    exact (hall.begins hw hc).mono (fun _ hk => hk) (fun _ => rfl)
  | .none =>
    rw [List.map_eq_nil_iff.1 hw, nullable]
    exact .nil
  | .more hv hrest =>
    obtain ⟨as, bs, rfl, ha, hb⟩ := List.map_eq_append_iff.1 hw
    have h₁ := hv.begins ha fun r ds hd => hc r ds (by simp [hd])
    have h₂ := hrest.begins hb fun r ds hd => hc r ds (by simp [hd])
    rw [heads, nullable] at h₂ ⊢
    refine (h₁.append h₂).mono ?_ (fun _ => rfl)
    intro k hk
    split at hk <;> simpa using hk
  | .some hv hrest =>
    obtain ⟨as, bs, rfl, ha, hb⟩ := List.map_eq_append_iff.1 hw
    have h₁ := hv.begins ha fun r ds hd => hc r ds (by simp [hd])
    have h₂ := hrest.begins hb fun r ds hd => hc r ds (by simp [hd])
    rw [heads, nullable] at h₂
    rw [heads, nullable]
    refine (h₁.append h₂).mono ?_ (by simp)
    intro k hk
    split at hk <;> simpa using hk

/-- The same for parts one after the other. -/
theorem SpellsAll.begins {ps : List (Part κ ρ)} {w : List (Label κ ρ)} (h : SpellsAll ps w)
    {cs : List (Tree κ ρ)} (hw : cs.map Tree.label = w)
    (hc : ∀ r ds, Tree.node r ds ∈ cs → Tree.Begins (first r) (empty r) ds) :
    Tree.Begins (headsAll first empty ps) (nullableAll empty ps) cs := by
  match h with
  | .nil =>
    rw [List.map_eq_nil_iff.1 hw, nullableAll]
    exact .nil
  | .cons hp hps =>
    obtain ⟨as, bs, rfl, ha, hb⟩ := List.map_eq_append_iff.1 hw
    have h₁ := hp.begins ha fun r ds hd => hc r ds (by simp [hd])
    have h₂ := hps.begins hb fun r ds hd => hc r ds (by simp [hd])
    rw [headsAll, nullableAll]
    exact h₁.append h₂

end

end Part

namespace Grammar

variable {g : Grammar κ ρ} {first : ρ → List κ} {empty : ρ → Bool}

/-- The tables say truly how the phrases of each rule can start: every alternative of the rule
starts so, if the rules in it do. -/
def Heads (g : Grammar κ ρ) (first : ρ → List κ) (empty : ρ → Bool) : Prop :=
  ∀ r, ∀ a ∈ (g.alternatives r).alts, (∀ k ∈ Part.headsAll first empty a, k ∈ first r) ∧
    (Part.nullableAll empty a = true → empty r = true)

theorem Heads.node (hg : g.Heads first empty) {t : Tree κ ρ} (h : t.Derives g) {r : ρ}
    {ds : List (Tree κ ρ)} (ht : t = .node r ds) : Tree.Begins (first r) (empty r) ds := by
  induction h generalizing r ds with
  | leaf t => cases ht
  | node ha hw _ ih =>
    cases ht
    obtain ⟨hheads, hempty⟩ := hg _ _ ha
    exact (hw.begins rfl fun s es he => ih _ he rfl).mono hheads hempty

theorem Heads.begins (hg : g.Heads first empty) {ps : List (Part κ ρ)} {cs : List (Tree κ ρ)}
    (h : g.Grows ps cs) :
    Tree.Begins (Part.headsAll first empty ps) (Part.nullableAll empty ps) cs :=
  h.1.begins rfl fun _ _ hd => hg.node (h.2 _ hd) rfl

end Grammar

/-! ## Every rule has a phrase -/

namespace Part

mutual

/-- Whether a part grows some forest, as far as is `known` of the rules. -/
def fillable (known : ρ → Bool) : Part κ ρ → Bool
  | .token _ => true
  | .anyOf ks => !ks.isEmpty
  | .rule r => known r
  | .choice _ alts => fillableAny known alts
  | .option _ => true
  | .many _ _ => true
  | .many1 _ body => fillableAll known body

/-- Whether parts all grow some forest. -/
def fillableAll (known : ρ → Bool) : List (Part κ ρ) → Bool
  | [] => true
  | p :: ps => p.fillable known && fillableAll known ps

/-- Whether one of several sequences grows some forest. -/
def fillableAny (known : ρ → Bool) : List (List (Part κ ρ)) → Bool
  | [] => false
  | a :: alts => fillableAll known a || fillableAny known alts

end

end Part

namespace Grammar

variable {g : Grammar κ ρ} {known : ρ → Bool}

mutual

theorem exists_grows_of_fillable (hk : ∀ r, known r = true → ∃ cs, g.Grows [.rule r] cs) :
    (p : Part κ ρ) → p.fillable known = true → ∃ cs, g.Grows [p] cs
  | .token k, _ => ⟨_, grows_token.2 ⟨⟨k, "", default⟩, rfl, rfl⟩⟩
  | .anyOf [], h => by simp [Part.fillable] at h
  | .anyOf (k :: ks), _ => ⟨_, grows_anyOf.2 ⟨⟨k, "", default⟩, by simp, rfl⟩⟩
  | .rule r, h => hk r (by simpa [Part.fillable] using h)
  | .choice how alts, h => by
    rw [Part.fillable] at h
    obtain ⟨a, ha, cs, hcs⟩ := exists_grows_of_fillableAny hk alts h
    exact ⟨cs, grows_choice.2 ⟨a, ha, hcs⟩⟩
  | .option _, _ => ⟨[], grows_option.2 (.inl rfl)⟩
  | .many _ _, _ => ⟨[], grows_many.2 ⟨[], rfl, by simp⟩⟩
  | .many1 how body, h => by
    rw [Part.fillable] at h
    obtain ⟨cs, hcs⟩ := exists_grows_of_fillableAll hk body h
    refine ⟨cs ++ [], grows_many1.2 (hcs.append (grows_many.2 ⟨[], rfl, by simp⟩))⟩

theorem exists_grows_of_fillableAll (hk : ∀ r, known r = true → ∃ cs, g.Grows [.rule r] cs) :
    (ps : List (Part κ ρ)) → Part.fillableAll known ps = true → ∃ cs, g.Grows ps cs
  | [], _ => ⟨[], grows_nil.2 rfl⟩
  | p :: ps, h => by
    rw [Part.fillableAll, Bool.and_eq_true] at h
    obtain ⟨as, has⟩ := exists_grows_of_fillable hk p h.1
    obtain ⟨bs, hbs⟩ := exists_grows_of_fillableAll hk ps h.2
    exact ⟨as ++ bs, has.cons hbs⟩

theorem exists_grows_of_fillableAny (hk : ∀ r, known r = true → ∃ cs, g.Grows [.rule r] cs) :
    (alts : List (List (Part κ ρ))) → Part.fillableAny known alts = true →
      ∃ a ∈ alts, ∃ cs, g.Grows a cs
  | [], h => by simp [Part.fillableAny] at h
  | a :: alts, h => by
    rw [Part.fillableAny, Bool.or_eq_true] at h
    rcases h with h | h
    · obtain ⟨cs, hcs⟩ := exists_grows_of_fillableAll hk a h
      exact ⟨a, by simp, cs, hcs⟩
    · obtain ⟨b, hb, hcs⟩ := exists_grows_of_fillableAny hk alts h
      exact ⟨b, by simp [hb], hcs⟩

end

end Grammar

end MiniGoc
