import MiniGoc.Proofs.Levels

/-!
# Precedence climbing

A formula is a factor followed by operators with factors, and a factor is a name with signs
before it.  `Formula.climb` reads a formula by precedence climbing: it takes operators as long as
they are of a level or above, and the right operand of each takes those that bind tighter.

The rules of expressions give the same reading (`Formula.parse_declaration`).  The step is that an
operator and the operand that its climb gives form an expression of the level of the operator.
What holds along the climb is that the operand so far is an expression of a level that the next
operator does not exceed (`Formula.phrase_climb`).
-/

namespace MiniGoc

open SyntaxTree (Phrase)

structure Name where
  /-- How it is written. -/
  text : String
  stands : (Token.ofShown (.ident, text)).Stands

/-- The name with a text that is read as an identifier. -/
def Name.ofText (s : String)
    (h : ((Tokens.ofSource s).tokens.map Token.shown).head? = some (.ident, s)) : Name :=
  ⟨s, Tokens.stands_of_head (by decide) h⟩

structure Sign where
  kind : TokenKind
  /-- It is one of the two signs. -/
  unary : kind ∈ [.not, .sub]

structure Operator where
  kind : TokenKind
  binary : kind ∈ Build.binaryKinds

/-- A name with signs before it. -/
structure Factor where
  signs : List Sign
  name : Name

/-- A factor followed by operators with factors. -/
structure Formula where
  first : Factor
  /-- The operators and the factors behind them. -/
  rest : List (Operator × Factor)

namespace Factor

/-- The node of a factor: the signs apply to the name from the last one to the first. -/
def node (a : Factor) : Node :=
  a.signs.foldr (fun s n => .unary s.kind.written.2 n) (.id a.name.text)

/-- How a factor is written. -/
def tokens (a : Factor) : List (TokenKind × String) :=
  a.signs.map (·.kind.written) ++ [(TokenKind.ident, a.name.text)]

theorem phrase (a : Factor) : Phrase (.level 5) a.tokens (.ok a.node) := by
  obtain ⟨signs, name⟩ := a
  induction signs with
  | nil => exact (Phrase.name name.text).of_operand.of_expr6
  | cons s signs ih => exact ih.unary s.unary s.kind.written.2

end Factor

namespace Formula

/-- Precedence climbing, with a bound on what is left. -/
def climbing (p : Nat) (left : Node) (rest : List (Operator × Factor)) :
    { r : Node × List (Operator × Factor) // r.2.length ≤ rest.length } :=
  match rest with
  | [] => ⟨(left, []), Nat.le_refl _⟩
  | (o, a) :: rest =>
    if o.kind.level < p then ⟨(left, (o, a) :: rest), Nat.le_refl _⟩
    else
      let right := climbing (o.kind.level + 1) a.node rest
      let all := climbing p (.binary o.kind.written.2 left right.1.1) right.1.2
      ⟨all.1, Nat.le_trans all.2 (Nat.le_succ_of_le right.2)⟩
termination_by rest.length
decreasing_by
  · simp
  · exact Nat.lt_succ_of_le right.2

/-- Precedence climbing.  After a left operand, operators of the level or above are taken with
their right operands.  The result is the operand with all that is taken, and what is left. -/
def climb (p : Nat) (left : Node) (rest : List (Operator × Factor)) :
    Node × List (Operator × Factor) := (climbing p left rest).1

@[simp] theorem climb_nil (p : Nat) (left : Node) : climb p left [] = (left, []) := by
  rw [climb, climbing]

@[simp] theorem climb_cons (p : Nat) (left : Node) (o : Operator) (a : Factor)
    (rest : List (Operator × Factor)) : climb p left ((o, a) :: rest) =
      if o.kind.level < p then (left, (o, a) :: rest)
      else climb p (.binary o.kind.written.2 left (climb (o.kind.level + 1) a.node rest).1)
        (climb (o.kind.level + 1) a.node rest).2 := by
  rw [climb, climbing]
  split <;> rfl

def node (f : Formula) : Node := (climb 0 f.first.node f.rest).1

/-- How operators with factors are written. -/
def links (rest : List (Operator × Factor)) : List (TokenKind × String) :=
  rest.flatMap fun l => l.1.kind.written :: l.2.tokens

/-- How a formula is written. -/
def tokens (f : Formula) : List (TokenKind × String) := f.first.tokens ++ links f.rest

/-- A climb reads an expression of its level, and the next operator is below the level. -/
theorem phrase_climb {p q : Nat} {left : Node} {rest : List (Operator × Factor)}
    {ts : List (TokenKind × String)} (hleft : Phrase (.level q) ts (.ok left)) (hp : p ≤ q)
    (hnext : ∀ l ∈ rest.head?, l.1.kind.level ≤ q) :
    ∃ used, rest = used ++ (climb p left rest).2 ∧
      Phrase (.level p) (ts ++ links used) (.ok (climb p left rest).1) ∧
      ∀ l ∈ (climb p left rest).2.head?, l.1.kind.level < p := by
  unfold climb
  fun_induction climbing p left rest generalizing q ts with
  | case1 p left => exact ⟨[], rfl, by simpa [links] using hleft.mono hp, by simp⟩
  | case2 p left o a rest h =>
    exact ⟨[], rfl, by simpa [links] using hleft.mono hp, by simpa using h⟩
  | case3 p left o a rest h right all ihright =>
    rename_i ihall
    have hq : o.kind.level ≤ q := hnext (o, a) rfl
    have ho : o.kind.level + 1 ≤ 5 := Nat.succ_le_succ (TokenKind.level_le o.binary)
    obtain ⟨us, hus, hright, hbelow⟩ := ihright a.phrase ho
      fun l _ => Nat.le_succ_of_le (TokenKind.level_le l.1.binary)
    -- The left operand has no operator below the level of this one, and the right one none of it.
    have hbinary := (hleft.mono hq).binary o.binary hright o.kind.written.2
    obtain ⟨vs, hvs, hall, hlast⟩ := ihall hbinary (Nat.le_of_not_lt h)
      fun l hl => Nat.le_of_lt_succ (hbelow l hl)
    have hlinks : ts ++ links ((o, a) :: (us ++ vs)) =
        ts ++ o.kind.written :: (a.tokens ++ links us) ++ links vs := by
      simp [links]
    refine ⟨(o, a) :: (us ++ vs), ?_, hlinks ▸ hall, hlast⟩
    rw [List.cons_append, List.append_assoc, ← hvs, ← hus]

theorem phrase (f : Formula) : Phrase .expr f.tokens (.ok f.node) := by
  obtain ⟨used, hused, hphrase, hrest⟩ := phrase_climb (p := 0) f.first.phrase (Nat.zero_le 5)
    fun l (_ : l ∈ f.rest.head?) => Nat.le_succ_of_le (TokenKind.level_le l.1.binary)
  have hnil : (climb 0 f.first.node f.rest).2 = [] := by
    cases h : (climb 0 f.first.node f.rest).2 with
    | nil => rfl
    | cons l ls => exact absurd (hrest l (by simp [h])) (Nat.not_lt_zero _)
  rw [hnil, List.append_nil] at hused
  rw [tokens, hused]
  exact hphrase

end Formula

namespace SyntaxTree.Phrase

variable {ts : List (TokenKind × String)} {n : Node}

/-- The declaration of a constant. -/
theorem const (h : Phrase .expr ts (.ok n)) (x : String) :
    Phrase .decl ([TokenKind.kwConst.written, (.ident, x), TokenKind.equal.written] ++ ts ++
      [TokenKind.semicolon.written]) (.ok (.const x .none n)) := by
  obtain ⟨es, hes, rfl, hn⟩ := h
  have hsettled : Settled (.node .constDecl [.leaf ⟨.kwConst, "const", {}⟩, .leaf ⟨.ident, x, {}⟩,
      .leaf ⟨.equal, "=", {}⟩, .node .expr es, .leaf ⟨.semicolon, ";", {}⟩]) :=
    settled_node (.head _) (.cons .token (.cons .token (.cons .token (.cons .rule
      (.cons .token .nil))))) (by decide) (by simp [hes])
  refine unit (s := .constDecl) ⟨_, hsettled, ?_, ?_⟩ (.tail _ (.head _)) (by decide)
    (by simp [Build.node])
  · simp [Token.shown, TokenKind.written, TokenKind.literal?]
  · rw [toNode]
    simp [Build.node, Build.Parts.get, Build.Parts.text, hn]

theorem program (h : Phrase .decl ts (.ok n)) :
    Phrase .program (ts ++ [(TokenKind.eof, "<EOF>")]) (.ok (.program [n])) := by
  obtain ⟨ds, hds, rfl, hn⟩ := h
  refine ⟨[.node .decl ds, .leaf ⟨.eof, "<EOF>", {}⟩], settled_node (.head _)
    (.cons (.some (.cons .rule .nil) .none) (.cons .token .nil)) (by decide) (by simp [hds]),
    by simp [Token.shown], ?_⟩
  have hnil : (parts []).getAll .decl = .ok [] := by
    rw [parts]
    rfl
  rw [toNode]
  simp [Build.node, hn, hnil]

end SyntaxTree.Phrase

namespace Formula

/-- How the declaration of a constant with a formula is written. -/
def declaration (x : Name) (f : Formula) : List (TokenKind × String) :=
  [TokenKind.kwConst.written, (.ident, x.text), TokenKind.equal.written] ++ f.tokens ++
    [TokenKind.semicolon.written]

/-- The text of the declaration, with blanks between the tokens. -/
def source (x : Name) (f : Formula) : String :=
  Tokens.spaced ((declaration x f).map Token.ofShown)

theorem stands_factor (a : Factor) : ∀ w ∈ a.tokens, (Token.ofShown w).Stands := by
  have hsign : ∀ k ∈ [TokenKind.not, .sub], k.literal?.isSome = true := by decide
  simp only [Factor.tokens, List.forall_mem_append, List.forall_mem_map, List.forall_mem_singleton]
  exact ⟨fun s _ => Tokens.stands_written (hsign _ s.unary), a.name.stands⟩

theorem stands_links (rest : List (Operator × Factor)) :
    ∀ w ∈ links rest, (Token.ofShown w).Stands := by
  have hbinary : ∀ k ∈ Build.binaryKinds, k.literal?.isSome = true := by decide
  intro w hw
  obtain ⟨l, -, hw⟩ := List.mem_flatMap.1 hw
  obtain rfl | hw := List.mem_cons.1 hw
  · exact Tokens.stands_written (hbinary _ l.1.binary)
  · exact stands_factor l.2 w hw

theorem stands_declaration (x : Name) (f : Formula) :
    ∀ w ∈ declaration x f, (Token.ofShown w).Stands := by
  simp only [declaration, tokens, List.forall_mem_append, List.forall_mem_cons]
  exact ⟨⟨⟨Tokens.stands_written rfl, x.stands, Tokens.stands_written rfl, by simp⟩,
    stands_factor f.first, stands_links f.rest⟩, Tokens.stands_written rfl, by simp⟩

/-- The declaration of a constant with a formula can be written, and every source that is written
so is read with the formula as precedence climbing reads it. -/
theorem parse_declaration (x : Name) (f : Formula) :
    (Tokens.ofSource (source x f)).tokens.map Token.shown =
      declaration x f ++ [(.eof, "<EOF>")] ∧
    ∀ source, (Tokens.ofSource source).tokens.map Token.shown =
        declaration x f ++ [(.eof, "<EOF>")] →
      ∃ t, SyntaxTree.parse source = .ok t ∧
        t.toNode = .ok (.program [.const x.text .none f.node]) := by
  constructor
  · exact Tokens.shown_spaced (stands_declaration x f)
  · intro source hsource
    exact (f.phrase.const x.text).program.parse hsource

/-- Operators of all levels, and signs. -/
theorem parse_declaration_mixed : ∃ t, SyntaxTree.parse "const x=-a-b*!-c-d<e&&f||g;" = .ok t ∧
    t.toNode = .ok (.program [.const "x" .none (.binary "||" (.binary "&&" (.binary "<"
      (.binary "-" (.binary "-" (.unary "-" (.id "a"))
        (.binary "*" (.id "b") (.unary "!" (.unary "-" (.id "c"))))) (.id "d"))
      (.id "e")) (.id "f")) (.id "g"))]) := by
  let minus : Sign := ⟨.sub, by decide⟩
  let not : Sign := ⟨.not, by decide⟩
  let name (s : String)
      (h : ((Tokens.ofSource s).tokens.map Token.shown).head? = some (.ident, s)) : Factor :=
    ⟨[], .ofText s h⟩
  let f : Formula := ⟨⟨[minus], .ofText "a" (by decide +kernel)⟩,
    [(⟨.sub, by decide⟩, name "b" (by decide +kernel)),
     (⟨.multiply, by decide⟩, ⟨[not, minus], .ofText "c" (by decide +kernel)⟩),
     (⟨.sub, by decide⟩, name "d" (by decide +kernel)),
     (⟨.less, by decide⟩, name "e" (by decide +kernel)),
     (⟨.and, by decide⟩, name "f" (by decide +kernel)),
     (⟨.or, by decide⟩, name "g" (by decide +kernel))]⟩
  have hsource : (Tokens.ofSource "const x=-a-b*!-c-d<e&&f||g;").tokens.map Token.shown =
      declaration (.ofText "x" (by decide +kernel)) f ++ [(.eof, "<EOF>")] := by
    decide +kernel
  obtain ⟨t, ht, hn⟩ := (parse_declaration _ f).2 _ hsource
  refine ⟨t, ht, hn.trans ?_⟩
  simp [f, name, minus, not, node, Factor.node, Name.ofText, TokenKind.level, TokenKind.written,
    TokenKind.literal?]

end Formula

end MiniGoc
