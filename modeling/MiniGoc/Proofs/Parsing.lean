import MiniGoc.Proofs.Completeness
import MiniGoc.Proofs.Rejection
import MiniGoc.Proofs.Tiling

/-!
# The parser reads the grammar

The tokens of a source without lexical error end with the end of the source
(`Tokens.closed`).  On such tokens the three views of the readers come together.

* What is read is a derivation of the tokens, or else the tokens before the one where the
  reading stops can be completed to a sentence (`Reader.program_outcome`).
* A sentence is read (`Reader.accepts_program`).
* Where the reading stops does not depend on the tokens behind, with one exception
  (`Reader.program_stuck`).

So the parser accepts the sentences of the grammar, and it stops at the first token that no
sentence has there, or at an open brace after an identifier.
-/

namespace MiniGoc

/-- Some sentence of the rule starts with the tokens. -/
def Grammar.Viable {κ ρ : Type} (g : Grammar κ ρ) (r : ρ) (ts : List (Token κ)) : Prop :=
  ∃ rest, g.Sentence r (ts ++ rest)

theorem Tokens.closed {source : String} (h : (ofSource source).error = none) :
    Closed (ofSource source).tokens := by
  obtain ⟨body, hbody, heq⟩ := exists_body source
  exact ⟨body, _, by rw [heq, if_pos h], rfl, hbody⟩

theorem Tokens.error_none_of_eof {source : String} {t : Token TokenKind}
    (ht : t ∈ (ofSource source).tokens) (heof : t.kind = .eof) :
    (ofSource source).error = none := by
  obtain ⟨body, hbody, heq⟩ := exists_body source
  by_contra he
  rw [heq, if_neg he, List.append_nil] at ht
  exact hbody t ht heof

namespace SyntaxTree

open Grammar (miniGo)
open Reader (Trees Grouped program)

variable {ts : TokenList}

theorem sentence_iff {r : Rule} : miniGo.Sentence r ts ↔ ∃ d, Trees [.rule r] ts [d] := by
  constructor
  · rintro ⟨cs, hd, rfl⟩
    exact ⟨.node r cs, by simp, Grammar.grows_rule.2 ⟨cs, rfl, Grammar.derives_node.1 hd⟩⟩
  · rintro ⟨d, rfl, hg⟩
    obtain ⟨cs, heq, hd⟩ := Grammar.grows_rule.1 hg
    obtain ⟨rfl, -⟩ := List.cons.inj heq
    exact ⟨cs, Grammar.derives_node.2 hd, by simp⟩

/-- A sentence is read as the grouped form of each of its derivations. -/
theorem program_of_trees {n : Nat} {d : SyntaxTree} (h : Trees [.rule .program] ts [d])
    (hn : ts.length < n) : program n ts = .ok ([d.grouped], []) := by
  have hgrouped : Grouped [.rule .program] ts [d.grouped] := ⟨[d], h.2, h.1, by simp⟩
  simpa using Reader.accepts_program (F := fun _ => True) ts _ [] hgrouped hn trivial

theorem read_of_trees {d : SyntaxTree} (h : Trees [.rule .program] ts [d]) :
    read ts = .ok d.grouped := by
  rw [read, program_of_trees h (Nat.lt_succ_self _)]

/-! ## Trees -/

mutual

def decEq : (s t : SyntaxTree) → Decidable (s = t)
  | .leaf t, .leaf u => decidable_of_iff (t = u) (by simp)
  | .node r cs, .node q ds =>
    have := decEqAll cs ds
    decidable_of_iff (r = q ∧ cs = ds) (by simp)
  | .leaf _, .node _ _ | .node _ _, .leaf _ => isFalse (by simp)

def decEqAll : (cs ds : Forest) → Decidable (cs = ds)
  | [], [] => isTrue rfl
  | c :: cs, d :: ds =>
    have := decEq c d
    have := decEqAll cs ds
    decidable_of_iff (c = d ∧ cs = ds) (by simp)
  | [], _ :: _ | _ :: _, [] => isFalse (by simp)

end

instance : DecidableEq SyntaxTree := decEq

variable {t : SyntaxTree} {source : String}

/-- The tree that is read is a derivation of the tokens. -/
theorem trees_of_read (hts : Closed ts) (h : read ts = .ok t) : Trees [.rule .program] ts [t] := by
  unfold read at h
  obtain ⟨t', hp, ht⟩ | ⟨u, x, r, v, cs, hp, -⟩ := Reader.program_outcome hts (Nat.lt_succ_self _)
  · rw [hp] at h
    obtain rfl : t' = t := by simpa using h
    exact ht
  · simp [hp] at h

theorem parse_ok_iff : parse source = .ok t ↔ read (Tokens.ofSource source).tokens = .ok t := by
  unfold parse
  dsimp only
  split <;> simp_all

/-- A source with a tree has no lexical error, since there is no end of the source before one. -/
theorem error_none_of_parse (h : parse source = .ok t) : (Tokens.ofSource source).error = none := by
  have hread := parse_ok_iff.1 h
  unfold read at hread
  generalize hp : program _ (Tokens.ofSource source).tokens = res at hread
  match res with
  | .error s => cases hread
  | .ok (cs, r) =>
    obtain ⟨t, ht, heof⟩ := Reader.exists_eof hp
    exact Tokens.error_none_of_eof ht heof

theorem trees_of_parse (h : parse source = .ok t) :
    Trees [.rule .program] (Tokens.ofSource source).tokens [t] :=
  trees_of_read (Tokens.closed (error_none_of_parse h)) (parse_ok_iff.1 h)

/-- The parser accepts exactly the sentences of the grammar.  The tree it gives is a derivation,
and its leaves are the tokens. -/
theorem parse_exact (source : String) (h : (Tokens.ofSource source).error = none) :
    Closed (Tokens.ofSource source).tokens ∧
    ((∃ t, parse source = .ok t) ↔ miniGo.Sentence .program (Tokens.ofSource source).tokens) ∧
    ∀ t, parse source = .ok t → t.isRule .program = true ∧ t.Derives miniGo ∧
      t.leaves = (Tokens.ofSource source).tokens := by
  refine ⟨Tokens.closed h, ⟨?_, ?_⟩, fun t ht => ?_⟩
  · rintro ⟨t, ht⟩
    exact sentence_iff.2 ⟨t, trees_of_parse ht⟩
  · intro hs
    obtain ⟨d, hd⟩ := sentence_iff.1 hs
    exact ⟨d.grouped, parse_ok_iff.2 (read_of_trees hd)⟩
  · obtain ⟨hl, hg⟩ := trees_of_parse ht
    obtain ⟨cs, heq, hcs⟩ := Grammar.grows_rule.1 hg
    obtain ⟨rfl, -⟩ := List.cons.inj heq
    exact ⟨rfl, Grammar.derives_node.2 hcs, by simpa using hl⟩

theorem parse_exact_const :
    (Tokens.ofSource "const a = 1\n").error = none ∧
      Closed (Tokens.ofSource "const a = 1\n").tokens ∧
      ((∃ t, parse "const a = 1\n" = .ok t) ↔
        miniGo.Sentence .program (Tokens.ofSource "const a = 1\n").tokens) ∧
      ∀ t, parse "const a = 1\n" = .ok t → t.isRule .program = true ∧ t.Derives miniGo ∧
        t.leaves = (Tokens.ofSource "const a = 1\n").tokens :=
  have h : (Tokens.ofSource "const a = 1\n").error = none := by decide +kernel
  ⟨h, parse_exact _ h⟩

/-! ## Errors -/

/-- Where the reading stops.  The tokens before it are the start of a sentence, and with the token
they are not, unless it is an open brace after an identifier. -/
theorem viable_of_stuck (hts : Closed ts) {s : Stuck} (h : read ts = .error s) :
    ∃ u t r, ts = u ++ t :: r ∧ s = .unexpected t r ∧ miniGo.Viable .program u ∧
      (¬ (t.kind = .openBrace ∧ ∃ i ∈ u.getLast?, i.kind = .ident) →
        ¬ miniGo.Viable .program (u ++ [t])) := by
  unfold read at h
  obtain ⟨t', hp, -⟩ | ⟨u, t, r, v, cs, hp, rfl, hcs⟩ :=
    Reader.program_outcome hts (Nat.lt_succ_self _)
  · simp [hp] at h
  rw [hp] at h
  obtain rfl := Except.error.inj h
  obtain ⟨ds, rfl, -⟩ := Grammar.grows_rule.1 hcs.2
  refine ⟨u, t, r, rfl, rfl, ⟨v, sentence_iff.2 ⟨_, hcs⟩⟩, fun hex => ?_⟩
  rintro ⟨rest, hs⟩
  -- The sentence would be read whole, and the reading stops at the token all the same.
  obtain ⟨d, hd⟩ := sentence_iff.1 hs
  have hlen := Nat.le_add_right ((u ++ t :: r).length + 1) (u ++ [t] ++ rest).length
  have hok := program_of_trees (n := (u ++ t :: r).length + 1 + (u ++ [t] ++ rest).length) hd
    (by omega)
  have hbrace : t.kind = .openBrace → ∀ i ∈ u.getLast?, i.kind ≠ .ident :=
    fun hb i hi hk => hex ⟨hb, i, hi, hk⟩
  have herror := Reader.program_stuck hlen hp hbrace rest
  simp only [List.append_assoc, List.cons_append, List.nil_append] at hok herror
  rw [herror] at hok
  cases hok

/-- A syntax error stands at a token of the source, and its message gives the place and the text of
the token.  The tokens before are the start of a sentence.  With the token they are not, unless
it is an open brace after an identifier. -/
theorem parse_error_located (source : String) (h : (Tokens.ofSource source).error = none)
    (e : SyntaxError) (he : parse source = .error e) :
    ∃ u t r, (Tokens.ofSource source).tokens = u ++ t :: r ∧ e = .unexpected t ∧
      e.message = "Error on line " ++ toString t.place.line ++ " col " ++
        toString t.place.column ++ ": " ++ t.text ∧
      miniGo.Viable .program u ∧
      (¬ (t.kind = .openBrace ∧ ∃ i ∈ u.getLast?, i.kind = .ident) →
        ¬ miniGo.Viable .program (u ++ [t])) := by
  cases hread : read (Tokens.ofSource source).tokens with
  | ok t => simp [parse_ok_iff.2 hread] at he
  | error s =>
    obtain ⟨u, t, r, htokens, rfl, hviable⟩ := viable_of_stuck (Tokens.closed h) hread
    obtain rfl : .unexpected t = e := by simpa [parse, hread] using he
    exact ⟨u, t, r, htokens, rfl, rfl, hviable⟩

/-- A block without statements. -/
theorem parse_error_located_block :
    (Tokens.ofSource "func f() \x7b\x7d").error = none ∧
      parse "func f() \x7b\x7d" = .error (.unexpected ⟨.closeBrace, "\x7d", ⟨1, 10⟩⟩) ∧
      ∃ u t r, (Tokens.ofSource "func f() \x7b\x7d").tokens = u ++ t :: r ∧
        SyntaxError.unexpected ⟨.closeBrace, "\x7d", ⟨1, 10⟩⟩ = .unexpected t ∧
        SyntaxError.message (.unexpected ⟨.closeBrace, "\x7d", ⟨1, 10⟩⟩) =
          "Error on line " ++ toString t.place.line ++ " col " ++
            toString t.place.column ++ ": " ++ t.text ∧
        miniGo.Viable .program u ∧
        (¬ (t.kind = .openBrace ∧ ∃ i ∈ u.getLast?, i.kind = .ident) →
          ¬ miniGo.Viable .program (u ++ [t])) :=
  have h : (Tokens.ofSource "func f() \x7b\x7d").error = none := by decide +kernel
  have he : parse "func f() \x7b\x7d" =
      .error (.unexpected ⟨.closeBrace, "\x7d", ⟨1, 10⟩⟩) := by
    have hrun : (parse "func f() \x7b\x7d").map (fun _ => ()) =
        .error (.unexpected ⟨.closeBrace, "\x7d", ⟨1, 10⟩⟩) := by decide +kernel
    cases hparse : parse "func f() \x7b\x7d" with
    | ok t =>
      rw [hparse] at hrun
      cases hrun
    | error e =>
      rw [hparse] at hrun
      rw [Except.error.inj hrun]
  ⟨h, he, parse_error_located _ h _ he⟩

end SyntaxTree

end MiniGoc
