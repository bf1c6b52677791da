import MiniGoc.Proofs.Tiling

/-!
# String literals

A string literal is a quote, pieces, and a quote.  A piece is an escape or a single character,
and its first letter tells which (`matches_inString`).  So the pieces up to a quote can be told
in one way only (`Pieces.exists_rest`), and a string literal is no proper prefix of anything that
starts like one (`IsString.eq_nil_of_matches`): of another literal, of one with a wrong escape, or
of one that is not closed.
-/

namespace MiniGoc.TokenKind

open Pattern

variable {x : Letter} {a b r t u v w : List Letter}

abbrev Pieces (w : List Letter) : Prop := Matches (.star inString) w

theorem matches_quote : Matches quote w ↔ w = [some '"'] := by
  simp [quote]

theorem matches_backslash : Matches backslash w ↔ w = [some '\\'] := by
  simp [backslash]

/-- A backslash starts an escape, and any other letter of a string stands alone. -/
theorem matches_inString : Matches inString w ↔
    (∃ c ∈ ['n', 't', 'r', '"', '\\'], w = [some '\\', some c]) ∨
      ∃ c, c ∉ ['\n', '\r', '"', '\\'] ∧ w = [some c] := by
  have hescape : Matches escape w ↔
      ∃ c ∈ ['n', 't', 'r', '"', '\\'], w = [some '\\', some c] := by
    simp only [escape, oneOf, matches_alt, matches_seq, matches_quote, matches_backslash,
      matches_char, CharSet.has_of, List.mem_cons, List.not_mem_nil, or_false]
    constructor
    · rintro (⟨_, _, rfl, rfl, c, hc, rfl⟩ | ⟨_, _, rfl, rfl, rfl⟩ | ⟨_, _, rfl, rfl, rfl⟩)
      · exact ⟨c, by grind, rfl⟩
      · exact ⟨'"', by simp, rfl⟩
      · exact ⟨'\\', by simp, rfl⟩
    · rintro ⟨c, rfl | rfl | rfl | rfl | rfl, rfl⟩
      · exact .inl ⟨_, _, rfl, rfl, 'n', by simp, rfl⟩
      · exact .inl ⟨_, _, rfl, rfl, 't', by simp, rfl⟩
      · exact .inl ⟨_, _, rfl, rfl, 'r', by simp, rfl⟩
      · exact .inr (.inl ⟨_, _, rfl, rfl, rfl⟩)
      · exact .inr (.inr ⟨_, _, rfl, rfl, rfl⟩)
  rw [inString, matches_alt, hescape, matches_char]
  simp only [CharSet.has_except]

theorem Pieces.exists_cons (h : Pieces (x :: w)) :
    ∃ u v, w = u ++ v ∧ Matches inString (x :: u) ∧ Pieces v :=
  matches_star_cons.1 h

theorem not_inString_quote : ¬ Matches inString (some '"' :: u) := by
  rw [matches_inString]
  rintro (⟨c, -, h⟩ | ⟨c, hc, h⟩)
  · simp at h
  · obtain rfl : '"' = c := by simpa using (List.cons.inj h).1
    simp at hc

theorem inString_inj (hu : Matches inString (x :: u)) (hv : Matches inString (x :: v))
    (h : u ++ a = v ++ b) : u = v ∧ a = b := by
  have hlen : u.length = v.length := by
    obtain ⟨c, -, hc⟩ | ⟨c, hc, hcu⟩ := matches_inString.1 hu <;>
      obtain ⟨d, -, hd⟩ | ⟨d, hd, hdv⟩ := matches_inString.1 hv <;> grind
  exact List.append_inj h hlen

/-- Pieces that agree with pieces and a quote are a first part of them. -/
theorem Pieces.exists_rest (ha : Pieces a) (hb : Pieces b) (h : a ++ some '"' :: r = b ++ t) :
    ∃ c, a = b ++ c ∧ t = c ++ some '"' :: r := by
  induction hn : b.length using Nat.strongRecOn generalizing a b with
  | ind n ih =>
    cases b with
    | nil => exact ⟨a, rfl, by simpa using h.symm⟩
    | cons x b =>
      obtain ⟨u, b', rfl, hu, hb'⟩ := hb.exists_cons
      cases a with
      | nil =>
        -- No piece starts with a quote.
        obtain rfl : some '"' = x := (List.cons.inj h).1
        exact absurd hu not_inString_quote
      | cons y a =>
        obtain ⟨v, a', rfl, hv, ha'⟩ := ha.exists_cons
        simp only [List.cons_append, List.append_assoc, List.cons.injEq] at h
        obtain ⟨rfl, h⟩ := h
        obtain ⟨rfl, h'⟩ := inString_inj hv hu h
        obtain ⟨c, rfl, ht⟩ := ih b'.length (by simp at hn; omega) ha' hb' h' rfl
        exact ⟨c, by simp, ht⟩

/-! ## Whole literals -/

def IsString (w : List Letter) : Prop := ∃ a, Pieces a ∧ w = some '"' :: (a ++ [some '"'])

/-- What a row for strings matches behind the quote and the pieces: the closing quote, a
backslash with a letter, or the end of the line or of the source. -/
def IsStringEnd (t : List Letter) : Prop := (∃ x, t = [x]) ∨ ∃ x, t = [some '\\', x]

theorem matches_stringLit {p : Pattern} (hp : matcher .stringLit = .pattern p) :
    Matches p w ↔ IsString w := by
  cases hp
  simp only [matches_alt, chain, matches_seq, matches_quote, plus]
  constructor
  · rintro (⟨_, _, rfl, rfl, rfl⟩ | ⟨_, _, rfl, rfl, _, _, rfl, ⟨_, _, rfl, hu, hv⟩, rfl⟩)
    · exact ⟨[], .stop, rfl⟩
    · exact ⟨_, .more hu hv, by simp⟩
  · rintro ⟨a, ha, rfl⟩
    cases a with
    | nil => exact .inl ⟨[some '"'], [some '"'], rfl, rfl, rfl⟩
    | cons x a =>
      obtain ⟨u, v, rfl, hu, hv⟩ := ha.exists_cons
      exact .inr ⟨[some '"'], _, rfl, rfl, _, _, rfl, ⟨x :: u, v, rfl, hu, hv⟩, rfl⟩

/-- The three rows for strings. -/
theorem exists_end_of_matches {k : TokenKind} {p : Pattern}
    (hk : k ∈ [.stringLit, .illegalEscape, .unclosedString]) (hp : k.matcher = .pattern p)
    (h : Matches p w) : ∃ a t, Pieces a ∧ IsStringEnd t ∧ w = some '"' :: (a ++ t) := by
  simp only [List.mem_cons, List.not_mem_nil, or_false] at hk
  obtain rfl | rfl | rfl := hk
  · obtain ⟨a, ha, rfl⟩ := (matches_stringLit hp).1 h
    exact ⟨a, _, ha, .inl ⟨_, rfl⟩, rfl⟩
  · cases hp
    simp only [chain, matches_seq, matches_quote, matches_backslash, matches_char] at h
    obtain ⟨_, _, rfl, rfl, a, _, rfl, ha, _, _, rfl, rfl, c, -, rfl⟩ := h
    exact ⟨a, _, ha, .inr ⟨_, rfl⟩, rfl⟩
  · cases hp
    simp only [chain, matches_seq, matches_quote, matches_alt, matches_char, matches_atEnd] at h
    obtain ⟨_, _, rfl, rfl, a, _, rfl, ha, ⟨c, -, rfl⟩ | rfl⟩ := h
    · exact ⟨a, _, ha, .inl ⟨_, rfl⟩, rfl⟩
    · exact ⟨a, _, ha, .inl ⟨_, rfl⟩, rfl⟩

/-- No row for strings matches more letters than a string literal has. -/
theorem IsString.eq_nil_of_matches (hw : IsString w) {k : TokenKind} {p : Pattern}
    (hk : k ∈ [.stringLit, .illegalEscape, .unclosedString]) (hp : k.matcher = .pattern p)
    (h : Matches p (w ++ r)) : r = [] := by
  obtain ⟨a, ha, rfl⟩ := hw
  obtain ⟨b, t, hb, ht, heq⟩ := exists_end_of_matches hk hp h
  have heq : a ++ some '"' :: r = b ++ t := by simpa using heq
  obtain ⟨c, -, rfl⟩ := ha.exists_rest hb heq
  -- What is behind the pieces is at most two letters, and a quote is not the first of two.
  obtain ⟨x, hx⟩ | ⟨x, hx⟩ := ht
  · simp_all [List.append_eq_singleton_iff]
  · cases c with
    | nil => simp at hx
    | cons y c => simp_all [List.append_eq_singleton_iff]

end MiniGoc.TokenKind
