import MiniGoc.Proofs.Quoted

/-!
# Errors in strings

At a quote three rows of the table compete, and the longest match decides.  A string is read piece
by piece as far as the pieces go (`exists_inString`).  What stands there then, a quote, the end of
the line or of the source, or a backslash with a wrong character, makes one of the three rows match
up to that point.  So the other two lose.

There is one exception.  A backslash that is the last character of the source starts no piece and
makes no row match.  The row for wrong escapes does not exclude the quote from what it takes for
wrong, so it then matches up to the last quote that was escaped (`ends_of_escaped_quote`), and the
error names an escape that is right.

`Lexeme.exists_reached` is the run up to an error: the source before it is tiled as it is in a
source without error.
-/

namespace MiniGoc

variable {prev : Option TokenKind} {l : Lexeme TokenKind} {e : LexError}

/-! ## The way to an error -/

/-- The pieces of the first part of a source, with the tokens they yield.  Each piece is right
between the text before it and the text behind it, which goes on with `rest`. -/
structure Tile.Reaches (xs : List Tile) (cs rest : List Char) (ts : TokenList) :
    Prop where
  text : cs = texts xs ++ rest
  tokens : ts = Tile.tokens xs
  fits : ∀ before (x : Tile) after, xs = before ++ x :: after →
    x.Fits (texts before) ((Tile.tokens before).getLast?.map Token.kind) (texts after ++ rest)

namespace Tile

/-- Pieces that are right, one after the other, up to a rest. -/
def LeadsTo (read : List Char) (prev : Option TokenKind) (xs : List Tile) (rest : List Char) :
    Prop :=
  ∀ before (x : Tile) after, xs = before ++ x :: after →
    x.Fits (read ++ texts before) (lastKind prev before) (texts after ++ rest)

theorem LeadsTo.nil {read rest : List Char} : LeadsTo read prev [] rest :=
  fun before x after h => by simp at h

theorem LeadsTo.cons {read rest : List Char} {prev : Option TokenKind} {x : Tile} {xs : List Tile}
    (hx : x.Fits read prev (texts xs ++ rest))
    (hxs : LeadsTo (read ++ x.text) ((x.token.map Token.kind).or prev) xs rest) :
    LeadsTo read prev (x :: xs) rest := by
  rintro (_ | ⟨y, before⟩) z after h
  · obtain ⟨rfl, rfl⟩ := List.cons.inj h
    simpa [texts, lastKind, tokens] using hx
  · obtain ⟨rfl, rfl⟩ := List.cons.inj h
    have := hxs before z after rfl
    rw [← lastKind_cons] at this
    simpa [texts] using this

end Tile

namespace Lexeme

theorem tokens_cons_error {stop : Place} {ls : List (Lexeme TokenKind)}
    (h : (tokens stop prev (l :: ls)).error = some e) :
    l.token prev = .error e ∧ (tokens stop prev (l :: ls)).tokens = [] ∨
    ∃ o, l.token prev = .ok o ∧
      (tokens stop ((o.map Token.kind).or prev) ls).error = some e ∧
      (tokens stop prev (l :: ls)).tokens =
        o.toList ++ (tokens stop ((o.map Token.kind).or prev) ls).tokens := by
  rw [tokens] at h ⊢
  split at h
  case h_1 ho => exact .inl ⟨by simpa using ho.trans (by simpa using h), by simp⟩
  case h_2 ho => exact .inr ⟨none, ho, by simpa using h, by simp⟩
  case h_3 t ho => exact .inr ⟨some t, ho, by simpa using h, by simp⟩

/-- Where the row is not the one that stands in for a missing match, it was chosen. -/
theorem best_of_getD {cs : List Char} {k : TokenKind} {n : Nat}
    (h : (best cs TokenKind.rules).getD (.errorChar, 1) = (k, n)) (hk : k ≠ .errorChar) :
    best cs TokenKind.rules = some (k, n) := by
  cases hb : best cs TokenKind.rules with
  | some kn => simpa [hb] using h
  | none =>
    obtain ⟨rfl, -⟩ : .errorChar = k ∧ 1 = n := by simpa [hb] using h
    exact absurd rfl hk

/-- The run up to an error: the pieces before it are right, and the error comes from the lexeme
at the start of the rest. -/
theorem exists_reached {stop : Place} {read cs : List Char}
    (h : (tokens stop prev (cut .errorChar TokenKind.rules (Place.behind read) cs)).error =
      some e) :
    ∃ xs c rest k n place last, cs = Tile.texts xs ++ c :: rest ∧
      Tile.LeadsTo read prev xs (c :: rest) ∧
      (tokens stop prev (cut .errorChar TokenKind.rules (Place.behind read) cs)).tokens =
        Tile.tokens xs ∧
      (best (c :: rest) TokenKind.rules).getD (.errorChar, 1) = (k, n) ∧
      token last ⟨k, c :: rest.take (n - 1), place⟩ = .error e := by
  generalize hp : Place.behind read = place at h ⊢
  fun_induction cut .errorChar TokenKind.rules place cs generalizing read prev with
  | case1 place => cases h
  | case2 place c cs kind n hkn text =>
    rename_i ih
    subst hp
    obtain ⟨ho, htokens⟩ | ⟨o, ho, herror, htokens⟩ := tokens_cons_error h
    · exact ⟨[], c, cs, kind, n, _, prev, rfl, .nil, htokens, hkn, ho⟩
    have herr := kind_not_mem_errors ho
    have hb := best_of_getD hkn <| by
      rintro rfl
      exact herr (show TokenKind.errorChar ∈ TokenKind.errors by decide)
    obtain ⟨n, rfl⟩ := Nat.exists_eq_add_of_lt (best_spells hb herr).1
    obtain ⟨xs, d, rest, k, m, place, last, hxs, hleads, hrest, hbest, he⟩ :=
      ih (Place.behind_append read text) herror
    have hx : Tile.Fits ⟨kind, text, o⟩ read prev (Tile.texts xs ++ d :: rest) := hxs ▸ fits hb ho
    refine ⟨⟨kind, text, o⟩ :: xs, d, rest, k, m, place, last, ?_, .cons hx hleads, ?_, hbest, he⟩
    · have hcs : c :: cs = text ++ cs.drop (0 + n + 1 - 1) := by simp [text]
      rw [hcs, hxs]
      simp [Tile.texts]
    · rw [htokens, hrest]
      cases o <;> simp [Tile.tokens]

end Lexeme

/-! ## Legal pieces -/

/-- What may stand in a string. -/
inductive InString : List Char → Prop where
  | nil : InString []
  | escape {c : Char} {w : List Char} : c ∈ ['n', 't', 'r', '"', '\\'] → InString w →
      InString ('\\' :: c :: w)
  | char {c : Char} {w : List Char} : c ∉ ['\n', '\r', '"', '\\'] → InString w → InString (c :: w)

namespace InString

open Pattern TokenKind

variable {a b r s w : List Char} {c : Char}

theorem append (ha : InString a) (hb : InString b) : InString (a ++ b) := by
  induction ha with
  | nil => exact hb
  | escape hc _ ih => exact .escape hc ih
  | char hc _ ih => exact .char hc ih

theorem not_mem (h : InString w) : '\n' ∉ w ∧ '\r' ∉ w := by
  induction h with
  | nil => simp
  | @escape c w hc _ ih =>
    have hne : c ≠ '\n' ∧ c ≠ '\r' := by
      constructor <;> rintro rfl <;> exact absurd hc (by decide)
    simp [ih, hne.1.symm, hne.2.symm]
  | @char c w hc _ ih =>
    simp only [List.mem_cons, List.not_mem_nil, or_false, not_or] at hc
    simp [ih, Ne.symm hc.1, Ne.symm hc.2.1]

/-- The pieces of the patterns are the legal ones. -/
theorem pieces_iff {w : List Letter} : Pieces w ↔ ∃ a, InString a ∧ w = a.map some := by
  constructor
  · intro h
    induction hn : w.length using Nat.strongRecOn generalizing w with
    | ind n ih =>
      cases w with
      | nil => exact ⟨[], .nil, rfl⟩
      | cons x w =>
        obtain ⟨u, v, rfl, hu, hv⟩ := h.exists_cons
        obtain ⟨a, ha, rfl⟩ := ih v.length (by simp at hn; omega) hv rfl
        obtain ⟨c, hc, heq⟩ | ⟨c, hc, heq⟩ := matches_inString.1 hu
        · obtain ⟨rfl, rfl⟩ := List.cons.inj heq
          exact ⟨_, .escape hc ha, rfl⟩
        · obtain ⟨rfl, rfl⟩ := List.cons.inj heq
          exact ⟨_, .char hc ha, rfl⟩
  · rintro ⟨a, ha, rfl⟩
    induction ha with
    | nil => exact .stop
    | escape hc _ ih => exact .more (matches_inString.2 (.inl ⟨_, hc, rfl⟩)) ih
    | char hc _ ih => exact .more (matches_inString.2 (.inr ⟨_, hc, rfl⟩)) ih

/-- Behind the pieces of a string: what ends the string, or a backslash that starts no piece. -/
inductive Ends : List Char → Prop where
  | quote {r : List Char} : Ends ('"' :: r)
  | line {c : Char} {r : List Char} : c ∈ ['\r', '\n'] → Ends (c :: r)
  | source : Ends []
  | wrong {c : Char} {r : List Char} : c ∉ ['n', 't', 'r', '"', '\\'] → Ends ('\\' :: c :: r)
  | lone : Ends ['\\']

/-- A text is read piece by piece as far as it goes. -/
theorem exists_inString (w : List Char) : ∃ a r, w = a ++ r ∧ InString a ∧ Ends r := by
  induction hn : w.length using Nat.strongRecOn generalizing w with
  | ind n ih =>
    have more {v : List Char} (hv : v.length < n) : ∃ a r, v = a ++ r ∧ InString a ∧ Ends r :=
      ih v.length hv v rfl
    match w, hn with
    | [], _ => exact ⟨[], [], rfl, .nil, .source⟩
    | c :: w, hn =>
      by_cases hbackslash : c = '\\'
      · subst hbackslash
        match w, hn with
        | [], _ => exact ⟨[], _, rfl, .nil, .lone⟩
        | c :: w, hn =>
          by_cases hc : c ∈ ['n', 't', 'r', '"', '\\']
          · obtain ⟨a, r, rfl, ha, hr⟩ := more (v := w) (by simp at hn; omega)
            exact ⟨_, r, rfl, .escape hc ha, hr⟩
          · exact ⟨[], _, rfl, .nil, .wrong hc⟩
      by_cases hline : c ∈ ['\r', '\n']
      · exact ⟨[], _, rfl, .nil, .line hline⟩
      by_cases hquote : c = '"'
      · exact ⟨[], _, rfl, .nil, hquote ▸ .quote⟩
      obtain ⟨a, r, rfl, ha, hr⟩ := more (v := w) (by simp at hn; omega)
      exact ⟨_, r, rfl, .char (by simp_all) ha, hr⟩

/-- In a string of legal pieces with a backslash behind them, every escape is right. -/
theorem mem_of_append_eq (ha : InString a) (hb : InString b)
    (h : a ++ '\\' :: c :: s = b ++ ['\\']) : c ∈ ['n', 't', 'r', '"', '\\'] := by
  induction ha generalizing b with
  | nil =>
    cases hb with
    | nil => simp at h
    | escape hc => simp_all
    | char hc =>
      obtain rfl := (List.cons.inj h).1
      simp at hc
  | escape _ _ ih =>
    cases hb with
    | nil => simp at h
    | escape _ hb => exact ih hb (List.cons.inj (List.cons.inj h).2).2
    | char hc =>
      obtain rfl := (List.cons.inj h).1
      simp at hc
  | char hc _ ih =>
    cases hb with
    | nil => simp_all
    | escape => simp_all
    | char _ hb => exact ih hb (List.cons.inj h).2

end InString

/-! ## The rows for strings -/

namespace TokenKind

open Pattern

variable {u : List Letter} {p : Pattern} {a : List Char} {c : Char}

theorem matches_illegalEscape (hp : matcher .illegalEscape = .pattern p) : Matches p u ↔
    ∃ a c, InString a ∧ c ∉ ['n', 't', 'r', '\\'] ∧ u = ('"' :: a ++ ['\\', c]).map some := by
  cases hp
  simp only [chain, matches_seq, matches_quote, matches_backslash, matches_char,
    InString.pieces_iff, CharSet.has_except]
  constructor
  · rintro ⟨_, _, rfl, rfl, _, _, rfl, ⟨a, ha, rfl⟩, _, _, rfl, rfl, c, hc, rfl⟩
    exact ⟨a, c, ha, hc, by simp⟩
  · rintro ⟨a, c, ha, hc, rfl⟩
    exact ⟨[some '"'], _, rfl, rfl, a.map some, [some '\\', some c], by simp, ⟨a, ha, rfl⟩,
      [some '\\'], _, rfl, rfl, c, hc, rfl⟩

theorem matches_unclosedString (hp : matcher .unclosedString = .pattern p) : Matches p u ↔
    ∃ a x, InString a ∧ (x = none ∨ x = some '\r' ∨ x = some '\n') ∧
      u = ('"' :: a).map some ++ [x] := by
  cases hp
  simp only [chain, matches_seq, matches_quote, matches_alt, matches_char, matches_atEnd,
    InString.pieces_iff, CharSet.has_of, List.mem_cons, List.not_mem_nil, or_false]
  constructor
  · rintro ⟨_, _, rfl, rfl, _, _, rfl, ⟨a, ha, rfl⟩, ⟨c, hc, rfl⟩ | rfl⟩
    · exact ⟨a, some c, ha, by simpa using hc, by simp⟩
    · exact ⟨a, none, ha, by simp, by simp⟩
  · rintro ⟨a, x, ha, hx, rfl⟩
    refine ⟨[some '"'], _, rfl, rfl, a.map some, [x], by simp, ⟨a, ha, rfl⟩, ?_⟩
    obtain rfl | hx := hx
    · exact .inr rfl
    · obtain ⟨c, hc, rfl⟩ : ∃ c, (c = '\r' ∨ c = '\n') ∧ x = some c := by
        obtain rfl | rfl := hx <;> simp
      exact .inl ⟨c, hc, rfl⟩

end TokenKind

theorem Pattern.eq_of_prefix_letters {w cs : List Char}
    (h : w.map some ++ [none] <+: letters cs) : cs = w := by
  induction w generalizing cs with
  | nil =>
    cases cs with
    | nil => rfl
    | cons c cs => simp [letters] at h
  | cons c w ih =>
    cases cs with
    | nil => simp [letters] at h
    | cons d cs =>
      have hl : letters (d :: cs) = some d :: letters cs := rfl
      rw [hl, List.map_cons, List.cons_append, List.cons_prefix_cons] at h
      rw [Option.some.inj h.1, ih h.2]

namespace Lexeme

open Pattern TokenKind

variable {a cs w : List Char} {n : Nat}

theorem withoutBreak_break {c : Char} (hc : c = '\r' ∨ c = '\n') : withoutBreak (w ++ [c]) = w := by
  obtain rfl | rfl := hc <;> simp [withoutBreak]

theorem withoutBreak_inString (ha : InString a) : withoutBreak ('"' :: a) = '"' :: a := by
  obtain ⟨hn, hr⟩ := ha.not_mem
  unfold withoutBreak
  split
  case h_1 h => exact absurd (List.mem_of_getLast? h) (by simpa using hr)
  case h_2 h => exact absurd (List.mem_of_getLast? h) (by simpa using hn)
  case h_3 => rfl

/-- A string that is not closed ends with its line or with the source. -/
theorem unclosed_spec (hb : best cs rules = some (.unclosedString, n)) :
    ∃ a rest, InString a ∧ cs = '"' :: a ++ rest ∧ (∀ c ∈ rest.head?, c ∈ ['\r', '\n']) ∧
      0 < n ∧ withoutBreak (cs.take n) = '"' :: a := by
  obtain ⟨hm, -⟩ := chosen hb
  obtain ⟨u, hu, rfl⟩ := longest_spec hm
  obtain ⟨a, x, ha, hx, rfl⟩ := (matches_unclosedString rfl).1 hu.matched
  cases x with
  | none =>
    obtain rfl := eq_of_prefix_letters hu.isPrefix
    refine ⟨a, [], ha, by simp, by simp, by simp, ?_⟩
    rw [List.take_of_length_le (by simp), withoutBreak_inString ha]
  | some c =>
    have hc : c = '\r' ∨ c = '\n' := by simpa using hx
    obtain ⟨rest, rfl⟩ : '"' :: a ++ [c] <+: cs :=
      map_some_prefix_letters.1 (by simpa using hu.isPrefix)
    refine ⟨a, c :: rest, ha, by simp, by simpa using hc, by simp, ?_⟩
    rw [List.take_left' (by simp), withoutBreak_break hc]

theorem length_le_of_best {k : TokenKind} (hb : best cs rules = some (k, n)) (k' : TokenKind)
    {p : Pattern} {u : List Letter} (hp : k'.matcher = .pattern p) (hm : Matches p u)
    (hk' : k' ∈ all) (hu : u <+: letters cs) : u.length ≤ n := by
  obtain ⟨-, before, after, hall, hlt, hle⟩ := chosen hb
  exact Nat.le_of_lt_succ (below_succ hall hlt hle hk' p hp u hu hm)

/-- Where the wrong escape is one of a quote, the pieces of the string go on to a backslash at
the end of the source. -/
theorem ends_of_escaped_quote {rest : List Char} (ha : InString a)
    (hb : best ('"' :: a ++ ['\\', '"'] ++ rest) rules = some (.illegalEscape, a.length + 3)) :
    ∃ b, InString b ∧ '"' :: a ++ ['\\', '"'] ++ rest = '"' :: b ++ ['\\'] := by
  obtain ⟨b, r, rfl, hb', hr⟩ := InString.exists_inString rest
  have hall : InString (a ++ '\\' :: '"' :: b) := ha.append (.escape (by decide) hb')
  have hcs : '"' :: a ++ ['\\', '"'] ++ (b ++ r) = '"' :: (a ++ '\\' :: '"' :: b) ++ r := by simp
  rw [hcs] at hb ⊢
  generalize hn : a ++ '\\' :: '"' :: b = d at *
  have hlen : d.length = a.length + b.length + 2 := by simp [← hn]; omega
  -- Each other end of the pieces would give a longer match.
  cases hr with
  | lone => exact ⟨d, hall, rfl⟩
  | @quote r =>
    have hm : Matches _ (('"' :: d ++ ['"']).map some) :=
      (matches_stringLit rfl).2 ⟨_, InString.pieces_iff.2 ⟨d, hall, rfl⟩, by simp⟩
    have hle := length_le_of_best hb .stringLit rfl hm (by decide)
      (map_some_prefix_letters.2 ⟨r, by simp⟩)
    simp at hle
    omega
  | @line c r hc =>
    have hm : Matches _ (('"' :: d ++ [c]).map some) := (matches_unclosedString rfl).2
      ⟨d, some c, hall, by simpa using hc, by simp⟩
    have hle := length_le_of_best hb .unclosedString rfl hm (by decide)
      (map_some_prefix_letters.2 ⟨r, by simp⟩)
    simp at hle
    omega
  | source =>
    have hm : Matches _ (('"' :: d).map some ++ [none]) := (matches_unclosedString rfl).2
      ⟨d, none, hall, by simp, rfl⟩
    have hle := length_le_of_best hb .unclosedString rfl hm (by decide)
      (by simp [letters])
    simp at hle
    omega
  | @wrong c r hc =>
    have hm : Matches _ (('"' :: d ++ ['\\', c]).map some) := (matches_illegalEscape rfl).2
      ⟨d, c, hall, by simp_all, rfl⟩
    have hle := length_le_of_best hb .illegalEscape rfl hm (by decide)
      (map_some_prefix_letters.2 ⟨r, by simp⟩)
    simp at hle
    omega

/-- A wrong escape is one, unless it is one of a quote in a string with a lone backslash at the end
of the source. -/
theorem illegal_spec (hb : best cs rules = some (.illegalEscape, n)) :
    ∃ a c rest, InString a ∧ c ∉ ['n', 't', 'r', '\\'] ∧ cs = '"' :: a ++ ['\\', c] ++ rest ∧
      0 < n ∧ cs.take n = '"' :: a ++ ['\\', c] ∧
      (c = '"' ↔ ∃ b, InString b ∧ cs = '"' :: b ++ ['\\']) := by
  obtain ⟨hm, -⟩ := chosen hb
  obtain ⟨u, hu, rfl⟩ := longest_spec hm
  obtain ⟨a, c, ha, hc, rfl⟩ := (matches_illegalEscape rfl).1 hu.matched
  obtain ⟨rest, rfl⟩ := map_some_prefix_letters.1 hu.isPrefix
  refine ⟨a, c, rest, ha, hc, rfl, by simp, List.take_left' (by simp), ?_, ?_⟩
  · rintro rfl
    exact ends_of_escaped_quote ha (by simpa using hb)
  · rintro ⟨b, hb', heq⟩
    have heq : a ++ '\\' :: c :: rest = b ++ ['\\'] := by simpa using heq
    have := ha.mem_of_append_eq hb' heq
    simp_all

theorem token_eq_unclosed {x : String} (h : l.token prev = .error (.unclosedString x)) :
    l.kind = .unclosedString ∧ x = String.ofList (withoutBreak l.text) := by
  by_cases hn : l.kind = .newline
  · rw [token_newline hn] at h
    cases h
  · unfold token at h
    split at h <;> simp_all

theorem token_eq_illegal {x : String} (h : l.token prev = .error (.illegalEscape x)) :
    l.kind = .illegalEscape ∧ x = String.ofList l.text := by
  by_cases hn : l.kind = .newline
  · rw [token_newline hn] at h
    cases h
  · unfold token at h
    split at h <;> simp_all

end Lexeme

namespace Tokens

open Lexeme

/-- An error comes from the first lexeme of a rest to which the pieces before it lead.  The lexeme
was chosen from the table, unless no row matches. -/
theorem reaches_of_error {source : String} (h : (ofSource source).error = some e) :
    ∃ xs cs l last, Tile.Reaches xs source.toList cs (ofSource source).tokens ∧
      token last l = .error e ∧
      (l.kind ≠ .errorChar → ∃ n, best cs TokenKind.rules = some (l.kind, n) ∧
        (0 < n → l.text = cs.take n)) := by
  rw [ofSource_eq] at h ⊢
  obtain ⟨xs, c, rest, k, n, place, last, htext, hleads, htokens, hbest, he⟩ := exists_reached h
  refine ⟨xs, c :: rest, _, last, ⟨htext, htokens, fun before x after hx => ?_⟩, he,
    fun hk => ⟨n, best_of_getD hbest hk, fun hn => ?_⟩⟩
  · simpa [Tile.lastKind] using hleads before x after hx
  · obtain ⟨m, rfl⟩ : ∃ m, n = m + 1 := ⟨n - 1, by omega⟩
    rfl

/-- The errors in strings.  A string that is reported as not closed is a quote and legal pieces, and
its line or the source ends behind it.  A wrong escape is reported with the string up to it, and it
is wrong, but for an escaped quote.  That one is reported just if legal pieces go on from it to a
single backslash at the end of the source. -/
theorem string_errors_located (source x : String) :
    ((ofSource source).error = some (.unclosedString x) →
      ∃ xs a rest, x.toList = '"' :: a ∧ InString a ∧
        Tile.Reaches xs source.toList (x.toList ++ rest) (ofSource source).tokens ∧
        ∀ c ∈ rest.head?, c ∈ ['\r', '\n']) ∧
    ((ofSource source).error = some (.illegalEscape x) →
      ∃ xs a c rest, x.toList = '"' :: a ++ ['\\', c] ∧ InString a ∧
        c ∉ ['n', 't', 'r', '\\'] ∧
        Tile.Reaches xs source.toList (x.toList ++ rest) (ofSource source).tokens ∧
        (c = '"' ↔ ∃ b, InString b ∧ x.toList ++ rest = '"' :: b ++ ['\\'])) := by
  constructor
  · intro h
    obtain ⟨xs, cs, l, last, hreach, hl, hbest⟩ := reaches_of_error h
    obtain ⟨hk, rfl⟩ := token_eq_unclosed hl
    obtain ⟨n, hb, htext⟩ := hbest (by simp [hk])
    obtain ⟨a, rest, ha, hcs, hrest, hn, hx⟩ := unclosed_spec (hk ▸ hb)
    rw [String.toList_ofList, htext hn, hx]
    exact ⟨xs, a, rest, rfl, ha, hcs ▸ hreach, hrest⟩
  · intro h
    obtain ⟨xs, cs, l, last, hreach, hl, hbest⟩ := reaches_of_error h
    obtain ⟨hk, rfl⟩ := token_eq_illegal hl
    obtain ⟨n, hb, htext⟩ := hbest (by simp [hk])
    obtain ⟨a, c, rest, ha, hc, hcs, hn, hx, hquote⟩ := illegal_spec (hk ▸ hb)
    rw [String.toList_ofList, htext hn, hx]
    rw [hcs] at hreach hquote
    exact ⟨xs, a, c, rest, rfl, ha, hc, hreach, hquote⟩

theorem string_errors_located_quote :
    ((ofSource "x \"a\\n\ry").error = some (.unclosedString "\"a\\n") ∧
      ∃ xs a rest, "\"a\\n".toList = '"' :: a ∧ InString a ∧
        Tile.Reaches xs "x \"a\\n\ry".toList ("\"a\\n".toList ++ rest)
          (ofSource "x \"a\\n\ry").tokens ∧
        ∀ c ∈ rest.head?, c ∈ ['\r', '\n']) ∧
    ((ofSource "\"a\\\"b\\").error = some (.illegalEscape "\"a\\\"") ∧
      ∃ xs a c rest, "\"a\\\"".toList = '"' :: a ++ ['\\', c] ∧ InString a ∧
        c ∉ ['n', 't', 'r', '\\'] ∧
        Tile.Reaches xs "\"a\\\"b\\".toList ("\"a\\\"".toList ++ rest)
          (ofSource "\"a\\\"b\\").tokens ∧
        (c = '"' ↔ ∃ b, InString b ∧ "\"a\\\"".toList ++ rest = '"' :: b ++ ['\\'])) :=
  have hopen : (ofSource "x \"a\\n\ry").error = some (.unclosedString "\"a\\n") := by decide +kernel
  have hquote : (ofSource "\"a\\\"b\\").error = some (.illegalEscape "\"a\\\"") := by decide +kernel
  ⟨⟨hopen, (string_errors_located _ _).1 hopen⟩, ⟨hquote, (string_errors_located _ _).2 hquote⟩⟩

end Tokens

end MiniGoc
