import Mathlib.Data.List.Induction
import MiniGoc.Proofs.Matching

/-!
# Tokens tile their source

A source without lexical error is cut into pieces, each with the token it yields, if it
yields one (`Tile`).  `Tile.Fits` says all there is to say about a piece between the text read
before it and the text behind it.  The piece matches a row of the table, no row matches more, and
no earlier row as much.  A token stands at the place where its piece starts.  What
yields no token is a blank, a comment or a line break, and a line break yields a semicolon exactly
behind a token that ends a line (`Tile.lineEnds`).

`Lexeme.fits` is the step, one lexeme and its token, and `Lexeme.exists_tiles` the run over a
source.
-/

namespace MiniGoc

/-! ## Places -/

/-- The place behind the first part of a source.  Lines end with a line feed. -/
def Place.behind (read : List Char) : Place :=
  ⟨1 + read.count '\n', (read.reverse.takeWhile (· ≠ '\n')).length⟩

theorem Place.behind_append (read w : List Char) :
    Place.behind (read ++ w) = (Place.behind read).after w := by
  induction w using List.reverseRecOn with
  | nil => simp [Place.after]
  | append_singleton w c ih =>
    have h : (Place.behind read).after (w ++ [c]) = ((Place.behind read).after w).next c := by
      simp [Place.after]
    rw [← List.append_assoc, h, ← ih]
    by_cases hc : c = '\n' <;> simp [Place.behind, Place.next, hc, Nat.add_assoc]

/-! ## Classes of texts -/

/-- The texts of a kind of token, comment or blank. -/
def TokenKind.Spells (k : TokenKind) (w : List Char) : Prop :=
  match k.matcher with
  | .pattern p => p.Matches (w.map some)
  | .comment => Comment.Spells w

/-- A regular kind has no match of `n` or more letters at the start of a text. -/
def TokenKind.Below (k : TokenKind) (cs : List Char) (n : Nat) : Prop :=
  ∀ p, k.matcher = .pattern p → ∀ u, u <+: Pattern.letters cs → p.Matches u → u.length < n

def IsBreak (w : List Char) : Prop := w = ['\n'] ∨ w = ['\r', '\n']

/-- A blank before the rest of a source.  A carriage return before a line feed belongs to a
line break. -/
def IsBlank (w rest : List Char) : Prop :=
  w = [' '] ∨ w = ['\t'] ∨ w = ['\x0c'] ∨ w = ['\r'] ∧ rest.head? ≠ some '\n'

def IsLineComment (w : List Char) : Prop :=
  ∃ v, w = '/' :: '/' :: v ∧ ∀ c ∈ v, c ≠ '\n' ∧ c ≠ '\r'

/-! ## Tiles -/

/-- A piece of a source with the row of the table it matched and the token it yields. -/
structure Tile where
  row : TokenKind
  text : List Char
  /-- Its token, if it yields one. -/
  token : Option (Token TokenKind)

namespace Tile

/-- The kinds of the tokens behind which a line break is a semicolon. -/
def lineEnds : List TokenKind :=
  [.ident, .intLit, .floatLit, .boolLit, .stringLit, .nilLit,
   .kwInt, .kwFloat, .kwBoolean, .kwString, .kwReturn, .kwContinue, .kwBreak,
   .closeParen, .closeBracket, .closeBrace]

/-- A piece that is right at its place: `read` is the text before it, `last` the kind of
the last token before it, and `rest` the text behind it. -/
structure Fits (x : Tile) (read : List Char) (last : Option TokenKind) (rest : List Char) :
    Prop where
  nonempty : x.text ≠ []
  spelled : x.row.Spells x.text
  chosen : ∃ before after, TokenKind.all = before ++ x.row :: after ∧
    (∀ k ∈ before, k.Below (x.text ++ rest) x.text.length) ∧
    ∀ k ∈ x.row :: after, k.Below (x.text ++ rest) (x.text.length + 1)
  placed : ∀ t ∈ x.token, t.place = Place.behind read
  written : ∀ t ∈ x.token, ¬ IsBreak x.text → t.kind = x.row ∧ t.text = String.ofList x.text
  skipped : x.token = none →
    IsBlank x.text rest ∨ IsLineComment x.text ∨ Comment.Spells x.text ∨ IsBreak x.text
  inserted : IsBreak x.text → x.token =
    if ∃ k ∈ last, k ∈ lineEnds then some ⟨.semicolon, ";", Place.behind read⟩ else none

/-- The text of several pieces. -/
def texts (xs : List Tile) : List Char := xs.flatMap Tile.text

/-- The tokens of several pieces. -/
def tokens (xs : List Tile) : TokenList := xs.filterMap Tile.token

/-- The kind of the last token of several pieces, behind a token of kind `prev`. -/
def lastKind (prev : Option TokenKind) (xs : List Tile) : Option TokenKind :=
  ((tokens xs).getLast?.map Token.kind).or prev

theorem lastKind_cons {prev : Option TokenKind} {x : Tile} {xs : List Tile} :
    lastKind prev (x :: xs) = lastKind ((x.token.map Token.kind).or prev) xs := by
  unfold lastKind tokens
  cases ht : x.token with
  | none => simp [ht]
  | some t =>
    rw [List.filterMap_cons, ht, List.getLast?_cons]
    cases (xs.filterMap Tile.token).getLast? <;> rfl

/-- Pieces that are right, one after the other. -/
def Covers (read : List Char) (prev : Option TokenKind) (xs : List Tile) : Prop :=
  ∀ before (x : Tile) after, xs = before ++ x :: after →
    x.Fits (read ++ texts before) (lastKind prev before) (texts after)

theorem Covers.nil {read : List Char} {prev : Option TokenKind} : Covers read prev [] :=
  fun before x after h => by simp at h

theorem Covers.cons {read : List Char} {prev : Option TokenKind} {x : Tile} {xs : List Tile}
    (hx : x.Fits read prev (texts xs))
    (hxs : Covers (read ++ x.text) ((x.token.map Token.kind).or prev) xs) :
    Covers read prev (x :: xs) := by
  rintro (_ | ⟨y, before⟩) z after h
  · obtain ⟨rfl, rfl⟩ := List.cons.inj h
    simpa [texts, lastKind, tokens] using hx
  · obtain ⟨rfl, rfl⟩ := List.cons.inj h
    have := hxs before z after rfl
    rw [← lastKind_cons] at this
    simpa [texts] using this

end Tile

/-! ## Rows -/

/-- Whether a row has only nonempty matches and does not ask for the end of the source. -/
def Matcher.plain : Matcher → Bool
  | .pattern p => p.endFree && !p.nullable
  | .comment => true

/-- Whether no match of a row starts with the character. -/
def Matcher.shuns (c : Char) : Matcher → Bool
  | .pattern p => (p.deriv (some c)).isNever
  | .comment => c != '/'

namespace TokenKind

/-- The rows that stand for errors. -/
def errors : List TokenKind := [.illegalEscape, .unclosedString, .errorChar]

theorem plain_matcher : ∀ k ∈ all, k ∉ errors → k.matcher.plain = true := by decide

theorem shuns_matcher : ∀ k ∈ all, k ∉ errors → k ≠ .newline → k ≠ .blank →
    k.matcher.shuns '\n' = true ∧ k.matcher.shuns '\r' = true := by decide

variable {k : TokenKind} {w cs : List Char} {n : Nat}

theorem Spells.head_ne {c : Char} (h : k.Spells (c :: w)) : k.matcher.shuns c = false := by
  unfold Spells at h
  split at h
  case h_1 p hm =>
    rw [hm, Bool.eq_false_iff]
    intro hs
    have := Pattern.matches_deriv.2 h
    rw [Pattern.eq_never_of_isNever hs] at this
    exact Pattern.matches_never this
  case h_2 hm =>
    obtain ⟨v, -, heq⟩ := h
    obtain ⟨rfl, -⟩ := List.cons.inj heq
    rw [hm]
    rfl

theorem spells_newline : Spells .newline w ↔ IsBreak w := by
  have h : Spells .newline w ↔ w.map some = ['\r', '\n'].map some ∨ w.map some = ['\n'].map some :=
    Pattern.matches_alt.trans (or_congr Pattern.matches_word Pattern.matches_word)
  have hinj (v : List Char) : w.map some = v.map some ↔ w = v :=
    List.map_inj_right fun _ _ => Option.some.inj
  rw [h, hinj, hinj]
  exact or_comm

theorem spells_blank : Spells .blank w ↔ ∃ c ∈ [' ', '\t', '\x0c', '\r'], w = [c] := by
  have h : Spells .blank w ↔
      ∃ c, (CharSet.of [' ', '\t', '\x0c', '\r']).has c = true ∧ w.map some = [some c] :=
    Pattern.matches_char
  simp only [h, CharSet.has_of]
  cases w <;> simp

theorem spells_lineComment (h : Spells .lineComment w) : IsLineComment w := by
  obtain ⟨_, u, heq, rfl, hu⟩ : ∃ t u, w.map some = t ++ u ∧ t = ['/', '/'].map some ∧
      Pattern.Matches (.star (.char (.except ['\r', '\n']))) u := by
    obtain ⟨t, u, heq, ht, hu⟩ := Pattern.matches_seq.1 h
    exact ⟨t, u, heq, Pattern.matches_word.1 ht, hu⟩
  obtain ⟨s, v, rfl, hs, rfl⟩ := List.map_eq_append_iff.1 heq
  obtain rfl := (List.map_inj_right (fun _ _ => Option.some.inj)).1 hs
  refine ⟨v, rfl, fun c hc => ?_⟩
  obtain ⟨d, hd, heq⟩ := Pattern.matches_star_char.1 hu (some c) (List.mem_map_of_mem hc)
  obtain rfl := Option.some.inj heq
  have := CharSet.has_except.1 hd
  simpa [and_comm] using this

/-- A carriage return that matches as a blank stands alone. -/
theorem isBlank_of_spells {rest : List Char} (h : Spells .blank w)
    (hn : Below .newline (w ++ rest) (w.length + 1)) : IsBlank w rest := by
  obtain ⟨c, hc, rfl⟩ := spells_blank.1 h
  simp only [List.mem_cons, List.not_mem_nil, or_false] at hc
  obtain rfl | rfl | rfl | rfl := hc
  · exact .inl rfl
  · exact .inr (.inl rfl)
  · exact .inr (.inr (.inl rfl))
  refine .inr (.inr (.inr ⟨rfl, fun hr => ?_⟩))
  obtain ⟨rest, rfl⟩ : ∃ r, rest = '\n' :: r := by
    cases rest <;> simp_all
  -- Otherwise the line break would be the longer match.
  have hm : Spells .newline ['\r', '\n'] := spells_newline.2 (.inr rfl)
  have := hn _ rfl _ (Pattern.map_some_prefix_letters.2 ⟨rest, rfl⟩) hm
  simp at this

/-- Only one row that is no error matches line breaks. -/
theorem Spells.eq_newline (h : k.Spells w) (hk : k ∈ all) (he : k ∉ errors) (hw : IsBreak w) :
    k = .newline := by
  by_contra hne
  have hb : k ≠ .blank := by
    rintro rfl
    obtain ⟨c, hc, rfl⟩ := spells_blank.1 h
    obtain hw | hw := hw
    · obtain rfl : c = '\n' := by simpa using hw
      exact absurd hc (by decide)
    · simp at hw
  obtain ⟨hn, hr⟩ := shuns_matcher k hk he hne hb
  obtain rfl | rfl := hw
  · simp [h.head_ne] at hn
  · simp [h.head_ne] at hr

theorem below_of_longest (h : ∀ l, k.matcher.longest cs = some l → l < n) : k.Below cs n := by
  intro p hp u hu hm
  obtain ⟨l, hl⟩ := Pattern.exists_longest hu hm
  obtain ⟨v, hv, rfl⟩ := Pattern.longest_spec hl
  rw [hp] at h
  exact Nat.lt_of_le_of_lt (hv.bound u hu hm) (h _ hl)

/-- The match of a row that is no error is a text. -/
theorem spells_of_longest (hp : k.matcher.plain = true) (h : k.matcher.longest cs = some n) :
    0 < n ∧ n ≤ cs.length ∧ k.Spells (cs.take n) := by
  unfold Spells
  split
  case h_1 p hm =>
    rw [hm] at hp h
    obtain ⟨he, hn⟩ : p.endFree = true ∧ p.nullable = false := by simpa [Matcher.plain] using hp
    obtain ⟨u, hu, rfl⟩ := Pattern.longest_spec h
    obtain ⟨w, rfl⟩ := hu.matched.exists_text he
    have hw := Pattern.map_some_prefix_letters.1 hu.isPrefix
    refine ⟨?_, by simpa using hw.length_le, ?_⟩
    · cases w with
      | nil => simpa [hn] using Pattern.matches_nil.1 hu.matched
      | cons => simp
    · rw [List.length_map, ← List.prefix_iff_eq_take.1 hw]
      exact hu.matched
  case h_2 hm =>
    rw [hm] at h
    obtain ⟨hl, hs⟩ := Comment.length?_spec h
    refine ⟨Nat.pos_of_ne_zero ?_, hl, hs⟩
    rintro rfl
    obtain ⟨v, -, heq⟩ := hs
    simp at heq

end TokenKind

/-! ## From lexemes to tiles -/

namespace Lexeme

open TokenKind (errors)

variable {prev : Option TokenKind} {cs : List Char} {k : TokenKind} {n : Nat}

theorem kind_not_mem_errors {l : Lexeme TokenKind} {o : Option (Token TokenKind)}
    (h : l.token prev = .ok o) : l.kind ∉ errors := by
  intro hk
  simp only [errors, List.mem_cons, List.not_mem_nil, or_false] at hk
  obtain hk | hk | hk := hk <;> simp [token, hk] at h

section

variable {l : Lexeme TokenKind} {prev : Option TokenKind} {t : Token TokenKind}

theorem token_newline (h : l.kind = .newline) : l.token prev =
    .ok (if prev.any TokenKind.endsLine then some ⟨.semicolon, ";", l.place⟩ else none) := by
  simp only [token, h]
  split <;> rfl

theorem token_eq (h : l.token prev = .ok (some t)) (hn : l.kind ≠ .newline) :
    t = ⟨l.kind, String.ofList l.text, l.place⟩ := by
  unfold token at h
  split at h <;> simp_all

theorem token_place (h : l.token prev = .ok (some t)) : t.place = l.place := by
  by_cases hn : l.kind = .newline
  · rw [token_newline hn, Except.ok.injEq, Option.ite_none_right_eq_some, Option.some.injEq] at h
    simp [← h.2]
  · rw [token_eq h hn]

theorem kind_of_token_none (h : l.token prev = .ok none) :
    l.kind ∈ [.lineComment, .blockComment, .blank, .newline] := by
  unfold token at h
  split at h <;> simp_all

end

theorem any_endsLine : prev.any TokenKind.endsLine = true ↔ ∃ k ∈ prev, k ∈ Tile.lineEnds := by
  have h : ∀ k, TokenKind.endsLine k = true ↔ k ∈ Tile.lineEnds := by
    intro k
    cases k <;> decide
  cases prev <;> simp [h]

/-- The row of a lexeme that is no error, among the others. -/
theorem chosen (hb : best cs TokenKind.rules = some (k, n)) :
    k.matcher.longest cs = some n ∧
    ∃ before after, TokenKind.all = before ++ k :: after ∧
      (∀ k' ∈ before, k'.Below cs n) ∧ ∀ k' ∈ k :: after, k'.Below cs (n + 1) := by
  obtain ⟨before, m, after, hr, hm, hlt, hle⟩ := best_spec hb
  obtain ⟨before, t, hall, rfl, ht⟩ := List.map_eq_append_iff.1 hr
  obtain ⟨k', after, rfl, hk, rfl⟩ := List.map_eq_cons_iff.1 ht
  obtain ⟨rfl, rfl⟩ := Prod.mk.inj hk
  refine ⟨hm, before, after, hall, fun k hk => ?_, fun k hk => ?_⟩
  · exact TokenKind.below_of_longest (hlt _ (List.mem_map_of_mem hk))
  · obtain rfl | hk := List.mem_cons.1 hk
    · exact TokenKind.below_of_longest fun l hl => by simp_all
    · exact TokenKind.below_of_longest fun l hl =>
        Nat.lt_succ_of_le (hle _ (List.mem_map_of_mem hk) l hl)

theorem best_spells (hb : best cs TokenKind.rules = some (k, n)) (herr : k ∉ errors) :
    0 < n ∧ n ≤ cs.length ∧ k.Spells (cs.take n) := by
  obtain ⟨hm, before, after, hall, -⟩ := chosen hb
  exact TokenKind.spells_of_longest (TokenKind.plain_matcher k (by simp [hall]) herr) hm

theorem below_succ {before after : List TokenKind} {k' : TokenKind}
    (hall : TokenKind.all = before ++ k :: after) (hlt : ∀ k' ∈ before, k'.Below cs n)
    (hle : ∀ k' ∈ k :: after, k'.Below cs (n + 1)) (hk : k' ∈ TokenKind.all) :
    k'.Below cs (n + 1) := by
  rw [hall] at hk
  obtain hk | hk := List.mem_append.1 hk
  · exact fun p hp u hu hm => Nat.lt_succ_of_lt (hlt k' hk p hp u hu hm)
  · exact hle k' hk

/-- The step: a lexeme and its token are right at their place. -/
theorem fits {read : List Char} {o : Option (Token TokenKind)}
    (hb : best cs TokenKind.rules = some (k, n))
    (ho : token prev ⟨k, cs.take n, Place.behind read⟩ = .ok o) :
    Tile.Fits ⟨k, cs.take n, o⟩ read prev (cs.drop n) := by
  obtain ⟨-, before, after, hall, hlt, hle⟩ := chosen hb
  have hk : k ∈ TokenKind.all := by simp [hall]
  have herr : k ∉ errors := kind_not_mem_errors ho
  obtain ⟨hpos, hlen, hs⟩ := best_spells hb herr
  have hn : (cs.take n).length = n := by simp [hlen]
  have hne : cs.take n ≠ [] := List.ne_nil_of_length_pos (by omega)
  refine ⟨hne, hs, ⟨before, after, hall, ?_, ?_⟩, ?_, ?_, ?_, ?_⟩
  · simpa only [List.take_append_drop, hn] using hlt
  · simpa only [List.take_append_drop, hn] using hle
  · rintro t rfl
    exact token_place ho
  · rintro t rfl hw
    have hn : k ≠ .newline := fun h => hw (TokenKind.spells_newline.1 (h ▸ hs))
    simp [token_eq ho hn]
  · rintro rfl
    have hk := kind_of_token_none ho
    simp only [List.mem_cons, List.not_mem_nil, or_false] at hk
    obtain rfl | rfl | rfl | rfl := hk
    · exact .inr (.inl (TokenKind.spells_lineComment hs))
    · exact .inr (.inr (.inl hs))
    · refine .inl (TokenKind.isBlank_of_spells hs ?_)
      rw [List.take_append_drop, hn]
      exact below_succ hall hlt hle (by decide)
    · exact .inr (.inr (.inr (TokenKind.spells_newline.1 hs)))
  · intro hw
    obtain rfl := hs.eq_newline hk herr hw
    rw [token_newline rfl] at ho
    obtain rfl := Except.ok.inj ho
    simp only [any_endsLine]

theorem tokens_cons {stop : Place} {l : Lexeme TokenKind} {ls : List (Lexeme TokenKind)}
    (h : (tokens stop prev (l :: ls)).error = none) :
    ∃ o, l.token prev = .ok o ∧
      (tokens stop ((o.map Token.kind).or prev) ls).error = none ∧
      (tokens stop prev (l :: ls)).tokens =
        o.toList ++ (tokens stop ((o.map Token.kind).or prev) ls).tokens := by
  rw [tokens] at h ⊢
  split at h
  case h_1 => cases h
  case h_2 ho => exact ⟨none, ho, by simpa using h, by simp⟩
  case h_3 t ho => exact ⟨some t, ho, by simpa using h, by simp⟩

/-- The run: a source without lexical error is covered by pieces that are right. -/
theorem exists_tiles {stop : Place} {read : List Char}
    (h : (tokens stop prev (cut .errorChar TokenKind.rules (Place.behind read) cs)).error = none) :
    ∃ xs, cs = Tile.texts xs ∧ Tile.Covers read prev xs ∧
      (tokens stop prev (cut .errorChar TokenKind.rules (Place.behind read) cs)).tokens =
        Tile.tokens xs ++ [⟨.eof, "<EOF>", stop⟩] := by
  generalize hp : Place.behind read = place at h ⊢
  fun_induction cut .errorChar TokenKind.rules place cs generalizing read prev with
  | case1 place => exact ⟨[], rfl, .nil, rfl⟩
  | case2 place c cs kind n hkn text =>
    rename_i ih
    subst hp
    obtain ⟨o, ho, herror, htokens⟩ := tokens_cons h
    have herr := kind_not_mem_errors ho
    have hb : best (c :: cs) TokenKind.rules = some (kind, n) := by
      cases hb : best (c :: cs) TokenKind.rules with
      | some kn => simpa [hb] using hkn
      | none =>
        obtain ⟨rfl, rfl⟩ : .errorChar = kind ∧ 1 = n := by simpa [hb] using hkn
        exact absurd (show TokenKind.errorChar ∈ errors by decide) herr
    obtain ⟨n, rfl⟩ := Nat.exists_eq_add_of_lt (best_spells hb herr).1
    obtain ⟨xs, hxs, hcovers, hrest⟩ := ih (Place.behind_append read text) herror
    have hx : Tile.Fits ⟨kind, text, o⟩ read prev (Tile.texts xs) := hxs ▸ fits hb ho
    refine ⟨⟨kind, text, o⟩ :: xs, ?_, .cons hx hcovers, ?_⟩
    · have hcs : c :: cs = text ++ cs.drop (0 + n + 1 - 1) := by simp [text]
      rw [hcs, hxs]
      simp [Tile.texts]
    · rw [htokens, hrest]
      cases o <;> simp [Tile.tokens]

end Lexeme

/-- The pieces of a source with its tokens.  The tokens are those of the pieces and the end of the
source, and each piece is right between the text before it and the text behind it. -/
structure Tile.Tiles (xs : List Tile) (cs : List Char) (ts : TokenList) : Prop where
  text : cs = texts xs
  tokens : ts = Tile.tokens xs ++ [⟨.eof, "<EOF>", Place.behind cs⟩]
  fits : ∀ before (x : Tile) after, xs = before ++ x :: after →
    x.Fits (texts before) ((Tile.tokens before).getLast?.map Token.kind) (texts after)

namespace Tokens

theorem ofSource_eq (source : String) :
    ofSource source = Lexeme.tokens (Place.behind source.toList) none
      (Lexeme.cut .errorChar TokenKind.rules (Place.behind []) source.toList) := by
  rw [← List.nil_append source.toList, Place.behind_append]
  rfl

/-- A source without lexical error is tiled by pieces that are right at their places. -/
theorem source_tiled (source : String) (h : (ofSource source).error = none) :
    ∃ xs, Tile.Tiles xs source.toList (ofSource source).tokens := by
  rw [ofSource_eq] at h ⊢
  obtain ⟨xs, hxs, hcovers, htokens⟩ := Lexeme.exists_tiles h
  refine ⟨xs, hxs, htokens, fun before x after hx => ?_⟩
  simpa [Tile.lastKind] using hcovers before x after hx

/-- A comment behind a token, a line break after it, and an empty line. -/
theorem source_tiled_comment :
    (ofSource "x /* y */\r\n\n\tif").error = none ∧
      (ofSource "x /* y */\r\n\n\tif").tokens.map Token.kind = [.ident, .semicolon, .kwIf, .eof] ∧
      ∃ xs, Tile.Tiles xs "x /* y */\r\n\n\tif".toList (ofSource "x /* y */\r\n\n\tif").tokens :=
  have h : (ofSource "x /* y */\r\n\n\tif").error = none := by decide +kernel
  ⟨h, by decide +kernel, source_tiled _ h⟩

end Tokens

/-! ## The end of the source -/

theorem Lexeme.kind_mem_all {place : Place} {cs : List Char} :
    ∀ l ∈ Lexeme.cut .errorChar TokenKind.rules place cs, l.kind ∈ TokenKind.all := by
  fun_induction Lexeme.cut .errorChar TokenKind.rules place cs with
  | case1 => simp
  | case2 place c cs kind n hkn text =>
    rename_i ih
    refine List.forall_mem_cons.2 ⟨?_, ih⟩
    cases hb : Lexeme.best (c :: cs) TokenKind.rules with
    | none =>
      obtain ⟨rfl, rfl⟩ : .errorChar = kind ∧ 1 = n := by simpa [hb] using hkn
      exact show TokenKind.errorChar ∈ TokenKind.all by decide
    | some kn =>
      obtain rfl : kn = (kind, n) := by simpa [hb] using hkn
      obtain ⟨-, before, after, hall, -⟩ := Lexeme.chosen hb
      simp [hall]

theorem Lexeme.kind_ne_eof {l : Lexeme TokenKind} {prev : Option TokenKind} {t : Token TokenKind}
    (hl : l.kind ∈ TokenKind.all) (h : l.token prev = .ok (some t)) : t.kind ≠ .eof := by
  by_cases hn : l.kind = .newline
  · rw [token_newline hn, Except.ok.injEq, Option.ite_none_right_eq_some, Option.some.injEq] at h
    simp [← h.2]
  · rw [token_eq h hn]
    intro heq
    rw [show l.kind = .eof from heq] at hl
    exact absurd hl (by decide)

/-- The end of the source is the last token, and there is none before an error. -/
theorem Lexeme.exists_body {stop : Place} {prev : Option TokenKind} {ls : List (Lexeme TokenKind)}
    (hls : ∀ l ∈ ls, l.kind ∈ TokenKind.all) :
    ∃ body : TokenList, (∀ t ∈ body, t.kind ≠ .eof) ∧ (tokens stop prev ls).tokens =
      body ++ if (tokens stop prev ls).error = none then [⟨.eof, "<EOF>", stop⟩] else [] := by
  induction ls generalizing prev with
  | nil => exact ⟨[], by simp, rfl⟩
  | cons l ls ih =>
    obtain ⟨hl, hls⟩ := List.forall_mem_cons.1 hls
    rw [tokens]
    split
    case h_1 => exact ⟨[], by simp, rfl⟩
    case h_2 => exact ih hls
    case h_3 t ht =>
      obtain ⟨body, hbody, heq⟩ := @ih (some t.kind) hls
      refine ⟨t :: body, List.forall_mem_cons.2 ⟨kind_ne_eof hl ht, hbody⟩, ?_⟩
      simp only [heq, List.cons_append]

theorem Tokens.exists_body (source : String) :
    ∃ body : TokenList, (∀ t ∈ body, t.kind ≠ .eof) ∧ (ofSource source).tokens =
      body ++ if (ofSource source).error = none
        then [⟨.eof, "<EOF>", Place.behind source.toList⟩] else [] := by
  rw [ofSource_eq]
  exact Lexeme.exists_body Lexeme.kind_mem_all

end MiniGoc
