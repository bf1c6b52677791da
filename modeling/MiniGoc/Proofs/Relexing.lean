import MiniGoc.Proofs.Quoted

/-!
# Tokens with blanks between them

The texts of the tokens of a source, with single blanks between them, are a source with the same
tokens.  A blank or the end behind a token ends every match: only comments and strings go over a
blank, no token starts like a comment (`TokenKind.shunsPair_matcher`), and a string literal is
over at its quote (`IsString.eq_nil_of_matches`).  So no row matches more than the text of the
token (`TokenKind.length_le_of_matches`), and the first row that matches it is still the first.

`Lexeme.best_token` is the step, the choice at one token, and `Lexeme.tokens_spaced` the run.
-/

namespace MiniGoc

/-! ## Letters that a pattern does not have -/

namespace Pattern

variable {p : Pattern} {x : Letter} {w : List Letter}

/-- Whether no match of the pattern has the letter. -/
def lacks (x : Letter) : Pattern → Bool
  | never => true
  | empty => true
  | char s =>
    match x with
    | some c => !s.has c
    | none => true
  | atEnd => x.isSome
  | seq p q => p.lacks x && q.lacks x
  | alt p q => p.lacks x && q.lacks x
  | star p => p.lacks x

theorem Matches.not_mem (h : Matches p w) (hp : p.lacks x = true) : x ∉ w := by
  induction h with
  | empty => simp
  | char hc =>
    cases x with
    | none => simp
    | some d =>
      rintro hd
      obtain rfl : d = _ := by simpa using hd
      simp [lacks, hc] at hp
  | atEnd =>
    cases x with
    | none => cases hp
    | some d => simp
  | seq _ _ ihu ihv => simp_all [lacks]
  | left _ ih => simp_all [lacks]
  | right _ ih => simp_all [lacks]
  | stop => simp
  | more _ _ ihu ihv => simp_all [lacks]

theorem longest_char {s : CharSet} {cs : List Char} {l : Nat}
    (h : (Pattern.char s).longest cs = some l) : l = 1 := by
  obtain ⟨u, hu, rfl⟩ := longest_spec h
  obtain ⟨c, -, rfl⟩ := matches_char.1 hu.matched
  rfl

theorem letters_append (w cs : List Char) : letters (w ++ cs) = w.map some ++ letters cs := by
  simp [letters]

end Pattern

namespace Matcher

/-- Whether a row is regular and no match of it has the letter. -/
def lacks (x : Letter) : Matcher → Bool
  | .pattern p => p.lacks x
  | .comment => false

/-- Whether no match of a row starts with the two characters. -/
def shunsPair (c d : Char) : Matcher → Bool
  | .pattern p => ((p.deriv (some c)).deriv (some d)).isNever
  | .comment => c != '/' || d != '*'

theorem longest_of_shuns {m : Matcher} {c : Char} {cs : List Char} {l : Nat}
    (hm : m.shuns c = true) (h : m.longest (c :: cs) = some l) : l = 0 := by
  cases m with
  | comment =>
    have hc : c ≠ '/' := by simpa [shuns] using hm
    simp [longest, Comment.length?, hc] at h
  | pattern p =>
    obtain ⟨u, hu, rfl⟩ := Pattern.longest_spec h
    obtain rfl | ⟨v, rfl, -⟩ := List.prefix_cons_iff.1 hu.isPrefix
    · rfl
    · have := Pattern.matches_deriv.2 hu.matched
      rw [Pattern.eq_never_of_isNever hm] at this
      exact absurd this Pattern.matches_never

end Matcher

/-! ## The rows of the table -/

namespace TokenKind

open Pattern

/-- The rows whose pieces are no tokens. -/
def silent : List TokenKind := [.lineComment, .blockComment, .newline, .blank]

/-- A row whose pieces are tokens. -/
structure IsVisible (k : TokenKind) : Prop where
  row : k ∈ all
  fine : k ∉ errors
  shown : k ∉ silent

/-- The rows that match a blank or the end of the source. -/
def spanning : List TokenKind :=
  [.lineComment, .blockComment, .blank, .stringLit, .illegalEscape, .unclosedString, .errorChar]

theorem lacks_matcher : ∀ k ∈ all, k ∉ spanning →
    k.matcher.lacks (some ' ') = true ∧ k.matcher.lacks none = true := by
  decide

theorem shunsPair_matcher : ∀ k ∈ all, k ∉ errors → k ∉ silent →
    k.matcher.shunsPair '/' '/' = true ∧ k.matcher.shunsPair '/' '*' = true := by
  decide

theorem shuns_quote : ∀ k ∈ all, k ∉ errors → k ≠ .stringLit → k.matcher.shuns '"' = true := by
  decide

variable {k k' : TokenKind} {p : Pattern} {w rest : List Char} {u : List Letter}

theorem Spells.pair_ne {c d : Char} (h : k.Spells (c :: d :: w)) :
    k.matcher.shunsPair c d = false := by
  unfold Spells at h
  split at h
  case h_1 p hm =>
    rw [hm, Bool.eq_false_iff]
    intro hs
    have := matches_deriv.2 (matches_deriv.2 h)
    rw [eq_never_of_isNever hs] at this
    exact matches_never this
  case h_2 hm =>
    obtain ⟨v, -, heq⟩ := h
    simp only [List.cons_append, List.cons.injEq] at heq
    obtain ⟨rfl, rfl, -⟩ := heq
    rw [hm]
    rfl

/-- A blank, or the end of the source, comes next. -/
def Pauses (rest : List Char) : Prop := rest = [] ∨ ∃ cs, rest = ' ' :: cs

/-- A match that is longer than the text before a pause has a blank or the end next to the text. -/
theorem exists_of_length_lt (hr : Pauses rest) (hu : u <+: letters (w ++ rest))
    (hlt : w.length < u.length) : ∃ x v, (x = some ' ' ∨ x = none) ∧ u = w.map some ++ x :: v := by
  obtain ⟨x, cs, hx, hrest⟩ : ∃ x cs, (x = some ' ' ∨ x = none) ∧ letters rest = x :: cs := by
    obtain rfl | ⟨cs, rfl⟩ := hr
    · exact ⟨none, [], .inr rfl, rfl⟩
    · exact ⟨some ' ', letters cs, .inl rfl, rfl⟩
  rw [letters_append, hrest] at hu
  obtain ⟨t, ht⟩ := hu
  obtain ⟨a, ha, -⟩ | ⟨a, rfl, ha⟩ := List.append_eq_append_iff.1 ht
  · have := congrArg List.length ha
    simp at this
    omega
  · cases a with
    | nil => simp at hlt
    | cons y v =>
      obtain ⟨rfl, -⟩ := List.cons.inj ha
      exact ⟨x, v, hx, rfl⟩

/-- The first two letters of a match over a pause, if they are characters other than a blank,
are those of the text. -/
theorem exists_pair {x : Letter} {v t : List Letter} {c d : Char} (hx : x = some ' ' ∨ x = none)
    (hd : d ≠ ' ') (hw : w ≠ []) (h : w.map some ++ x :: v = some c :: some d :: t) :
    ∃ w', w = c :: d :: w' := by
  match w, hw with
  | [a], _ => obtain rfl | rfl := hx <;> grind
  | a :: b :: w, _ =>
    simp only [List.map_cons, List.cons_append, List.cons.injEq, Option.some.injEq] at h
    exact ⟨w, by rw [h.1, h.2.1]⟩

/-- No row matches more than the text of a token before a pause. -/
theorem length_le_of_matches (hk : k.IsVisible) (hw : k.Spells w) (hne : w ≠ [])
    (hr : Pauses rest) (hk' : k' ∈ all) (hp : k'.matcher = .pattern p)
    (hu : u <+: letters (w ++ rest)) (hm : Matches p u) : u.length ≤ w.length := by
  by_contra hlt
  obtain ⟨x, v, hx, rfl⟩ := exists_of_length_lt hr hu (by omega)
  obtain ⟨c, w', rfl⟩ := List.exists_cons_of_ne_nil hne
  by_cases hspan : k' ∈ spanning
  case neg =>
    obtain ⟨hblank, hend⟩ := lacks_matcher k' hk' hspan
    rw [hp] at hblank hend
    obtain rfl | rfl := hx
    · exact hm.not_mem hblank (by simp)
    · exact hm.not_mem hend (by simp)
  simp only [spanning, List.mem_cons, List.not_mem_nil, or_false] at hspan
  have hstring (hk' : k' ∈ [.stringLit, .illegalEscape, .unclosedString]) : False := by
    obtain ⟨a, t, -, -, heq⟩ := exists_end_of_matches hk' hp hm
    obtain rfl : c = '"' := by simpa using (List.cons.inj heq).1
    obtain rfl : k = .stringLit := by
      by_contra hne
      simpa [hw.head_ne] using shuns_quote k hk.row hk.fine hne
    have hw : IsString (('"' :: w').map some) := (matches_stringLit rfl).1 hw
    simpa using hw.eq_nil_of_matches hk' hp hm
  obtain rfl | rfl | rfl | hspan | hspan | hspan | rfl := hspan
  · -- A line comment.
    cases hp
    obtain ⟨_, t, heq, rfl, -⟩ : ∃ s t, (c :: w').map some ++ x :: v = s ++ t ∧
        s = ['/', '/'].map some ∧ _ := by
      obtain ⟨s, t, heq, hs, ht⟩ := matches_seq.1 hm
      exact ⟨s, t, heq, matches_word.1 hs, ht⟩
    obtain ⟨w, hpair⟩ := exists_pair hx (by decide) hne heq
    rw [hpair] at hw
    simpa [hw.pair_ne] using (shunsPair_matcher k hk.row hk.fine hk.shown).1
  · cases hp
  · cases hp
    simp at hm
  · exact hstring (by simp [hspan])
  · exact hstring (by simp [hspan])
  · exact hstring (by simp [hspan])
  · cases hp
    simp at hm

theorem length?_eq_none (hk : k.IsVisible) (hw : k.Spells w) (hne : w ≠ []) (hr : Pauses rest) :
    Comment.length? (w ++ rest) = none := by
  unfold Comment.length?
  split
  case h_2 => rfl
  case h_1 cs heq =>
    exfalso
    obtain ⟨w', rfl⟩ : ∃ w', w = '/' :: '*' :: w' := by
      match w, hne with
      | [a], _ => obtain rfl | ⟨t, rfl⟩ := hr <;> simp_all
      | a :: b :: w, _ =>
        simp only [List.cons_append, List.cons.injEq] at heq
        exact ⟨w, by rw [heq.1, heq.2.1]⟩
    simpa [hw.pair_ne] using (shunsPair_matcher k hk.row hk.fine hk.shown).2

theorem longest_le (hk : k.IsVisible) (hw : k.Spells w) (hne : w ≠ []) (hr : Pauses rest)
    (hk' : k' ∈ all) {l : Nat} (hl : k'.matcher.longest (w ++ rest) = some l) :
    l ≤ w.length ∧ (l = w.length → k'.Spells w) := by
  cases hm : k'.matcher with
  | comment =>
    rw [hm, Matcher.longest, length?_eq_none hk hw hne hr] at hl
    cases hl
  | pattern p =>
    rw [hm] at hl
    obtain ⟨u, hu, rfl⟩ := longest_spec hl
    refine ⟨length_le_of_matches hk hw hne hr hk' hm hu.isPrefix hu.matched, fun hlen => ?_⟩
    have hprefix : w.map some <+: letters (w ++ rest) := by simp [letters_append]
    obtain rfl : u = w.map some :=
      (List.prefix_of_prefix_length_le hu.isPrefix hprefix (by simp [hlen])).eq_of_length
        (by simp [hlen])
    unfold Spells
    rw [hm]
    exact hu.matched

theorem exists_longest (hk : k.IsVisible) (hw : k.Spells w) (rest : List Char) :
    ∃ l, k.matcher.longest (w ++ rest) = some l ∧ w.length ≤ l := by
  cases hm : k.matcher with
  | comment =>
    obtain ⟨v, -, rfl⟩ : Comment.Spells w := by simpa [Spells, hm] using hw
    simpa [hw.pair_ne] using (shunsPair_matcher k hk.row hk.fine hk.shown).2
  | pattern p =>
    have hprefix : w.map some <+: letters (w ++ rest) := by simp [letters_append]
    have hw : Matches p (w.map some) := by simpa [Spells, hm] using hw
    obtain ⟨l, hl⟩ := Pattern.exists_longest hprefix hw
    obtain ⟨u, hu, rfl⟩ := longest_spec hl
    exact ⟨_, hl, by simpa using hu.bound _ hprefix hw⟩

end TokenKind

/-- A token as it can come from a source: no row before its own spells it. -/
structure Token.Stands (t : Token TokenKind) : Prop where
  visible : t.kind.IsVisible
  spelled : t.kind.Spells t.text.toList
  nonempty : t.text.toList ≠ []
  first : ∃ before after, TokenKind.all = before ++ t.kind :: after ∧
    ∀ k ∈ before, ¬ k.Spells t.text.toList

/-- What a token is and how it is written. -/
def Token.shown (t : Token TokenKind) : TokenKind × String := (t.kind, t.text)

/-! ## The choice -/

namespace Lexeme

open TokenKind

variable {κ : Type}

/-- The row that matches most, the first one of several, is chosen. -/
theorem best_eq {cs : List Char} {before after : List (κ × Matcher)} {k : κ} {m : Matcher} {n : Nat}
    (hm : m.longest cs = some n) (hlt : ∀ r ∈ before, ∀ l, r.2.longest cs = some l → l < n)
    (hle : ∀ r ∈ after, ∀ l, r.2.longest cs = some l → l ≤ n) :
    best cs (before ++ (k, m) :: after) = some (k, n) := by
  induction before with
  | nil =>
    simp only [List.nil_append, best, hm]
    cases hb : best cs after with
    | none => rfl
    | some kn =>
      obtain ⟨_, m', _, rfl, hm', -⟩ := best_spec hb
      simp [hle (kn.1, m') (by simp) _ hm']
  | cons row before ih =>
    simp only [List.cons_append, best]
    rw [ih fun r hr => hlt r (by simp [hr])]
    cases hl : row.2.longest cs with
    | none => rfl
    | some l =>
      have := hlt row (by simp) l hl
      simp [show ¬ n ≤ l by omega]

/-- The step: a token is chosen again before a pause. -/
theorem best_token {t : Token TokenKind} {rest : List Char} (ht : t.Stands) (hr : Pauses rest) :
    best (t.text.toList ++ rest) rules = some (t.kind, t.text.toList.length) := by
  obtain ⟨hk, hw, hne, before, after, hall, hfirst⟩ := ht
  obtain ⟨l, hl, hge⟩ := exists_longest hk hw rest
  obtain rfl : l = _ := Nat.le_antisymm (longest_le hk hw hne hr hk.row hl).1 hge
  rw [rules, hall, List.map_append, List.map_cons]
  refine best_eq hl ?_ ?_
  · intro r hr' l hl
    obtain ⟨k', hk', rfl⟩ := List.mem_map.1 hr'
    obtain ⟨hle, heq⟩ := longest_le hk hw hne hr (by simp [hall, hk']) hl
    exact Nat.lt_of_le_of_ne hle fun h => hfirst k' hk' (heq h)
  · intro r hr' l hl
    obtain ⟨k', hk', rfl⟩ := List.mem_map.1 hr'
    exact (longest_le hk hw hne hr (by simp [hall, hk']) hl).1

theorem best_blank (rest : List Char) : best (' ' :: rest) rules = some (.blank, 1) := by
  have hall : TokenKind.all = TokenKind.all.takeWhile (· ≠ .blank) ++
      ([.blank, .ident, .illegalEscape, .unclosedString, .errorChar] : List TokenKind) := by decide
  have hbefore : ∀ k ∈ TokenKind.all.takeWhile (· ≠ .blank), k.matcher.shuns ' ' = true := by
    decide
  have hafter : ∀ k ∈ [TokenKind.ident, .illegalEscape, .unclosedString, .errorChar],
      k.matcher.shuns ' ' = true ∨ k = .errorChar := by decide
  have hblank : Pattern.Matches (.char (.of [' ', '\t', '\x0c', '\r'])) [some ' '] :=
    .char (by decide)
  have hprefix : [some ' '] <+: Pattern.letters (' ' :: rest) := by simp [Pattern.letters]
  obtain ⟨l, hl⟩ := Pattern.exists_longest hprefix hblank
  obtain rfl := Pattern.longest_char hl
  rw [rules, hall, List.map_append, List.map_cons]
  refine best_eq hl ?_ ?_
  · intro r hr l hl
    obtain ⟨k, hk, rfl⟩ := List.mem_map.1 hr
    simp [Matcher.longest_of_shuns (hbefore k hk) hl]
  · intro r hr l hl
    obtain ⟨k, hk, rfl⟩ := List.mem_map.1 hr
    obtain hs | rfl := hafter k hk
    · simp [Matcher.longest_of_shuns hs hl]
    · exact Nat.le_of_eq (Pattern.longest_char hl)

/-! ## The run -/

theorem cut_append {k : TokenKind} {w rest : List Char} {place : Place} (hne : w ≠ [])
    (hb : best (w ++ rest) rules = some (k, w.length)) :
    cut .errorChar rules place (w ++ rest) =
      ⟨k, w, place⟩ :: cut .errorChar rules (place.after w) rest := by
  obtain ⟨c, w, rfl⟩ := List.exists_cons_of_ne_nil hne
  rw [List.cons_append] at hb ⊢
  rw [cut, hb]
  simp

theorem token_visible {l : Lexeme TokenKind} {prev : Option TokenKind} (hk : l.kind.IsVisible) :
    l.token prev = .ok (some ⟨l.kind, String.ofList l.text, l.place⟩) := by
  have hfine := hk.fine
  have hshown := hk.shown
  unfold token
  split <;> simp_all [errors, silent]

section

variable {stop place : Place} {prev : Option TokenKind}

theorem tokens_cut_token {t : Token TokenKind} {rest : List Char} (ht : t.Stands)
    (hrest : Pauses rest) :
    tokens stop prev (cut .errorChar rules place (t.text.toList ++ rest)) =
      let r := tokens stop (some t.kind) (cut .errorChar rules (place.after t.text.toList) rest)
      ⟨⟨t.kind, t.text, place⟩ :: r.tokens, r.error⟩ := by
  rw [cut_append ht.nonempty (best_token ht hrest), tokens, token_visible ht.visible]
  simp

theorem tokens_cut_blank {rest : List Char} :
    tokens stop prev (cut .errorChar rules place (' ' :: rest)) =
      tokens stop prev (cut .errorChar rules (place.next ' ') rest) := by
  have hcut : cut .errorChar rules place ([' '] ++ rest) = ⟨.blank, [' '], place⟩ ::
      cut .errorChar rules (place.next ' ') rest :=
    cut_append (List.cons_ne_nil _ _) (best_blank rest)
  have hsilent : token prev ⟨.blank, [' '], place⟩ = .ok none := rfl
  rw [List.singleton_append] at hcut
  simp only [hcut, tokens, hsilent]

/-- The run: tokens with blanks between them are read as they are. -/
theorem tokens_spaced {ts : TokenList} (hts : ∀ t ∈ ts, t.Stands) :
    (tokens stop prev (cut .errorChar rules place
      ([' '].intercalate (ts.map (·.text.toList))))).error = none ∧
    (tokens stop prev (cut .errorChar rules place
      ([' '].intercalate (ts.map (·.text.toList))))).tokens.map Token.shown =
      ts.map Token.shown ++ [(TokenKind.eof, "<EOF>")] := by
  induction ts generalizing place prev with
  | nil => simp [cut, tokens, Token.shown]
  | cons t ts ih =>
    obtain ⟨ht, hts⟩ := List.forall_mem_cons.1 hts
    cases ts with
    | nil =>
      have := @tokens_cut_token stop place prev t [] ht (.inl rfl)
      simp_all [cut, tokens, Token.shown]
    | cons t' ts =>
      have hrest (cs : List Char) : Pauses (' ' :: cs) := .inr ⟨cs, rfl⟩
      simp only [List.map_cons, List.intercalate_cons_cons, List.append_assoc, List.cons_append,
        List.nil_append] at ih ⊢
      rw [tokens_cut_token ht (hrest _), tokens_cut_blank]
      obtain ⟨herror, htokens⟩ := @ih (place.after t.text.toList |>.next ' ') (some t.kind) hts
      exact ⟨herror, by simp [htokens, Token.shown]⟩

end

/-! ## The tokens of a source -/

theorem mem_tokens {stop : Place} {prev : Option TokenKind} {ls : List (Lexeme TokenKind)}
    {t : Token TokenKind} (ht : t ∈ (tokens stop prev ls).tokens) :
    t.kind = .eof ∨ ∃ l ∈ ls, ∃ prev, l.token prev = .ok (some t) := by
  induction ls generalizing prev with
  | nil =>
    obtain rfl : t = ⟨.eof, "<EOF>", stop⟩ := by simpa [tokens] using ht
    exact .inl rfl
  | cons l ls ih =>
    have hmore {prev : Option TokenKind} (h : t ∈ (tokens stop prev ls).tokens) :
        t.kind = .eof ∨ ∃ l' ∈ l :: ls, ∃ prev, l'.token prev = .ok (some t) := by
      obtain h | ⟨l', hl', h⟩ := ih h
      · exact .inl h
      · exact .inr ⟨l', by simp [hl'], h⟩
    rw [tokens] at ht
    split at ht
    case h_1 => simp at ht
    case h_2 => exact hmore ht
    case h_3 t' htoken =>
      obtain rfl | ht := List.mem_cons.1 ht
      · exact .inr ⟨l, by simp, prev, htoken⟩
      · exact hmore ht

theorem stands_semicolon (place : Place) : Token.Stands ⟨.semicolon, ";", place⟩ := by
  have htext : (";" : String).toList = [';'] := by decide
  have hvisible : TokenKind.semicolon.IsVisible := ⟨by decide, by decide, by decide⟩
  have hall : TokenKind.all = TokenKind.all.takeWhile (· ≠ .semicolon) ++
      .semicolon :: (TokenKind.all.dropWhile (· ≠ .semicolon)).tail := by decide
  have hshuns : ∀ k ∈ TokenKind.all.takeWhile (· ≠ .semicolon), k.matcher.shuns ';' = true := by
    decide
  refine ⟨hvisible, Pattern.matches_word.2 rfl, by simp [htext], _, _, hall, fun k hk hs => ?_⟩
  rw [htext] at hs
  simpa [hs.head_ne] using hshuns k hk

/-- The tokens of lexemes that are chosen by the table. -/
theorem stands_of_best {cs : List Char} {k : TokenKind} {n : Nat} {place : Place}
    {prev : Option TokenKind} {t : Token TokenKind} (hb : best cs rules = some (k, n))
    (ht : token prev ⟨k, cs.take n, place⟩ = .ok (some t)) : t.Stands := by
  obtain ⟨-, before, after, hall, hlt, -⟩ := chosen hb
  have herr : k ∉ errors := kind_not_mem_errors ht
  obtain ⟨hpos, hlen, hs⟩ := best_spells hb herr
  by_cases hn : k = .newline
  · rw [token_newline hn, Except.ok.injEq, Option.ite_none_right_eq_some, Option.some.injEq] at ht
    rw [← ht.2]
    exact stands_semicolon _
  have hsilent : k ∉ silent := by
    intro hk
    simp only [silent, List.mem_cons, List.not_mem_nil, or_false] at hk
    obtain rfl | rfl | rfl | rfl := hk
    · simp [token] at ht
    · simp [token] at ht
    · exact hn rfl
    · simp [token] at ht
  have hk : k.IsVisible := ⟨by simp [hall], herr, hsilent⟩
  obtain rfl := token_eq ht hn
  refine ⟨hk, by simpa using hs, ?_, before, after, hall, fun k' hk' hs' => ?_⟩
  · rw [String.toList_ofList]
    exact List.ne_nil_of_length_pos (by simp; omega)
  · simp only [String.toList_ofList] at hs'
    cases hm : k'.matcher with
    | comment =>
      obtain ⟨v, -, hv⟩ : Comment.Spells (cs.take n) := by simpa [TokenKind.Spells, hm] using hs'
      rw [hv] at hs
      simpa [hs.pair_ne] using (shunsPair_matcher k hk.row hk.fine hk.shown).2
    | pattern p =>
      have hmatch : p.Matches ((cs.take n).map some) := by
        simpa [TokenKind.Spells, hm] using hs'
      have := hlt k' hk' p hm _ (Pattern.map_some_prefix_letters.2 (List.take_prefix n cs)) hmatch
      simp at this
      omega

theorem stands_of_mem_cut {place : Place} {cs : List Char} :
    ∀ l ∈ cut .errorChar rules place cs, ∀ prev t, l.token prev = .ok (some t) → t.Stands := by
  fun_induction cut .errorChar rules place cs with
  | case1 => simp
  | case2 place c cs kind n hkn text =>
    rename_i ih
    refine List.forall_mem_cons.2 ⟨fun prev t ht => ?_, ih⟩
    have herr := kind_not_mem_errors ht
    cases hb : best (c :: cs) rules with
    | none =>
      obtain ⟨rfl, rfl⟩ : .errorChar = kind ∧ 1 = n := by simpa [hb] using hkn
      exact absurd (show TokenKind.errorChar ∈ errors by decide) herr
    | some kn =>
      obtain rfl : kn = (kind, n) := by simpa [hb] using hkn
      obtain ⟨n, rfl⟩ := Nat.exists_eq_add_of_lt (best_spells hb herr).1
      exact stands_of_best hb (by simpa [text] using ht)

end Lexeme

namespace Tokens

/-- The texts of tokens with single blanks between them, without the end of the source. -/
def spaced (ts : TokenList) : String :=
  " ".intercalate ((ts.filter (·.kind ≠ .eof)).map Token.text)

theorem stands_of_mem {source : String} {t : Token TokenKind} (ht : t ∈ (ofSource source).tokens)
    (heof : t.kind ≠ .eof) : t.Stands := by
  obtain h | ⟨l, hl, prev, htoken⟩ := Lexeme.mem_tokens ht
  · exact absurd h heof
  · exact Lexeme.stands_of_mem_cut l hl prev t htoken

/-- The tokens of a source without lexical error, written with blanks between them, are read
again. -/
theorem spaced_read_again (source : String) (h : (ofSource source).error = none) :
    (ofSource (spaced (ofSource source).tokens)).error = none ∧
      (ofSource (spaced (ofSource source).tokens)).tokens.map Token.shown =
        (ofSource source).tokens.map Token.shown := by
  obtain ⟨body, hbody, htokens⟩ := exists_body source
  rw [if_pos h] at htokens
  have hmem : ∀ t ∈ body, t ∈ (ofSource source).tokens := fun t ht => by simp [htokens, ht]
  have hstands : ∀ t ∈ body, t.Stands := fun t ht => stands_of_mem (hmem t ht) (hbody t ht)
  have hspaced : (spaced (ofSource source).tokens).toList =
      [' '].intercalate (body.map (·.text.toList)) := by
    have hfilter : (ofSource source).tokens.filter (·.kind ≠ .eof) = body := by
      rw [htokens, List.filter_append, List.filter_eq_self.2 (by simpa using hbody)]
      simp
    rw [spaced, hfilter, String.toList_intercalate, List.map_map]
    rfl
  have hrun := @Lexeme.tokens_spaced (Place.after {} (spaced (ofSource source).tokens).toList) {}
    none body hstands
  rw [← hspaced] at hrun
  obtain ⟨herror, hshown⟩ := hrun
  exact ⟨herror, hshown.trans (by simp [htokens, Token.shown])⟩

/-- A string with a blank and a quote, a comment, numbers that stand close, and an inserted
semicolon. -/
theorem spaced_read_again_close :
    (ofSource "\"a \\\"\"/**/08\n").error = none ∧
      spaced (ofSource "\"a \\\"\"/**/08\n").tokens = "\"a \\\"\" 0 8 ;" ∧
      (ofSource (spaced (ofSource "\"a \\\"\"/**/08\n").tokens)).error = none ∧
      (ofSource (spaced (ofSource "\"a \\\"\"/**/08\n").tokens)).tokens.map Token.shown =
        (ofSource "\"a \\\"\"/**/08\n").tokens.map Token.shown :=
  have h : (ofSource "\"a \\\"\"/**/08\n").error = none := by decide +kernel
  ⟨h, by decide +kernel, spaced_read_again _ h⟩

end Tokens

end MiniGoc
