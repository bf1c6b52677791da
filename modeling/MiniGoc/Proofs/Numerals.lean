import MiniGoc.Number.Numeral
import MiniGoc.Proofs.Tiling

/-!
# Tokens that are numbers

The readers of numerals know decimal numbers only, and the kinds of tokens know more: an integer
may be written in binary, octal or hexadecimal form.  So a reader has a result for every floating
point token, and for an integer token unless it is written in one of these forms
(`readInt?_eq_none_iff`).
-/

namespace MiniGoc

namespace Pattern

variable {s : CharSet} {u : List Letter}

theorem matches_stars : Matches (.star (.char s)) u ↔
    ∃ a : List Char, (∀ c ∈ a, s.has c = true) ∧ u = a.map some := by
  rw [matches_star_char]
  constructor
  · intro h
    induction u with
    | nil => exact ⟨[], by simp, rfl⟩
    | cons x u ih =>
      obtain ⟨⟨c, hc, rfl⟩, hu⟩ := List.forall_mem_cons.1 h
      obtain ⟨a, ha, rfl⟩ := ih hu
      exact ⟨c :: a, List.forall_mem_cons.2 ⟨hc, ha⟩, rfl⟩
  · rintro ⟨a, ha, rfl⟩ x hx
    obtain ⟨c, hc, rfl⟩ := List.mem_map.1 hx
    exact ⟨c, ha c hc, rfl⟩

theorem matches_pluses : Matches (plus (.char s)) u ↔
    ∃ (c : Char) (a : List Char), (∀ d ∈ c :: a, s.has d = true) ∧ u = (c :: a).map some := by
  rw [plus, matches_seq]
  constructor
  · rintro ⟨_, _, rfl, hu, hv⟩
    obtain ⟨c, hc, rfl⟩ := matches_char.1 hu
    obtain ⟨a, ha, rfl⟩ := matches_stars.1 hv
    exact ⟨c, a, List.forall_mem_cons.2 ⟨hc, ha⟩, rfl⟩
  · rintro ⟨c, a, h, rfl⟩
    obtain ⟨hc, ha⟩ := List.forall_mem_cons.1 h
    exact ⟨[some c], a.map some, rfl, .char hc, matches_stars.2 ⟨a, ha, rfl⟩⟩

end Pattern

/-! ## The forms of numbers -/

namespace TokenKind

open Pattern

variable {w : List Char}

/-- An integer in binary, octal or hexadecimal form. -/
def Based (w : List Char) : Prop := ∃ k ∈ [binaryInt, octalInt, hexInt], k.Spells w

theorem has_digit {c : Char} :
    (⟨[('0', '9')], false⟩ : CharSet).has c = true ↔ c.isDigit = true := by
  simp [CharSet.has, Char.isDigit, Char.le_def]

theorem spells_intLit : Spells .intLit w ↔ Spells .decimalInt w ∨ Based w := by
  have h : Spells .intLit w ↔ Spells .decimalInt w ∨ Spells .binaryInt w ∨ Spells .octalInt w ∨
      Spells .hexInt w := by
    simp [Spells, matcher, literal?, oneOf]
  simp [h, Based]

theorem digits_of_decimalInt (h : Spells .decimalInt w) : w ≠ [] ∧ ∀ c ∈ w, c.isDigit = true := by
  obtain h | ⟨u, v, huv, hu, hv⟩ :
      w.map some = "0".toList.map some ∨ ∃ u v, w.map some = u ++ v ∧
        Matches (range [('1', '9')]) u ∧ Matches (.star digit) v := by
    simpa only [Spells, matcher, literal?, decimalPattern, lit, matches_alt, matches_word,
      matches_seq] using h
  · obtain rfl := (List.map_inj_right fun _ _ => Option.some.inj).1 h
    simp
  · obtain ⟨c, hc, rfl⟩ := matches_char.1 hu
    obtain ⟨a, ha, rfl⟩ := matches_stars.1 hv
    obtain rfl : w = c :: a := (List.map_inj_right fun _ _ => Option.some.inj).1 huv
    have hdigit : c.isDigit = true := by
      simp [CharSet.has, Char.isDigit, Char.le_def, UInt32.le_iff_toNat_le] at hc ⊢
      omega
    exact ⟨by simp, List.forall_mem_cons.2 ⟨hdigit, fun d hd => has_digit.1 (ha d hd)⟩⟩

theorem exists_of_based (h : Based w) :
    ∃ d ds, w = '0' :: d :: ds ∧ d ∈ ['b', 'B', 'o', 'O', 'x', 'X'] ∧
      ∀ c ∈ ds, c.isAlphanum = true := by
  have form {x y : Char} {s : CharSet} (hs : ∀ c, s.has c = true → c.isAlphanum = true)
      (h : Matches (chain [lit "0", .char (.of [x, y]), plus (.char s)]) (w.map some)) :
      ∃ d ds, w = '0' :: d :: ds ∧ d ∈ [x, y] ∧ ∀ c ∈ ds, c.isAlphanum = true := by
    simp only [chain, lit, matches_seq, matches_word, matches_char, CharSet.has_of,
      matches_pluses] at h
    obtain ⟨_, _, huv, rfl, _, _, rfl, ⟨d, hd, rfl⟩, c, a, ha, rfl⟩ := h
    exact ⟨d, c :: a, (List.map_inj_right fun _ _ => Option.some.inj).1 huv, hd,
      fun e he => hs e (ha e he)⟩
  obtain ⟨k, hk, h⟩ := h
  simp only [List.mem_cons, List.not_mem_nil, or_false] at hk
  obtain rfl | rfl | rfl := hk
  · have hs : ∀ c, (CharSet.of ['0', '1']).has c = true → c.isAlphanum = true := by
      simp [CharSet.has_of]
    obtain ⟨d, ds, hw, hd, hds⟩ := form hs h
    exact ⟨d, ds, hw, by grind, hds⟩
  · have hs (c : Char) (hc : CharSet.has ⟨[('0', '7')], false⟩ c = true) :
        c.isAlphanum = true := by
      simp [CharSet.has, Char.isAlphanum, Char.isDigit, Char.le_def, UInt32.le_iff_toNat_le] at hc ⊢
      omega
    obtain ⟨d, ds, hw, hd, hds⟩ := form hs h
    exact ⟨d, ds, hw, by grind, hds⟩
  · have hs (c : Char) (hc : CharSet.has ⟨[('0', '9'), ('a', 'f'), ('A', 'F')], false⟩ c = true) :
        c.isAlphanum = true := by
      delta Char.isAlphanum Char.isAlpha Char.isUpper Char.isLower
      simp [CharSet.has, Char.isDigit, Char.le_def, UInt32.le_iff_toNat_le] at hc ⊢
      omega
    obtain ⟨d, ds, hw, hd, hds⟩ := form hs h
    exact ⟨d, ds, hw, by grind, hds⟩

/-- An exponent, which may have a sign. -/
inductive IsExponent : List Char → Prop where
  | none : IsExponent []
  | some {e : Char} {sign ds : List Char} : e ∈ ['e', 'E'] → sign ∈ [[], ['+'], ['-']] → ds ≠ [] →
      (∀ d ∈ ds, d.isDigit = true) → IsExponent (e :: (sign ++ ds))

theorem exists_of_floatLit (h : Spells .floatLit w) :
    ∃ ds es x, w = ds ++ '.' :: (es ++ x) ∧ ds ≠ [] ∧ (∀ d ∈ ds, d.isDigit = true) ∧
      (∀ d ∈ es, d.isDigit = true) ∧ IsExponent x := by
  have h : Matches (chain [plus digit, lit ".", opt (.star digit),
      opt (chain [.char (.of ['e', 'E']), opt (.char (.of ['+', '-'])), plus digit])])
      (w.map some) := h
  simp only [chain, lit, opt, digit, range, matches_seq, matches_alt, matches_word, matches_char,
    CharSet.has_of, matches_pluses, matches_stars, matches_empty] at h
  obtain ⟨_, _, hw, ⟨c, a, ha, rfl⟩, _, _, rfl, rfl, u, v, rfl, hes, hx⟩ := h
  obtain ⟨es, he, rfl⟩ : ∃ es : List Char, (∀ d ∈ es, d.isDigit = true) ∧ u = es.map some := by
    obtain ⟨es, he, rfl⟩ | rfl := hes
    · exact ⟨es, fun d hd => has_digit.1 (he d hd), rfl⟩
    · exact ⟨[], by simp, rfl⟩
  obtain ⟨x, hexp, rfl⟩ : ∃ x, IsExponent x ∧ v = x.map some := by
    obtain ⟨_, _, rfl, ⟨e, he, rfl⟩, _, _, rfl, ⟨s, hs, rfl⟩ | rfl, d, ds, hds, rfl⟩ | rfl := hx
    · exact ⟨e :: ([s] ++ d :: ds), .some he (by simpa using hs) (by simp)
        fun d hd => has_digit.1 (hds d hd), rfl⟩
    · exact ⟨e :: ([] ++ d :: ds), .some he (by simp) (by simp)
        fun d hd => has_digit.1 (hds d hd), rfl⟩
    · exact ⟨[], .none, rfl⟩
  refine ⟨c :: a, es, x, ?_, by simp, fun d hd => has_digit.1 (ha d hd), he, hexp⟩
  rw [← List.map_append, ← List.map_append, ← List.map_append] at hw
  exact (List.map_inj_right fun _ _ => Option.some.inj).1 hw

end TokenKind

/-! ## Reading -/

namespace Text

variable {c : Char}

theorem isBlank_of_bounds (h : 33 ≤ c.toNat ∧ c.toNat ≤ 126) : isBlank c = false := by
  simp [isBlank]
  omega

theorem bounds_of_isAlphanum (h : c.isAlphanum = true) : 33 ≤ c.toNat ∧ c.toNat ≤ 126 := by
  delta Char.isAlphanum Char.isAlpha Char.isUpper Char.isLower at h
  simp [Char.isDigit, UInt32.le_iff_toNat_le] at h
  omega

theorem trimBlank_eq {w : List Char} (h : ∀ c ∈ w, isBlank c = false) : trimBlank w = w := by
  have drop {u : List Char} (hu : ∀ c ∈ u, isBlank c = false) : u.dropWhile isBlank = u := by
    cases u with
    | nil => rfl
    | cons c u => exact List.dropWhile_cons_of_neg (by simp [hu c])
  rw [trimBlank, drop h, drop (by simpa using h), List.reverse_reverse]

theorem digitValue?_of_isDigit (h : c.isDigit = true) : ∃ d, digitValue? c = some d := by
  have hc : 48 ≤ c.toNat ∧ c.toNat < 58 := by
    simp [Char.isDigit, UInt32.le_iff_toNat_le] at h
    omega
  exact ⟨c.toNat - 48, by simp [digitValue?, digitZeros, hc]⟩

end Text

namespace Numeral

open Text TokenKind

/-- A text that goes on with no digit. -/
def Stops (w : List Char) : Prop := ∀ c ∈ w.head?, digitValue? c = none ∧ c ≠ '_'

/-- Digits are read up to the first character that is none. -/
theorem digits_append {ds w : List Char} (hds : ∀ d ∈ ds, d.isDigit = true) (hw : Stops w)
    (v n : Nat) : ∃ v', digits v n (ds ++ w) = ⟨v', n + ds.length, w⟩ := by
  induction ds generalizing v n with
  | nil =>
    cases w with
    | nil => exact ⟨v, rfl⟩
    | cons c w =>
      obtain ⟨hc, hne⟩ := hw c rfl
      refine ⟨v, ?_⟩
      rw [List.nil_append, digits.eq_def]
      simp [hc, hne]
  | cons c ds ih =>
    obtain ⟨hc, hds⟩ := List.forall_mem_cons.1 hds
    obtain ⟨d, hd⟩ := digitValue?_of_isDigit hc
    obtain ⟨v', hv'⟩ := ih hds (10 * v + d) (n + 1)
    refine ⟨v', ?_⟩
    rw [List.cons_append, digits.eq_def]
    simp only [hd, hv', List.length_cons]
    congr 1
    omega

theorem stops_nil : Stops [] := by simp [Stops]

variable {c : Char} {s : String} {w : List Char}

theorem sign_of_isDigit (h : c.isDigit = true) (w : List Char) :
    sign (c :: w) = (false, c :: w) := by
  unfold sign
  split
  next heq => cases heq; exact absurd h (by decide)
  next heq => cases heq; exact absurd h (by decide)
  next => rfl

theorem isBlank_of_isDigit (h : c.isDigit = true) : isBlank c = false :=
  isBlank_of_bounds (bounds_of_isAlphanum (by simp [Char.isAlphanum, h]))

theorem readInt?_of_digits (hne : s.toList ≠ []) (hs : ∀ c ∈ s.toList, c.isDigit = true) :
    ∃ i, readInt? s = some i := by
  obtain ⟨c, w, hw⟩ := List.exists_cons_of_ne_nil hne
  obtain ⟨v, hv⟩ := digits_append hs stops_nil 0 0
  rw [List.append_nil, hw] at hv
  rw [readInt?, trimBlank_eq fun c hc => isBlank_of_isDigit (hs c hc), hw,
    sign_of_isDigit (hs c (by simp [hw]))]
  simp [hv]

/-- What follows the zero is no digit. -/
theorem readInt?_of_based (h : Based s.toList) : readInt? s = none := by
  obtain ⟨d, ds, hs, hd, hds⟩ := exists_of_based h
  have hblank : ∀ c ∈ s.toList, isBlank c = false := by
    have hfirst : ∀ d ∈ ['b', 'B', 'o', 'O', 'x', 'X'], isBlank d = false := by simp [isBlank]
    simp only [hs, List.forall_mem_cons]
    exact ⟨by decide, hfirst d hd, fun c hc => isBlank_of_bounds (bounds_of_isAlphanum (hds c hc))⟩
  have hstop : ∀ d ∈ ['b', 'B', 'o', 'O', 'x', 'X'], digitValue? d = none ∧ d ≠ '_' := by
    simp only [List.mem_cons, List.not_mem_nil, or_false, forall_eq_or_imp, forall_eq]
    decide
  obtain ⟨v, hv⟩ := @digits_append ['0'] (d :: ds) (by simp)
    (by simpa [Stops] using hstop d hd) 0 0
  rw [readInt?, trimBlank_eq hblank, hs, sign_of_isDigit (by decide)]
  rw [List.singleton_append] at hv
  simp [hv]

/-- Of the integers that can be written, those that are not decimal cannot be read. -/
theorem readInt?_eq_none_iff (h : Spells .intLit s.toList) :
    readInt? s = none ↔ Based s.toList := by
  refine ⟨fun hnone => (spells_intLit.1 h).resolve_left fun hdec => ?_, readInt?_of_based⟩
  obtain ⟨hne, hs⟩ := digits_of_decimalInt hdec
  obtain ⟨i, hi⟩ := readInt?_of_digits hne hs
  simp [hi] at hnone

theorem exponent_of_isExponent (h : IsExponent w) : ∃ i, exponent w = some i := by
  cases h with
  | none => exact ⟨0, rfl⟩
  | @some e sign' ds he hsign hne hds =>
    obtain ⟨d, w, rfl⟩ := List.exists_cons_of_ne_nil hne
    obtain ⟨v, hv⟩ := digits_append hds stops_nil 0 0
    rw [List.append_nil] at hv
    have hs : ∃ neg, sign (sign' ++ d :: w) = (neg, d :: w) := by
      simp only [List.mem_cons, List.not_mem_nil, or_false] at hsign
      obtain rfl | rfl | rfl := hsign
      · exact ⟨false, sign_of_isDigit (hds d (by simp)) w⟩
      · exact ⟨false, rfl⟩
      · exact ⟨true, rfl⟩
    obtain ⟨neg, hs⟩ := hs
    have he : e = 'e' ∨ e = 'E' := by simpa using he
    simp [exponent, he, hs, hv]

theorem isBlank_of_isExponent (h : IsExponent w) : ∀ c ∈ w, isBlank c = false := by
  cases h with
  | none => simp
  | some he hsign _ hds =>
    have he' : ∀ e ∈ ['e', 'E'], isBlank e = false := by simp [isBlank]
    have hsign' : ∀ s ∈ [[], ['+'], ['-']], ∀ c ∈ s, isBlank c = false := by
      simp [isBlank]
    simp only [List.forall_mem_cons, List.forall_mem_append]
    exact ⟨he' _ he, hsign' _ hsign, fun d hd => isBlank_of_isDigit (hds d hd)⟩

theorem stops_of_isExponent (h : IsExponent w) : Stops w := by
  cases h with
  | none => exact stops_nil
  | some he =>
    have hstop : ∀ e ∈ ['e', 'E'], digitValue? e = none ∧ e ≠ '_' := by
      simp only [List.mem_cons, List.not_mem_nil, or_false, forall_eq_or_imp, forall_eq]
      decide
    simpa [Stops] using hstop _ he

theorem decimal?_of_form {ds es : List Char} (hne : ds ≠ []) (hds : ∀ d ∈ ds, d.isDigit = true)
    (hes : ∀ d ∈ es, d.isDigit = true) (hw : IsExponent w) (neg : Bool) :
    ∃ v e, decimal? neg (ds ++ '.' :: (es ++ w)) = some (Binary64.ofDecimal neg v e) := by
  have hdot : digitValue? '.' = none := by decide
  obtain ⟨v, hv⟩ := @digits_append ds ('.' :: (es ++ w)) hds (by simp [Stops, hdot]) 0 0
  obtain ⟨v', hv'⟩ := digits_append hes (stops_of_isExponent hw) v 0
  obtain ⟨i, hi⟩ := exponent_of_isExponent hw
  simp only [decimal?, hv, hv', hi, Option.map_some]
  rw [if_neg (by simp [hne])]
  exact ⟨_, _, rfl⟩

/-- A numeral that starts with a digit is none of the names of infinity and of not a number. -/
theorem readFloat?_eq {cs : List Char} (hs : s.toList = c :: cs) (hc : c.isDigit = true)
    (hblank : ∀ d ∈ s.toList, isBlank d = false) : readFloat? s = decimal? false s.toList := by
  have hname {t : String} (ht : t.toList.head? ≠ some c) :
      String.ofList (s.toList.map lowerAscii) ≠ t := by
    rintro rfl
    have hlower : lowerAscii c = c := by
      simp [lowerAscii, Char.isDigit, Char.le_def, UInt32.le_iff_toNat_le] at hc ⊢
      omega
    exact ht (by simp [hs, hlower])
  have hletter {d : Char} (hd : d.isDigit = false) : some d ≠ some c := by
    rintro ⟨rfl⟩
    simp [hc] at hd
  have hsign : sign s.toList = (false, s.toList) := hs ▸ sign_of_isDigit hc cs
  unfold readFloat?
  simp only [trimBlank_eq hblank, hsign]
  split
  next heq => exact absurd heq (hname (hletter (by decide)))
  next heq => exact absurd heq (hname (hletter (by decide)))
  next heq => exact absurd heq (hname (hletter (by decide)))
  next => rfl

theorem readFloat?_of_spells (h : Spells .floatLit s.toList) :
    ∃ v e, readFloat? s = some (Binary64.ofDecimal false v e) := by
  obtain ⟨ds, es, w, hs, hne, hds, hes, hw⟩ := exists_of_floatLit h
  obtain ⟨v, e, hx⟩ := decimal?_of_form hne hds hes hw false
  obtain ⟨c, cs, rfl⟩ := List.exists_cons_of_ne_nil hne
  have hblank : ∀ d ∈ s.toList, isBlank d = false := by
    simp only [hs, List.forall_mem_append, List.forall_mem_cons (a := '.')]
    exact ⟨fun d hd => isBlank_of_isDigit (hds d hd), by decide,
      fun d hd => isBlank_of_isDigit (hes d hd), isBlank_of_isExponent hw⟩
  exact ⟨v, e, by rw [readFloat?_eq hs (hds c (by simp)) hblank, hs, hx]⟩

end Numeral

end MiniGoc
