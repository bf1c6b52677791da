import MiniGoc.Token.Lexer

/-!
# Longest matches

`Pattern.Matches` says which sequences of letters a pattern stands for, and the
scanner works by derivatives.  `matches_deriv` ties the two: the derivative by a letter matches
what may follow the letter.  So the scanner finds the longest prefix that
matches (`Pattern.longest_spec`), and a row of a rule table is chosen when its match is
longer than those of the rows before it and not shorter than those behind it (`Lexeme.best_spec`).

Block comments have a grammar of their own (`Comment.Inner`).  A comment holds comments and
characters, and no closer among the characters.
-/

namespace MiniGoc

namespace CharSet

variable {c : Char} {cs : List Char}

theorem any_map_eq :
    (cs.map (fun d => (d, d))).any (fun r => r.1 ≤ c && c ≤ r.2) = decide (c ∈ cs) := by
  have h : ∀ d : Char, d ≤ c ∧ c ≤ d ↔ c = d := fun d =>
    ⟨fun h => Char.le_antisymm h.2 h.1, fun h => h ▸ ⟨Char.le_refl _, Char.le_refl _⟩⟩
  rw [Bool.eq_iff_iff]
  simp [h]

@[simp] theorem has_of : (of cs).has c = true ↔ c ∈ cs := by
  simp only [has, of, any_map_eq]
  simp

@[simp] theorem has_except : (except cs).has c = true ↔ c ∉ cs := by
  simp only [has, except, any_map_eq]
  simp

end CharSet

namespace Pattern

variable {p q : Pattern} {s : CharSet} {x : Letter} {u w : List Letter}

/-! ## The words of a pattern -/

@[simp] theorem matches_never : ¬ Matches .never w := nofun

@[simp] theorem matches_empty : Matches .empty w ↔ w = [] :=
  ⟨fun h => by cases h; rfl, fun h => h ▸ .empty⟩

@[simp] theorem matches_char : Matches (.char s) w ↔ ∃ c, s.has c = true ∧ w = [some c] :=
  ⟨fun h => by cases h with | char hc => exact ⟨_, hc, rfl⟩, fun ⟨_, hc, h⟩ => h ▸ .char hc⟩

@[simp] theorem matches_atEnd : Matches .atEnd w ↔ w = [none] :=
  ⟨fun h => by cases h; rfl, fun h => h ▸ .atEnd⟩

theorem matches_seq : Matches (.seq p q) w ↔ ∃ u v, w = u ++ v ∧ Matches p u ∧ Matches q v :=
  ⟨fun h => by cases h with | seq hu hv => exact ⟨_, _, rfl, hu, hv⟩,
    fun ⟨_, _, h, hu, hv⟩ => h ▸ .seq hu hv⟩

@[simp] theorem matches_alt : Matches (.alt p q) w ↔ Matches p w ∨ Matches q w :=
  ⟨fun h => by cases h with | left h => exact .inl h | right h => exact .inr h,
    fun h => h.elim .left .right⟩

theorem matches_nil : Matches p [] ↔ p.nullable = true := by
  induction p with
  | never => simp [nullable]
  | empty => simp [nullable]
  | char s => simp [nullable]
  | atEnd => simp [nullable]
  | seq p q ihp ihq => simp [nullable, matches_seq, ← ihp, ← ihq, and_assoc]
  | alt p q ihp ihq => simp [nullable, ihp, ihq]
  | star p => exact iff_of_true .stop rfl

theorem matches_seq_cons : Matches (.seq p q) (x :: w) ↔
    (∃ u v, w = u ++ v ∧ Matches p (x :: u) ∧ Matches q v) ∨
      p.nullable = true ∧ Matches q (x :: w) := by
  rw [matches_seq, ← matches_nil]
  constructor
  · rintro ⟨_ | ⟨y, u⟩, v, heq, hu, hv⟩
    · exact .inr ⟨hu, by simpa using heq ▸ hv⟩
    · obtain ⟨rfl, rfl⟩ := List.cons.inj heq
      exact .inl ⟨u, v, rfl, hu, hv⟩
  · rintro (⟨u, v, rfl, hu, hv⟩ | ⟨hp, hw⟩)
    · exact ⟨x :: u, v, rfl, hu, hv⟩
    · exact ⟨[], x :: w, rfl, hp, hw⟩

theorem matches_star_cons : Matches (.star p) (x :: w) ↔
    ∃ u v, w = u ++ v ∧ Matches p (x :: u) ∧ Matches (.star p) v := by
  constructor
  · intro h
    generalize hs : Pattern.star p = s at h
    generalize hw : x :: w = xs at h
    -- A round of no letters is passed over.
    induction h with
    | @more _ u v hu hv _ ih =>
      cases hs
      cases u with
      | nil => exact ih rfl hw
      | cons y u =>
        obtain ⟨rfl, rfl⟩ := List.cons.inj hw
        exact ⟨u, v, rfl, hu, hv⟩
    | stop => cases hw
    | _ => cases hs
  · rintro ⟨u, v, rfl, hu, hv⟩
    exact .more hu hv

/-! ## Derivatives -/

@[simp] theorem matches_mkSeq : Matches (mkSeq p q) w ↔ Matches (.seq p q) w := by
  fun_cases mkSeq p q with
  | case3 => exact ⟨fun h => .seq .empty h, fun h => by grind [matches_seq, matches_empty]⟩
  | _ => simp [matches_seq]

@[simp] theorem matches_mkAlt : Matches (mkAlt p q) w ↔ Matches (.alt p q) w := by
  fun_cases mkAlt p q <;> simp

/-- The derivative by a letter matches what may follow the letter. -/
theorem matches_deriv : Matches (p.deriv x) w ↔ Matches p (x :: w) := by
  induction p generalizing w with
  | never => simp [deriv]
  | empty => simp [deriv]
  | char s =>
    cases x with
    | none => simp [deriv]
    | some c =>
      have hchar : Matches (.char s) (some c :: w) ↔ s.has c ∧ w = [] := by grind [matches_char]
      rw [hchar]
      by_cases hc : s.has c <;> simp [deriv, hc]
  | atEnd => cases x <;> simp [deriv]
  | seq p q ihp ihq =>
    rw [matches_seq_cons]
    by_cases hp : p.nullable <;> simp [deriv, hp, matches_seq, ihp, ihq]
  | alt p q ihp ihq => simp [deriv, ihp, ihq]
  | star p ih => simp [deriv, matches_seq, matches_star_cons, ih]

theorem eq_never_of_isNever (h : p.isNever = true) : p = .never := by
  cases p <;> first | rfl | cases h

/-! ## The scanner -/

/-- The longest prefix that matches. -/
structure IsLongest (p : Pattern) (w u : List Letter) : Prop where
  isPrefix : u <+: w
  matched : Matches p u
  bound : ∀ v, v <+: w → Matches p v → v.length ≤ u.length

theorem IsLongest.cons (h : IsLongest (p.deriv x) w u) : IsLongest p (x :: w) (x :: u) where
  isPrefix := List.cons_prefix_cons.2 ⟨rfl, h.isPrefix⟩
  matched := matches_deriv.1 h.matched
  bound v hv hm := by
    obtain rfl | ⟨t, rfl, ht⟩ := List.prefix_cons_iff.1 hv
    · simp
    · simpa using h.bound t ht (matches_deriv.2 hm)

theorem isLongest_nil (h : ∀ v, v <+: w → ¬ Matches (p.deriv x) v) (hp : p.nullable = true) :
    IsLongest p (x :: w) [] where
  isPrefix := List.nil_prefix
  matched := matches_nil.2 hp
  bound v hv hm := by
    obtain rfl | ⟨t, rfl, ht⟩ := List.prefix_cons_iff.1 hv
    · simp
    · exact absurd (matches_deriv.2 hm) (h t ht)

theorem not_matches_cons (h : ∀ v, v <+: w → ¬ Matches (p.deriv x) v) (hp : ¬ p.nullable = true) :
    ∀ v, v <+: x :: w → ¬ Matches p v := by
  intro v hv hm
  obtain rfl | ⟨t, rfl, ht⟩ := List.prefix_cons_iff.1 hv
  · exact hp (matches_nil.1 hm)
  · exact h t ht (matches_deriv.2 hm)

/-- What the scanner gives: the longest match, if there is one, and else the best one so far. -/
theorem scan_spec (p : Pattern) (n : Nat) (best : Option Nat) (cs : List Char) :
    (∃ u, IsLongest p (letters cs) u ∧ p.scan n best cs = some (n + u.length)) ∨
      (∀ v, v <+: letters cs → ¬ Matches p v) ∧ p.scan n best cs = best := by
  induction cs generalizing p n best with
  | nil =>
    simp only [scan, letters, List.map_nil, List.nil_append]
    by_cases hq : (p.deriv none).nullable
    · refine .inl ⟨[none], IsLongest.cons (u := []) ⟨by simp, matches_nil.2 hq, ?_⟩, by simp [hq]⟩
      intro v hv _
      simp [List.prefix_nil.1 hv]
    · have hno : ∀ v, v <+: [] → ¬ Matches (p.deriv none) v := by
        intro v hv
        rw [List.prefix_nil.1 hv, matches_nil]
        exact hq
      by_cases hp : p.nullable
      · exact .inl ⟨[], isLongest_nil hno hp, by simp [hq, hp]⟩
      · exact .inr ⟨not_matches_cons hno hp, by simp [hq, hp]⟩
  | cons c cs ih =>
    have hl : letters (c :: cs) = some c :: letters cs := rfl
    rw [hl]
    simp only [scan]
    -- What is left of the pattern after the character has no match, or a longest one.
    have hno : (∀ v, v <+: letters cs → ¬ Matches (p.deriv (some c)) v) →
        (∃ u, IsLongest p (some c :: letters cs) u ∧
          (if p.nullable then some n else best) = some (n + u.length)) ∨
        (∀ v, v <+: some c :: letters cs → ¬ Matches p v) ∧
          (if p.nullable then some n else best) = best := by
      intro h
      by_cases hp : p.nullable
      · exact .inl ⟨[], isLongest_nil h hp, by simp [hp]⟩
      · exact .inr ⟨not_matches_cons h hp, by simp [hp]⟩
    by_cases hq : (p.deriv (some c)).isNever
    · rw [if_pos hq]
      exact hno fun v _ => by simp [eq_never_of_isNever hq]
    · rw [if_neg hq]
      obtain ⟨u, hu, hs⟩ | ⟨h, hs⟩ :=
        ih (p.deriv (some c)) (n + 1) (if p.nullable then some n else best)
      · exact .inl ⟨some c :: u, hu.cons, by simp [hs]; omega⟩
      · rw [hs]
        exact hno h

theorem longest_spec {n : Nat} {cs : List Char} (h : p.longest cs = some n) :
    ∃ u, IsLongest p (letters cs) u ∧ u.length = n := by
  obtain ⟨u, hu, hs⟩ | ⟨-, hs⟩ := scan_spec p 0 none cs
  · exact ⟨u, hu, by simpa using (hs.symm.trans h)⟩
  · exact absurd (hs.symm.trans h) (by simp)

theorem exists_longest {v : List Letter} {cs : List Char} (hv : v <+: letters cs)
    (hm : Matches p v) : ∃ n, p.longest cs = some n := by
  obtain ⟨u, -, hs⟩ | ⟨h, -⟩ := scan_spec p 0 none cs
  · exact ⟨_, hs⟩
  · exact absurd hm (h v hv)

/-! ## Patterns that do not ask for the end -/

/-- Whether a pattern never asks for the end of the source. -/
def endFree : Pattern → Bool
  | atEnd => false
  | seq p q => p.endFree && q.endFree
  | alt p q => p.endFree && q.endFree
  | star p => p.endFree
  | _ => true

theorem Matches.exists_text (h : Matches p u) (hp : p.endFree = true) :
    ∃ w : List Char, u = w.map some := by
  induction h with
  | empty => exact ⟨[], rfl⟩
  | @char _ c => exact ⟨[c], rfl⟩
  | atEnd => cases hp
  | seq _ _ ihu ihv =>
    obtain ⟨hp, hq⟩ : _ ∧ _ := by simpa [endFree] using hp
    obtain ⟨u, rfl⟩ := ihu hp
    obtain ⟨v, rfl⟩ := ihv hq
    exact ⟨u ++ v, by simp⟩
  | left _ ih => exact ih (by simp_all [endFree])
  | right _ ih => exact ih (by simp_all [endFree])
  | stop => exact ⟨[], rfl⟩
  | more _ _ ihu ihv =>
    obtain ⟨u, rfl⟩ := ihu hp
    obtain ⟨v, rfl⟩ := ihv hp
    exact ⟨u ++ v, by simp⟩

theorem map_some_prefix_letters {w cs : List Char} : w.map some <+: letters cs ↔ w <+: cs := by
  induction w generalizing cs with
  | nil => simp
  | cons c w ih =>
    cases cs with
    | nil => simp [letters]
    | cons d cs =>
      have hl : letters (d :: cs) = some d :: letters cs := rfl
      simp [hl, List.cons_prefix_cons, ih]

@[simp] theorem matches_word {cs : List Char} : Matches (word cs) w ↔ w = cs.map some := by
  induction cs generalizing w with
  | nil => simp [word]
  | cons c cs ih => simp [word, matches_seq, ih]

theorem matches_star_char :
    Matches (.star (.char s)) w ↔ ∀ x ∈ w, ∃ c, s.has c = true ∧ x = some c := by
  induction w with
  | nil => exact iff_of_true .stop (by simp)
  | cons x w ih =>
    rw [matches_star_cons, List.forall_mem_cons, ← ih]
    constructor
    · rintro ⟨u, v, rfl, hu, hv⟩
      obtain ⟨c, hc, heq⟩ := matches_char.1 hu
      obtain ⟨rfl, rfl⟩ := List.cons.inj heq
      exact ⟨⟨c, hc, rfl⟩, hv⟩
    · rintro ⟨⟨c, hc, rfl⟩, hw⟩
      exact ⟨[], w, rfl, .char hc, hw⟩

end Pattern

/-! ## Block comments -/

namespace Comment

/-- What may stand in a comment: comments, and characters that do not start a closer. -/
inductive Inner : List Char → Prop where
  | nil : Inner []
  | char {c : Char} {v : List Char} : (c = '*' → v.head? ≠ some '/') → Inner v → Inner (c :: v)
  | comment {u v : List Char} : Inner u → Inner v → Inner ('/' :: '*' :: u ++ '*' :: '/' :: v)

/-- A block comment. -/
def Spells (w : List Char) : Prop := ∃ v, Inner v ∧ w = '/' :: '*' :: v ++ ['*', '/']

/-- What may stand behind an opener, inside as many open comments as given, up to the last
closer. -/
inductive Closes : Nat → List Char → Prop where
  | last {v : List Char} : Inner v → Closes 1 (v ++ ['*', '/'])
  | more {n : Nat} {v w : List Char} : Inner v → Closes n w → Closes (n + 1) (v ++ '*' :: '/' :: w)

theorem Closes.char {n : Nat} {c : Char} {w : List Char} (h : Closes n w)
    (hc : c = '*' → w.head? ≠ some '/') : Closes n (c :: w) := by
  have hv : ∀ {v t : List Char}, (c = '*' → (v ++ '*' :: t).head? ≠ some '/') →
      c = '*' → v.head? ≠ some '/' := by
    intro v t h hs
    have := h hs
    cases v <;> simp_all
  cases h with
  | last h => exact .last (.char (hv hc) h)
  | more h ht => exact .more (.char (hv hc) h) ht

theorem Closes.comment {n : Nat} {w : List Char} (h : Closes (n + 2) w) :
    Closes (n + 1) ('/' :: '*' :: w) := by
  obtain _ | ⟨hu, ht⟩ := h
  cases ht with
  | last hv => simpa using Closes.last (.comment hu hv)
  | more hv ht => simpa using Closes.more (.comment hu hv) ht

/-- With a closer ahead for every open comment, the scanner stops behind the last one it
needs. -/
theorem closes_body {depth : Nat} {cs : List Char} (hd : 0 < depth) (hc : depth ≤ closers cs) :
    body depth cs ≤ cs.length ∧ Closes depth (cs.take (body depth cs)) := by
  fun_induction body depth cs with
  | case1 depth cs h =>
    obtain rfl : depth = 1 := by omega
    exact ⟨by simp, .last .nil⟩
  | case2 depth cs h ih =>
    obtain ⟨n, rfl⟩ : ∃ n, depth = n + 1 := ⟨depth - 1, by omega⟩
    obtain ⟨hl, ht⟩ := ih (by omega) (by simpa [closers] using hc)
    refine ⟨by simp only [List.length_cons]; omega, ?_⟩
    simpa [Nat.add_comm 2] using Closes.more .nil ht
  | case3 depth cs h ih =>
    obtain ⟨n, rfl⟩ : ∃ n, depth = n + 1 := ⟨depth - 1, by omega⟩
    obtain ⟨hl, ht⟩ := ih (by omega) h
    refine ⟨by simp only [List.length_cons]; omega, ?_⟩
    simpa [Nat.add_comm 2] using ht.comment
  | case4 depth cs h ih =>
    obtain ⟨hl, ht⟩ := ih hd (by simpa [closers] using hc)
    refine ⟨by simp only [List.length_cons] at hl ⊢; omega, ?_⟩
    simpa [Nat.add_comm 1] using ht.char (c := '/') nofun
  | case5 depth c cs hclose hopen ih =>
    obtain ⟨hl, ht⟩ := ih hd (by rwa [closers.eq_2 c cs hclose] at hc)
    refine ⟨by simp only [List.length_cons]; omega, ?_⟩
    rw [Nat.add_comm 1, List.take_succ_cons]
    refine ht.char fun hs hh => ?_
    subst hs
    cases cs with
    | nil => simp at hh
    | cons d cs =>
      have hd : d = '/' := by
        cases hb : body depth (d :: cs) <;> simp_all
      subst hd
      exact hclose cs rfl rfl
  | case6 => simp [closers] at hc; omega

theorem length?_spec {cs : List Char} {n : Nat} (h : length? cs = some n) :
    n ≤ cs.length ∧ Spells (cs.take n) := by
  unfold length? at h
  split at h
  case h_2 => cases h
  case h_1 cs =>
    obtain ⟨hc, h⟩ := Option.ite_none_right_eq_some.1 h
    obtain rfl := Option.some.inj h
    obtain ⟨hl, ht⟩ := closes_body Nat.one_pos hc
    refine ⟨by simp only [List.length_cons]; omega, ?_⟩
    generalize hw : cs.take (body 1 cs) = w at ht
    obtain hv | ⟨_, ht⟩ := ht
    · exact ⟨_, hv, by simp [Nat.add_comm 2, hw]⟩
    · cases ht

end Comment

/-! ## The rows of a table -/

namespace Lexeme

variable {κ : Type}

theorem best_eq_none {cs : List Char} {rows : List (κ × Matcher)} (h : best cs rows = none) :
    ∀ r ∈ rows, r.2.longest cs = none := by
  induction rows with
  | nil => simp
  | cons row rows ih =>
    simp only [best] at h
    split at h
    case h_1 => split at h <;> cases h
    case h_2 => cases h
    case h_3 hm => simpa [hm] using ih h

/-- The row with the longest match comes before the others that match as much. -/
theorem best_spec {cs : List Char} {rows : List (κ × Matcher)} {k : κ} {n : Nat}
    (h : best cs rows = some (k, n)) :
    ∃ (before : List (κ × Matcher)) (m : Matcher) (after : List (κ × Matcher)),
      rows = before ++ (k, m) :: after ∧ m.longest cs = some n ∧
      (∀ r ∈ before, ∀ l, r.2.longest cs = some l → l < n) ∧
      ∀ r ∈ after, ∀ l, r.2.longest cs = some l → l ≤ n := by
  induction rows generalizing k n with
  | nil => cases h
  | cons row rows ih =>
    obtain ⟨k₀, m₀⟩ := row
    simp only [best] at h
    split at h
    case h_1 n₀ k' n' hm hb =>
      obtain ⟨before, m, after, rfl, hm', hlt, hle⟩ := ih hb
      split at h
      case isTrue hge =>
        -- The first row is at least as good as the best of the others.
        obtain ⟨rfl, rfl⟩ : k₀ = k ∧ n₀ = n := by simpa using h
        refine ⟨[], m₀, _, rfl, hm, by simp, fun r hr l hl => Nat.le_trans ?_ hge⟩
        obtain hr | hr := List.mem_append.1 hr
        · exact Nat.le_of_lt (hlt r hr l hl)
        obtain rfl | hr := List.mem_cons.1 hr
        · exact Nat.le_of_eq (Option.some.inj (hl.symm.trans hm'))
        · exact hle r hr l hl
      case isFalse hgt =>
        obtain ⟨rfl, rfl⟩ : k' = k ∧ n' = n := by simpa using h
        refine ⟨(k₀, m₀) :: before, m, after, rfl, hm', ?_, hle⟩
        intro r hr l hl
        obtain rfl | hr := List.mem_cons.1 hr
        · obtain rfl : n₀ = l := by simpa [hm] using hl
          omega
        · exact hlt r hr l hl
    case h_2 n₀ hm hb =>
      obtain ⟨rfl, rfl⟩ : k₀ = k ∧ n₀ = n := by simpa using h
      refine ⟨[], m₀, rows, rfl, hm, by simp, fun r hr l hl => ?_⟩
      simp [best_eq_none hb r hr] at hl
    case h_3 hm =>
      obtain ⟨before, m, after, rfl, hm', hlt, hle⟩ := ih h
      refine ⟨(k₀, m₀) :: before, m, after, rfl, hm', ?_, hle⟩
      intro r hr l hl
      obtain rfl | hr := List.mem_cons.1 hr
      · simp [hm] at hl
      · exact hlt r hr l hl

end Lexeme

end MiniGoc
