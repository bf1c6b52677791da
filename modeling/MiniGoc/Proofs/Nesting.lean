import MiniGoc.Proofs.Matching

/-!
# Comments inside comments

A block comment is an opener, comments and characters in any number but as few as it takes, and a
closer.  Read as a search, the rule has an order: at each point it tries the closer, then a
comment, then one character, and it comes back to the next choice whenever the rest fails.
`insides` lists all that the search can leave behind the closer of a comment, the first choice
first.

The scanner of `MiniGoc.Token.Comment` does not come back.  It knows the number of closers ahead,
and this decides whether a choice can succeed (`behind_eq_nil`, `head?_behind`).  So it finds what
the search finds first (`length?_eq_head?`).  A scanner that only counts the depth opens a comment
wherever it can.  Where it comes to an end, there were closers enough for every choice, and so it
has made the same choices (`body_of_countdown`).
-/

namespace MiniGoc.Comment

variable {c : Char} {cs : List Char} {d n : Nat}

/-! ## The search -/

/-- A text that is shorter than another. -/
abbrev Shorter (cs : List Char) := {rest : List Char // rest.length < cs.length}

/-- A text that is shorter than a text is shorter than a longer one. -/
def Shorter.widen {cs ds : List Char} (h : cs.length ≤ ds.length) (rest : Shorter cs) :
    Shorter ds :=
  ⟨rest.1, Nat.lt_of_lt_of_le rest.2 h⟩

/-- What is left behind the closer of a comment, for each reading of its inside.  The readings
that are tried first come first. -/
def search : (cs : List Char) → List (Shorter cs)
  | '*' :: '/' :: cs =>
    ⟨cs, Nat.lt_succ_of_lt (Nat.lt_succ_self _)⟩ :: (search ('/' :: cs)).map (.widen (by simp))
  | '/' :: '*' :: cs =>
    -- The rest of a comment inside is where the search goes on.
    ((search cs).flatMap fun rest =>
        (search rest.1).map (.widen (Nat.le_succ_of_le (Nat.le_succ_of_le (Nat.le_of_lt rest.2)))))
      ++ (search ('*' :: cs)).map (.widen (by simp))
  | _ :: cs => (search cs).map (.widen (by simp))
  | [] => []
termination_by cs => cs.length
decreasing_by
  all_goals simp only [List.length_cons]
  all_goals omega

/-- What the search leaves. -/
def insides (cs : List Char) : List (List Char) := (search cs).map Subtype.val

/-- The lengths of the readings of a comment at the start of a source. -/
def readings : List Char → List Nat
  | '/' :: '*' :: cs => (insides cs).map fun rest => 2 + (cs.length - rest.length)
  | _ => []

theorem val_widen {ds : List Char} (h : cs.length ≤ ds.length) (rests : List (Shorter cs)) :
    (rests.map (Shorter.widen h)).map Subtype.val = rests.map Subtype.val := by
  rw [List.map_map]
  rfl

@[simp] theorem insides_nil : insides [] = [] := by
  simp [insides, search]

theorem insides_close : insides ('*' :: '/' :: cs) = cs :: insides ('/' :: cs) := by
  simp only [insides, search, List.map_cons, val_widen]

theorem insides_open :
    insides ('/' :: '*' :: cs) = (insides cs).flatMap insides ++ insides ('*' :: cs) := by
  simp only [insides, search, List.map_append, List.map_flatMap, val_widen, List.flatMap_map]

theorem insides_skip (hclose : ∀ ds, c = '*' → cs = '/' :: ds → False)
    (hopen : ∀ ds, c = '/' → cs = '*' :: ds → False) : insides (c :: cs) = insides cs := by
  rw [insides, search.eq_3 c cs hclose hopen, val_widen, insides]

/-- What the search leaves when it closes several comments, one after the other. -/
def behind : Nat → List Char → List (List Char)
  | 0, cs => [cs]
  | d + 1, cs => (insides cs).flatMap (behind d)

theorem behind_close :
    behind (d + 1) ('*' :: '/' :: cs) = behind d cs ++ behind (d + 1) ('/' :: cs) := by
  simp only [behind, insides_close, List.flatMap_cons]

theorem behind_open :
    behind (d + 1) ('/' :: '*' :: cs) = behind (d + 2) cs ++ behind (d + 1) ('*' :: cs) := by
  simp only [behind, insides_open, List.flatMap_append, List.flatMap_assoc]

theorem behind_skip (hclose : ∀ ds, c = '*' → cs = '/' :: ds → False)
    (hopen : ∀ ds, c = '/' → cs = '*' :: ds → False) :
    behind (d + 1) (c :: cs) = behind (d + 1) cs := by
  simp only [behind, insides_skip hclose hopen]

theorem behind_one (cs : List Char) : behind 1 cs = insides cs := by
  simp [behind, List.flatMap_singleton']

/-! ## Closers decide -/

theorem closers_slash (cs : List Char) : closers ('/' :: cs) = closers cs :=
  closers.eq_2 '/' cs (by simp)

theorem closers_le_cons (c : Char) (cs : List Char) : closers cs ≤ closers (c :: cs) := by
  by_cases h : c = '*' ∧ ∃ ds, cs = '/' :: ds
  · obtain ⟨rfl, ds, rfl⟩ := h
    simp [closers, closers_slash]
  · exact Nat.le_of_eq (closers.eq_2 c cs fun ds hc hcs => h ⟨hc, ds, hcs⟩).symm

/-- Without a closer for every open comment the search fails. -/
theorem behind_eq_nil (h : closers cs < d) : behind d cs = [] := by
  induction hn : cs.length using Nat.strongRecOn generalizing d cs with
  | ind n ih =>
    obtain ⟨d, rfl⟩ : ∃ k, d = k + 1 := ⟨d - 1, by omega⟩
    -- The three choices, and what each of them has ahead.
    fun_cases search cs with
    | case1 ds =>
      have hlt : closers ds < d := by simpa [closers] using h
      rw [behind_close, ih ds.length (by simp at hn; omega) hlt rfl,
        ih ('/' :: ds).length (by simp at hn ⊢; omega) (by rw [closers_slash]; omega) rfl]
      rfl
    | case2 ds =>
      rw [closers_slash] at h
      have hle := closers_le_cons '*' ds
      rw [behind_open, ih ds.length (by simp at hn; omega) (by omega) rfl,
        ih ('*' :: ds).length (by simp at hn ⊢; omega) h rfl]
      rfl
    | case3 c ds hclose hopen =>
      rw [closers.eq_2 c ds hclose] at h
      rw [behind_skip hclose hopen, ih ds.length (by simp at hn; omega) h rfl]
    | case4 => simp [behind]

/-- The scanner stops where the first reading of the search ends. -/
theorem head?_behind (hd : 0 < d) (hc : d ≤ closers cs) :
    (behind d cs).head? = some (cs.drop (body d cs)) := by
  fun_induction body d cs with
  | case1 d ds h =>
    obtain rfl : d = 1 := by omega
    rw [behind_close]
    rfl
  | case2 d ds h ih =>
    obtain ⟨k, rfl⟩ : ∃ k, d = k + 1 := ⟨d - 1, by omega⟩
    rw [Nat.add_sub_cancel] at ih ⊢
    rw [behind_close, List.head?_append, ih (by omega) (by simpa [closers] using hc)]
    simp [Nat.add_comm 2]
  | case3 d ds h ih =>
    obtain ⟨k, rfl⟩ : ∃ k, d = k + 1 := ⟨d - 1, by omega⟩
    rw [behind_open, List.head?_append, ih (by omega) h]
    simp [Nat.add_comm 2]
  | case4 d ds h ih =>
    obtain ⟨k, rfl⟩ : ∃ k, d = k + 1 := ⟨d - 1, by omega⟩
    -- A comment inside could not be closed, so the search has come back.
    rw [behind_open, behind_eq_nil (by omega), List.nil_append,
      ih hd (by rwa [closers_slash] at hc)]
    simp [Nat.add_comm 1]
  | case5 d c ds hclose hopen ih =>
    obtain ⟨k, rfl⟩ : ∃ k, d = k + 1 := ⟨d - 1, by omega⟩
    rw [behind_skip hclose hopen, ih hd (by rwa [closers.eq_2 c ds hclose] at hc)]
    simp [Nat.add_comm 1]
  | case6 => simp [closers] at hc; omega

/-- The scanner finds the first reading of a comment. -/
theorem length?_eq_head? (cs : List Char) : length? cs = (readings cs).head? := by
  fun_cases length? cs with
  | case1 ds hc =>
    obtain ⟨hle, -⟩ := closes_body Nat.one_pos hc
    rw [readings, List.head?_map, ← behind_one, head?_behind Nat.one_pos hc]
    simp [Nat.sub_sub_self hle]
  | case2 ds hc =>
    rw [readings, ← behind_one, behind_eq_nil (by omega)]
    rfl
  | case3 => rw [readings.eq_2 cs (by assumption), List.head?_nil]

/-- There is a closer just if one occurs. -/
theorem one_le_closers : 1 ≤ closers cs ↔ ∃ i, ['*', '/'] <+: cs.drop i := by
  constructor
  · intro h
    fun_induction closers cs with
    | case1 ds => exact ⟨0, by simp⟩
    | case2 c ds _ ih =>
      obtain ⟨i, hi⟩ := ih h
      exact ⟨i + 1, hi⟩
    | case3 => omega
  · rintro ⟨i, hi⟩
    induction i generalizing cs with
    | zero =>
      obtain ⟨ds, rfl⟩ := hi
      simp [closers]
    | succ i ih =>
      cases cs with
      | nil => simp at hi
      | cons c cs => exact Nat.le_trans (ih hi) (closers_le_cons c cs)

/-! ## Counting the depth -/

/-- The number of characters after which the depth is zero, if it gets there. -/
def countdown : Nat → List Char → Option Nat
  | 0, _ => some 0
  | d + 1, '*' :: '/' :: cs => (countdown d cs).map (2 + ·)
  | d + 1, '/' :: '*' :: cs => (countdown (d + 2) cs).map (2 + ·)
  | d + 1, _ :: cs => (countdown (d + 1) cs).map (1 + ·)
  | _ + 1, [] => none

/-- The same from the opener of a comment on. -/
def counted : List Char → Option Nat
  | '/' :: '*' :: cs => (countdown 1 cs).map (2 + ·)
  | _ => none

/-- Where the depth comes to zero, there were closers for all comments that were opened, and the
scanner is at the same place. -/
theorem body_of_countdown (hd : 0 < d) (h : countdown d cs = some n) :
    d ≤ closers cs ∧ body d cs = n := by
  fun_induction countdown d cs generalizing n with
  | case1 => omega
  | case2 d ds ih =>
    obtain ⟨m, hm, rfl⟩ := Option.map_eq_some_iff.1 h
    cases d with
    | zero =>
      obtain rfl : 0 = m := by simpa [countdown] using hm
      simp [closers, body]
    | succ d =>
      obtain ⟨hc, rfl⟩ := ih (by omega) hm
      simpa [closers, body] using hc
  | case3 d ds ih =>
    obtain ⟨m, hm, rfl⟩ := Option.map_eq_some_iff.1 h
    obtain ⟨hc, rfl⟩ := ih (by omega) hm
    have hle := closers_le_cons '*' ds
    refine ⟨by rw [closers_slash]; omega, ?_⟩
    simp [body, hc]
  | case4 d c ds hclose hopen ih =>
    obtain ⟨m, hm, rfl⟩ := Option.map_eq_some_iff.1 h
    obtain ⟨hc, rfl⟩ := ih (by omega) hm
    rw [closers.eq_2 c ds hclose, body.eq_3 _ c ds hclose hopen]
    exact ⟨hc, rfl⟩
  | case5 => cases h

theorem length?_of_counted (h : counted cs = some n) : length? cs = some n := by
  unfold counted at h
  split at h
  case h_1 ds =>
    obtain ⟨m, hm, rfl⟩ := Option.map_eq_some_iff.1 h
    obtain ⟨hc, rfl⟩ := body_of_countdown Nat.one_pos hm
    simp [length?, hc]
  case h_2 => cases h

/-- On a text that starts with an opener, the row for block comments matches what the search of
the rule finds first.  It matches something just if there is a closer behind the opener, the match
ends with a closer, and where the depth of the comments comes to zero, the match ends there. -/
theorem nested_matched {t : List Char} (h : ['/', '*'] <+: t) :
    TokenKind.blockComment.matcher.longest t = (readings t).head? ∧
    ((∃ n, TokenKind.blockComment.matcher.longest t = some n) ↔
      ∃ i, 2 ≤ i ∧ ['*', '/'] <+: t.drop i) ∧
    (∀ n, TokenKind.blockComment.matcher.longest t = some n →
      n ≤ t.length ∧ ['*', '/'] <:+ t.take n) ∧
    ∀ n, counted t = some n → TokenKind.blockComment.matcher.longest t = some n := by
  have hrow (t : List Char) : TokenKind.blockComment.matcher.longest t = length? t := rfl
  refine ⟨length?_eq_head? t, ?_, ?_, fun n => length?_of_counted⟩
  · obtain ⟨cs, rfl⟩ := h
    have hsome : (∃ n, length? ('/' :: '*' :: cs) = some n) ↔ 1 ≤ closers cs := by
      by_cases hc : 1 ≤ closers cs <;> simp [length?, hc]
    rw [List.cons_append, List.cons_append, List.nil_append, hrow, hsome, one_le_closers]
    constructor
    · rintro ⟨i, hi⟩
      exact ⟨i + 2, by omega, hi⟩
    · rintro ⟨i, h2, hi⟩
      obtain ⟨j, rfl⟩ := Nat.exists_eq_add_of_le' h2
      exact ⟨j, hi⟩
  · intro n hn
    obtain ⟨hle, v, -, hv⟩ := length?_spec hn
    exact ⟨hle, hv ▸ List.suffix_append _ _⟩

/-- The depth comes to zero before the last closer, and there the match ends. -/
theorem nested_matched_inner :
    ['/', '*'] <+: "/*a/*b*/c*/d*/".toList ∧ counted "/*a/*b*/c*/d*/".toList = some 11 ∧
      TokenKind.blockComment.matcher.longest "/*a/*b*/c*/d*/".toList = some 11 :=
  have h : ['/', '*'] <+: "/*a/*b*/c*/d*/".toList := by decide
  have hn : counted "/*a/*b*/c*/d*/".toList = some 11 := by decide
  ⟨h, hn, (nested_matched h).2.2.2 11 hn⟩

end MiniGoc.Comment
