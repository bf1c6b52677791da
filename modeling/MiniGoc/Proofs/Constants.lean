import MiniGoc.Assembly.Form
import MiniGoc.Proofs.Emit
import MiniGoc.Proofs.Readback

/-!
# The text of constants

A text is written between quotes, with a backslash before each backslash and each quote.  It can
be read back from left to right (`Constant.unescape_escape`), and a quote in it always comes after
an odd number of backslashes, so that it is not taken for the end (`Constant.odd_slashes`).

An integer is written in one of four forms.  `Constant.Loads` has the instructions that an
assembler knows, with the integer that each one pushes.  The code for an integer is one of them,
unless the integer is `-1`, whose instruction ends in a letter in place of the digit, or needs
more than 32 bits: the last form does not check its operand.
-/

namespace MiniGoc

namespace Constant

theorem render_one (i : Instr) : Code.render (Emit.one i) = "\t" ++ i.render ++ "\n" := by
  rw [Code.render, Emit.one, List.map_cons, List.map_nil, String.join_cons, String.join_nil,
    String.append_empty]
  rfl

/-! ## Texts -/

/-- What an escaped text stands for, unless it has a quote or a backslash of its own. -/
def unescape : List Char → Option (List Char)
  | [] => some []
  | '\\' :: '\\' :: cs => (unescape cs).map ('\\' :: ·)
  | '\\' :: '"' :: cs => (unescape cs).map ('"' :: ·)
  | c :: cs => if c = '\\' ∨ c = '"' then none else (unescape cs).map (c :: ·)

/-- How many backslashes a text ends in. -/
def slashes (cs : List Char) : Nat := (cs.reverse.takeWhile (· == '\\')).length

theorem unescape_escape (cs : List Char) : unescape (cs.flatMap escapeChar) = some cs := by
  induction cs with
  | nil => rfl
  | cons c cs ih =>
    rw [List.flatMap_cons]
    by_cases hslash : c = '\\'
    · subst hslash
      simp [escapeChar, unescape, ih]
    · by_cases hquote : c = '"'
      · subst hquote
        simp [escapeChar, unescape, ih]
      · simp [escapeChar, unescape, hslash, hquote, ih]

/-- An escaped character before a text does not change whether the text ends in an odd number of
backslashes. -/
theorem slashes_append (c : Char) (cs : List Char) :
    slashes (escapeChar c ++ cs) % 2 = slashes cs % 2 := by
  have heven : slashes (escapeChar c) % 2 = 0 := by
    by_cases hslash : c = '\\'
    · subst hslash
      decide
    · by_cases hquote : c = '"'
      · subst hquote
        decide
      · simp [slashes, escapeChar, hslash, hquote]
  unfold slashes at heven ⊢
  rw [List.reverse_append, List.takeWhile_append]
  split
  next hall =>
    rw [List.length_append, ← hall]
    omega
  next => rfl

/-- The only quote in an escaped character comes after a backslash. -/
theorem eq_of_escapeChar {c : Char} {pre post : List Char}
    (h : escapeChar c = pre ++ '"' :: post) : pre = ['\\'] := by
  unfold escapeChar at h
  split at h
  next =>
    match pre with
    | [] => simp at h
    | [d] => rw [(List.cons.inj h).1]
    | _ :: _ :: _ => simp at h
  next hc =>
    match pre with
    | [] => simp_all
    | _ :: _ => simp at h

theorem odd_slashes {cs pre post : List Char} (h : cs.flatMap escapeChar = pre ++ '"' :: post) :
    slashes pre % 2 = 1 := by
  induction cs generalizing pre with
  | nil => simp at h
  | cons c cs ih =>
    rw [List.flatMap_cons, List.append_eq_append_iff] at h
    obtain ⟨rest, rfl, hrest⟩ | ⟨rest, hc, hrest⟩ := h
    · rw [slashes_append]
      exact ih hrest
    · cases rest with
      | nil => exact absurd (@ih [] hrest.symm) (by decide)
      | cons d rest =>
        obtain rfl := (List.cons.inj hrest).1
        rw [eq_of_escapeChar hc]
        rfl

/-- A text is pushed with one instruction, from whose text it can be read back.  No quote inside
ends it early. -/
theorem text_pushed (s : String) (f : Frame) : ∃ code e,
    Act.Yields (Emit.pushConst (.text s) .stringType) f (some code) f.pushed ∧
      Code.render code = "\tldc \"" ++ e ++ "\"\n" ∧
      (∀ pre post, e.toList = pre ++ '"' :: post → slashes pre % 2 = 1) ∧
      unescape e.toList = some s.toList := by
  refine ⟨Emit.one (.ldc (.string s)), escape s, ?_, ?_, ?_, ?_⟩
  · simp only [Emit.pushConst, Emit.pushString, Act.yields_bind, Frame.yields_push, Act.yields_pure]
    exact ⟨_, _, ⟨(), _, rfl, rfl, rfl⟩, rfl, rfl⟩
  · rw [render_one]
    show "\t" ++ ("ldc " ++ ("\"" ++ escape s ++ "\"")) ++ "\n" = _
    apply String.toList_injective
    simp only [String.toList_append, List.append_assoc]
    rfl
  · intro pre post h
    rw [escape, String.toList_ofList] at h
    exact odd_slashes h
  · rw [escape, String.toList_ofList, unescape_escape]

/-! ## Integers -/

open Emit (one intConstant)

/-- The words before an integer in an instruction that pushes it, with the least and the greatest
integer that may stand there. -/
def ranges : List (String × Int × Int) :=
  [("iconst_", 0, 5), ("bipush ", -128, 127), ("sipush ", -32768, 32767),
    ("ldc ", -2147483648, 2147483647)]

/-- The instructions that push an integer. -/
inductive Loads : String → Int → Prop where
  | minusOne : Loads "iconst_m1" (-1)
  | within {w : String} {least greatest i : Int} : (w, least, greatest) ∈ ranges → least ≤ i →
      i ≤ greatest → Loads (w ++ toString i) i

theorem append_inj {p q : String × Int × Int} {a b : String} (hp : p ∈ ranges) (hq : q ∈ ranges)
    (h : p.1 ++ a = q.1 ++ b) : p = q ∧ a = b := by
  have hletters : ∀ p ∈ ranges, ∀ q ∈ ranges, p.1.toList.head? = q.1.toList.head? → p = q := by
    decide
  have hfirst : ∀ p ∈ ranges, ∀ a : String, (p.1 ++ a).toList.head? = p.1.toList.head? := by
    intro p hp a
    have hsome : ∀ p ∈ ranges, p.1.toList.head?.isSome := by decide
    rw [String.toList_append, List.head?_append, Option.or_of_isSome (hsome p hp)]
  obtain rfl : p = q := by
    apply hletters p hp q hq
    rw [← hfirst p hp a, h, hfirst q hq b]
  exact ⟨rfl, (String.append_right_inj p.1).1 h⟩

theorem toString_ne {s : String} (h : toString (Term.toInt s.toList) ≠ s) (i : Int) :
    toString i ≠ s := by
  rintro rfl
  exact h (congrArg toString (Term.toInt_toString i))

theorem loads_iff {w : String} {least greatest i j : Int} (hw : (w, least, greatest) ∈ ranges) :
    Loads (w ++ toString i) j ↔ j = i ∧ least ≤ i ∧ i ≤ greatest := by
  constructor
  · generalize htext : w ++ toString i = text
    intro h
    cases h with
    | minusOne =>
      have hone := append_inj hw (q := ("iconst_", 0, 5)) (b := "m1") (by decide) htext
      exact absurd hone.2 (toString_ne (by decide) i)
    | within hq hleast hgreatest =>
      obtain ⟨heq, hij⟩ := append_inj hw hq htext
      cases heq
      have hij : i = j := by rw [← Term.toInt_toString i, hij, Term.toInt_toString]
      subst hij
      exact ⟨rfl, hleast, hgreatest⟩
  · rintro ⟨rfl, hleast, hgreatest⟩
    exact .within hw hleast hgreatest

theorem not_loads_letter (j : Int) : ¬ Loads "iconst_ml" j := by
  generalize htext : "iconst_ml" = text
  intro h
  cases h with
  | minusOne => exact absurd htext (by decide)
  | within hq _ _ =>
    have hletter := append_inj (p := ("iconst_", 0, 5)) (a := "ml") (by decide) hq htext
    exact absurd hletter.2.symm (toString_ne (by decide) j)

/-- How the integers are written.  The last form takes those that need more than 32 bits, too. -/
theorem render_intConstant (i : Int) :
    i = -1 ∧ (intConstant i).render = "iconst_ml" ∨ ∃ w least greatest,
      (w, least, greatest) ∈ ranges ∧ (intConstant i).render = w ++ toString i ∧
        (least ≤ i ∧ i ≤ greatest ↔ i ≠ -1 ∧ -2147483648 ≤ i ∧ i ≤ 2147483647) := by
  unfold intConstant
  split
  next =>
    by_cases hone : i = -1
    · subst hone
      exact .inl ⟨rfl, rfl⟩
    · exact .inr ⟨"iconst_", 0, 5, by decide, if_neg hone, by omega⟩
  next =>
    split
    next => exact .inr ⟨"bipush ", -128, 127, by decide, rfl, by omega⟩
    next =>
      split
      next => exact .inr ⟨"sipush ", -32768, 32767, by decide, rfl, by omega⟩
      next => exact .inr ⟨"ldc ", -2147483648, 2147483647, by decide, rfl, by omega⟩

/-- The forms of lines that push an integer.  The last one takes every operand. -/
def intForms : List LineForm :=
  [.iconst, .bipush, .sipush, .operand fun o => .instr (.ldc (.word o.render))]

/-- The instruction for an integer is one that its form makes of the integer. -/
theorem apply_intConstant (i : Int) : ∃ form ∈ intForms, ∃ line,
    form.apply [.int i] = .ok (some line) ∧
      Code.render line = Code.render (one (intConstant i)) := by
  unfold intConstant
  split
  next => exact ⟨.iconst, by simp [intForms], one (.iconst i), rfl, rfl⟩
  next =>
    split
    next =>
      refine ⟨.bipush, by simp [intForms], one (.bipush i), ?_, rfl⟩
      simp only [LineForm.apply, LineForm.rangeLine]
      rw [if_pos (by simp; omega)]
      rfl
    next =>
      split
      next =>
        refine ⟨.sipush, by simp [intForms], one (.sipush i), ?_, rfl⟩
        simp only [LineForm.apply, LineForm.rangeLine]
        rw [if_pos (by simp; omega)]
        rfl
      next =>
        exact ⟨.operand fun o => .instr (.ldc (.word o.render)), by simp [intForms], _, rfl, rfl⟩

/-- An integer is pushed with one instruction, which its form makes of the integer.  What an
assembler reads in it is that integer, and it can be read if and only if the integer is not `-1`
and has 32 bits. -/
theorem int_pushed (i : Int) (f : Frame) : ∃ code text,
    Act.Yields (Emit.pushInt (.int i)) f (some code) f.pushed ∧
      Code.render code = "\t" ++ text ++ "\n" ∧
      (∀ j, Loads text j ↔ j = i ∧ i ≠ -1 ∧ -2147483648 ≤ i ∧ i ≤ 2147483647) ∧
      ∃ form ∈ intForms, ∃ line,
        form.apply [.int i] = .ok (some line) ∧ Code.render line = Code.render code := by
  refine ⟨one (intConstant i), (intConstant i).render, ?_, render_one _, ?_, apply_intConstant i⟩
  · exact (Emit.yields_pushInt rfl).2 ⟨_, rfl, rfl, rfl⟩
  · intro j
    obtain ⟨rfl, htext⟩ | ⟨w, least, greatest, hw, htext, hrange⟩ := render_intConstant i
    · rw [htext, iff_false_left (not_loads_letter j)]
      omega
    · rw [htext, loads_iff hw, hrange]

end Constant

end MiniGoc
