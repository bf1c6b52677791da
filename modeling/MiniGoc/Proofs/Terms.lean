import MiniGoc.Proofs.Quoted

/-!
# Terms and their texts

A term is a word, a quoted text, a head with arguments, or a list.  It is written with parentheses
around arguments, brackets around lists, and commas between them.  A text is the text of at most
one term in which words are plain and quoted texts are string literals (`Term.text_inj`).

To read a term one looks at the plain characters it starts with and at the character behind them:
a parenthesis opens the arguments of a head, a bracket a list, a quote a quoted text, and anything
else ends a word (`plain_append_inj`).  A quoted text may have all these characters in it, but it
says itself where it ends (`stringLit_append_inj`).
-/

namespace MiniGoc

inductive Head where
  | pair | program | param | var | const | func | method | prototype
  | arrayType | interfaceType | structType
  | block | assign | ifElse | loop | forEach | breakLoop | continueLoop | ret
  | id | cell | field | binary | unary | call | methodCall
  | intLit | floatLit | stringLit | boolLit | arrayLit | structLit
deriving DecidableEq

namespace Head

/-- The text of a head.  A pair has none. -/
def text : Head → String
  | pair => ""
  | program => "Program"
  | param => "ParDecl"
  | var => "VarDecl"
  | const => "ConstDecl"
  | func => "FuncDecl"
  | method => "MethodDecl"
  | prototype => "Prototype"
  | arrayType => "ArrayType"
  | interfaceType => "InterfaceType"
  | structType => "StructType"
  | block => "Block"
  | assign => "Assign"
  | ifElse => "If"
  | loop => "For"
  | forEach => "ForEach"
  | breakLoop => "Break"
  | continueLoop => "Continue"
  | ret => "Return"
  | id => "Id"
  | cell => "ArrayCell"
  | field => "FieldAccess"
  | binary => "BinaryOp"
  | unary => "UnaryOp"
  | call => "FuncCall"
  | methodCall => "MethodCall"
  | intLit => "IntLiteral"
  | floatLit => "FloatLiteral"
  | stringLit => "StringLiteral"
  | boolLit => "BooleanLiteral"
  | arrayLit => "ArrayLiteral"
  | structLit => "StructLiteral"

def all : List Head :=
  [pair, program, param, var, const, func, method, prototype, arrayType, interfaceType, structType,
   block, assign, ifElse, loop, forEach, breakLoop, continueLoop, ret, id, cell, field, binary,
   unary, call, methodCall, intLit, floatLit, stringLit, boolLit, arrayLit, structLit]

theorem mem_all (h : Head) : h ∈ all := by cases h <;> decide

theorem text_inj {g h : Head} (e : g.text = h.text) : g = h := by
  have : ∀ g ∈ all, ∀ h ∈ all, g.text = h.text → g = h := by decide
  exact this g g.mem_all h h.mem_all e

end Head

inductive Term where
  | word (s : String)
  | quote (s : String)
  | app (head : Head) (args : List Term)
  | list (items : List Term)

namespace Term

mutual

def chars : Term → List Char
  | word s | quote s => s.toList
  | app h ts => h.text.toList ++ '(' :: (charsAll ts ++ [')'])
  | list ts => '[' :: (charsAll ts ++ [']'])

/-- The characters of terms with commas between them. -/
def charsAll : List Term → List Char
  | [] => []
  | t :: ts => t.chars ++ charsMore ts

/-- The characters of terms with a comma before each. -/
def charsMore : List Term → List Char
  | [] => []
  | t :: ts => ',' :: (t.chars ++ charsMore ts)

end

def text (t : Term) : String := String.ofList t.chars

@[simp] theorem toList_text (t : Term) : t.text.toList = t.chars := by simp [text]

theorem eq_text {s : String} {t : Term} (h : s.toList = t.chars) : s = t.text := by
  rw [text, ← h, String.ofList_toList]

theorem charsAll_eq (ts : List Term) : charsAll ts = [','].intercalate (ts.map chars) := by
  cases ts with
  | nil => simp [charsAll]
  | cons t ts =>
    rw [charsAll]
    induction ts generalizing t with
    | nil => simp [charsMore]
    | cons u ts ih =>
      rw [charsMore, ih u, List.map_cons, List.map_cons, List.map_cons, List.intercalate_cons_cons]
      simp

/-! ## Plain characters -/

/-- Whether a character has no meaning of its own in a term. -/
def plain (c : Char) : Bool := c ∉ ['(', ')', '[', ']', ',', '"']

/-- A term or its end comes to an end before the text. -/
def Stops (r : List Char) : Prop := ∀ c ∈ r.head?, c ∈ [',', ')', ']']

/-- The terms that can be read: words are plain and not empty, and quoted texts are string
literals. -/
inductive Clean : Term → Prop where
  | word {s : String} : s.toList ≠ [] → (∀ c ∈ s.toList, plain c = true) → Clean (.word s)
  | quote {s : String} : TokenKind.stringLit.Spells s.toList → Clean (.quote s)
  | app {h : Head} {ts : List Term} : (∀ t ∈ ts, Clean t) → Clean (.app h ts)
  | list {ts : List Term} : (∀ t ∈ ts, Clean t) → Clean (.list ts)

variable {v w r r' : List Char}

theorem plain_head (h : Head) : ∀ c ∈ h.text.toList, plain c = true := by
  have : ∀ h ∈ Head.all, h.text.toList.all plain = true := by decide
  exact List.all_eq_true.1 (this h h.mem_all)

theorem Stops.not_plain (h : Stops r) : ∀ c ∈ r.head?, plain c = false := by
  have : [',', ')', ']'].all (fun c => plain c = false) = true := by decide
  exact fun c hc => by simpa using List.all_eq_true.1 this c (h c hc)

theorem plain_append_inj (hv : ∀ c ∈ v, plain c = true) (hw : ∀ c ∈ w, plain c = true)
    (hr : ∀ c ∈ r.head?, plain c = false) (hr' : ∀ c ∈ r'.head?, plain c = false)
    (h : v ++ r = w ++ r') : v = w ∧ r = r' := by
  have hstop {r : List Char} (hr : ∀ c ∈ r.head?, plain c = false) : r.takeWhile plain = [] := by
    cases r with
    | nil => rfl
    | cons c r => simp [hr c (by simp)]
  have htake := congrArg (List.takeWhile plain) h
  rw [List.takeWhile_append_of_pos hv, List.takeWhile_append_of_pos hw, hstop hr, hstop hr',
    List.append_nil, List.append_nil] at htake
  exact ⟨htake, List.append_cancel_left (htake ▸ h)⟩

theorem stringLit_append_inj (hv : TokenKind.stringLit.Spells v)
    (hw : TokenKind.stringLit.Spells w) (h : v ++ r = w ++ r') : v = w ∧ r = r' := by
  have hshort {v a : List Char} (hv : TokenKind.stringLit.Spells v)
      (hva : TokenKind.stringLit.Spells (v ++ a)) : a = [] := by
    have hv := (TokenKind.matches_stringLit rfl).1 hv
    have hva := (TokenKind.matches_stringLit rfl).1 hva
    rw [List.map_append, ← TokenKind.matches_stringLit rfl] at hva
    simpa using hv.eq_nil_of_matches (k := .stringLit) (by decide) rfl hva
  obtain ⟨a, rfl, rfl⟩ | ⟨a, rfl, rfl⟩ := List.append_eq_append_iff.1 h
  · simp [hshort hv hw]
  · simp [hshort hw hv]

theorem exists_quote (hv : TokenKind.stringLit.Spells v) : ∃ a, v = '"' :: a := by
  obtain ⟨a, -, h⟩ := (TokenKind.matches_stringLit rfl).1 hv
  cases v with
  | nil => simp at h
  | cons c v => exact ⟨v, by simpa using (List.cons.inj h).1⟩

/-! ## Reading a term -/

/-- The plain characters that a term starts with, and the rest. -/
def split : Term → List Char × List Char
  | word s => (s.toList, [])
  | quote s => ([], s.toList)
  | app h ts => (h.text.toList, '(' :: (charsAll ts ++ [')']))
  | list ts => ([], '[' :: (charsAll ts ++ [']']))

theorem chars_eq_split (t : Term) : t.chars = t.split.1 ++ t.split.2 := by
  cases t <;> simp [chars, split]

/-- The texts of two terms start with the same plain characters. -/
theorem split_inj {t u : Term} (ht : t.Clean) (hu : u.Clean) (hr : Stops r) (hr' : Stops r')
    (h : t.chars ++ r = u.chars ++ r') :
    t.split.1 = u.split.1 ∧ t.split.2 ++ r = u.split.2 ++ r' := by
  have hplain {t : Term} (ht : t.Clean) : ∀ c ∈ t.split.1, plain c = true := by
    cases ht with
    | word _ hs => exact hs
    | app => exact plain_head _
    | _ => simp [split]
  have hstop {t : Term} {r : List Char} (ht : t.Clean) (hr : Stops r) :
      ∀ c ∈ (t.split.2 ++ r).head?, plain c = false := by
    cases ht with
    | word => exact hr.not_plain
    | quote hs =>
      obtain ⟨a, ha⟩ := exists_quote hs
      simp [split, ha, plain]
    | _ => simp [split, plain]
  rw [chars_eq_split, chars_eq_split, List.append_assoc, List.append_assoc] at h
  exact plain_append_inj (hplain ht) (hplain hu) (hstop ht hr) (hstop hu hr') h

/-- The term can be told from a text that starts with it. -/
def Legible (t : Term) : Prop :=
  ∀ (u : Term) (r r' : List Char), u.Clean → Stops r → Stops r' → t.chars ++ r = u.chars ++ r' →
    t = u ∧ r = r'

section Lists

variable {ts us : List Term} {c : Char}

theorem stops_charsMore (hc : c ∈ [')', ']']) (ts : List Term) :
    Stops (charsMore ts ++ c :: r) := by
  cases ts with
  | nil => simpa [charsMore, Stops] using .inr (by simpa using hc)
  | cons t ts => simp [charsMore, Stops]

theorem charsMore_inj (hts : ∀ t ∈ ts, t.Legible) (hus : ∀ u ∈ us, u.Clean)
    (hc : c ∈ [')', ']']) (h : charsMore ts ++ c :: r = charsMore us ++ c :: r') :
    ts = us ∧ r = r' := by
  have hcomma : c ≠ ',' := by
    rintro rfl
    simp at hc
  induction ts generalizing us with
  | nil =>
    cases us with
    | nil => simpa [charsMore] using h
    | cons u us => simp [charsMore, hcomma] at h
  | cons t ts ih =>
    cases us with
    | nil => simp [charsMore, hcomma.symm] at h
    | cons u us =>
      obtain ⟨ht, hts'⟩ := List.forall_mem_cons.1 hts
      obtain ⟨hu, hus'⟩ := List.forall_mem_cons.1 hus
      simp only [charsMore, List.cons_append, List.append_assoc, List.cons.injEq, true_and] at h
      obtain ⟨htu, hmore⟩ := ht u _ _ hu (stops_charsMore hc ts) (stops_charsMore hc us) h
      obtain ⟨htus, hr⟩ := ih hts' hus' hmore
      exact ⟨by rw [htu, htus], hr⟩

/-- A term does not start like the end of a list. -/
theorem Clean.ne_cons {t : Term} (ht : t.Clean) (hc : c ∈ [')', ']']) :
    t.chars ++ r ≠ c :: r' := by
  have hplain : plain c = false ∧ c ≠ '(' ∧ c ≠ '[' ∧ c ≠ '"' := by
    obtain rfl | rfl : c = ')' ∨ c = ']' := by simpa using hc
    · decide
    · decide
  intro h
  cases ht with
  | @word s hne hs =>
    obtain ⟨d, w, hw⟩ := List.exists_cons_of_ne_nil hne
    simp only [chars, hw, List.cons_append, List.cons.injEq] at h
    simp [← h.1, hs d (by simp [hw])] at hplain
  | quote hs =>
    obtain ⟨a, ha⟩ := exists_quote hs
    simp [chars, ha, hplain.2.2.2.symm] at h
  | @app g ts _ =>
    cases hw : g.text.toList with
    | nil => simp [chars, hw, hplain.2.1.symm] at h
    | cons d w =>
      simp only [chars, hw, List.cons_append, List.cons.injEq] at h
      simp [← h.1, plain_head g d (by simp [hw])] at hplain
  | list => simp [chars, hplain.2.2.1.symm] at h

theorem charsAll_inj (hts : ∀ t ∈ ts, t.Clean) (hts' : ∀ t ∈ ts, t.Legible)
    (hus : ∀ u ∈ us, u.Clean) (hc : c ∈ [')', ']'])
    (h : charsAll ts ++ c :: r = charsAll us ++ c :: r') : ts = us ∧ r = r' := by
  cases ts with
  | nil =>
    cases us with
    | nil => simpa [charsAll] using h
    | cons u us =>
      rw [charsAll, charsAll, List.append_assoc] at h
      exact absurd h.symm ((hus u (by simp)).ne_cons hc)
  | cons t ts =>
    cases us with
    | nil =>
      rw [charsAll, charsAll, List.append_assoc] at h
      exact absurd h ((hts t (by simp)).ne_cons hc)
    | cons u us =>
      obtain ⟨ht, hts'⟩ := List.forall_mem_cons.1 hts'
      obtain ⟨hu, hus'⟩ := List.forall_mem_cons.1 hus
      rw [charsAll, charsAll, List.append_assoc, List.append_assoc] at h
      obtain ⟨htu, hmore⟩ := ht u _ _ hu (stops_charsMore hc ts) (stops_charsMore hc us) h
      obtain ⟨htus, hr⟩ := charsMore_inj hts' hus' hc hmore
      exact ⟨by rw [htu, htus], hr⟩

end Lists

theorem Clean.legible {t : Term} (ht : t.Clean) : t.Legible := by
  induction ht with
  | @word s hne hs =>
    intro u r r' hu hr hr' h
    obtain ⟨hplain, hrest⟩ := split_inj (.word hne hs) hu hr hr' h
    cases hu with
    | word =>
      obtain rfl := String.toList_inj.1 hplain
      exact ⟨rfl, hrest⟩
    | app => simp [split, show r = _ from hrest, Stops] at hr
    | _ => exact absurd hplain hne
  | @quote s hs =>
    intro u r r' hu hr hr' h
    obtain ⟨hplain, hrest⟩ := split_inj (.quote hs) hu hr hr' h
    obtain ⟨a, ha⟩ := exists_quote hs
    cases hu with
    | word hne => exact absurd hplain.symm hne
    | quote hs' =>
      obtain ⟨he, rfl⟩ := stringLit_append_inj hs hs' hrest
      exact ⟨by rw [String.toList_inj.1 he], rfl⟩
    | _ => simp [split, ha] at hrest
  | @app g ts hts ih =>
    intro u r r' hu hr hr' h
    obtain ⟨hplain, hrest⟩ := split_inj (.app hts) hu hr hr' h
    cases hu with
    | word => simp [split, show r' = _ from hrest.symm, Stops] at hr'
    | quote hs' =>
      obtain ⟨a, ha⟩ := exists_quote hs'
      simp [split, ha] at hrest
    | app hus =>
      obtain rfl := Head.text_inj (String.toList_inj.1 hplain)
      simp only [split, List.cons_append, List.append_assoc, List.nil_append, List.cons.injEq,
        true_and] at hrest
      obtain ⟨rfl, rfl⟩ := charsAll_inj hts ih hus (by decide) hrest
      exact ⟨rfl, rfl⟩
    | list => simp [split] at hrest
  | @list ts hts ih =>
    intro u r r' hu hr hr' h
    obtain ⟨hplain, hrest⟩ := split_inj (.list hts) hu hr hr' h
    cases hu with
    | word hne => exact absurd hplain.symm hne
    | quote hs' =>
      obtain ⟨a, ha⟩ := exists_quote hs'
      simp [split, ha] at hrest
    | app => simp [split] at hrest
    | list hus =>
      simp only [split, List.cons_append, List.append_assoc, List.nil_append, List.cons.injEq,
        true_and] at hrest
      obtain ⟨rfl, rfl⟩ := charsAll_inj hts ih hus (by decide) hrest
      exact ⟨rfl, rfl⟩

theorem text_inj {t u : Term} (ht : t.Clean) (hu : u.Clean) (h : t.text = u.text) : t = u := by
  have hnil : Stops [] := by simp [Stops]
  have h : t.chars = u.chars := by simpa using congrArg String.toList h
  exact (ht.legible u [] [] hu hnil hnil (by rw [h])).1

end Term

end MiniGoc
