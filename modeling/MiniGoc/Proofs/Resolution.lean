import MiniGoc.Proofs.Written

/-!
# References between classes

An instruction names a class, or a member of a class, by a text.  The name *resolves* in the
files of a program if one of them is that of the class, and has a line for the member
(`Reference.Resolves`).  Which names resolve can be told from the declarations of the program
(`Reference.Declared`, `Workspace.Holds.resolves_iff`): the functions and variables are members
of the class of the program, and a struct is a class with its elements as fields, unless a
later declaration has taken the file of its name.

References to the classes `io` and `java/lang` are left to the surroundings.
-/

namespace MiniGoc

open Emit

/-- A class, or a member of a class, that an instruction refers to by name. -/
inductive Reference where
  /-- A method that is called without an object. -/
  | call (method type : String)
  | static (member type : String)
  /-- A class of which an object is made. -/
  | object (type : String)
  | construct (method type : String)
  | field (member type : String)
  | method (method type : String)
deriving DecidableEq, Repr

/-- The class or member that a line refers to. -/
def Line.reference? : Line → Option Reference
  | instr (.invokeStatic m t) => some (.call m t)
  | instr (.getStatic m t) | instr (.putStatic m t) => some (.static m t)
  | instr (.newObject t) => some (.object t)
  | instr (.invokeSpecial m t) => some (.construct m t)
  | instr (.getField m t) | instr (.putField m t) => some (.field m t)
  | instr (.invokeVirtual m t) | instr (.invokeInterface m t _) => some (.method m t)
  | _ => none

/-- The classes and members that lines refer to. -/
def Code.references (c : Code) : List Reference := c.filterMap Line.reference?

@[simp] theorem Code.references_append (c d : Code) :
    Code.references (c ++ d) = Code.references c ++ Code.references d := List.filterMap_append

structure Listing.Defines (l : Listing) (c : String) : Prop where
  file : l.file = Listing.fileName c
  heading : .classDecl ("public " ++ c) ∈ l.code

namespace Reference

/-- The text that names a class or a member. -/
def target : Reference → String
  | call m _ | static m _ | construct m _ | field m _ | method m _ => m
  | object c => c

/-- A reference to a class that is not part of the program. -/
def IsExternal (r : Reference) : Prop :=
  ∃ rest, r.target = "io/" ++ rest ∨ r.target = "java/lang/" ++ rest

def Resolves (ls : List Listing) : Reference → Prop
  | call m t => ∃ l ∈ ls, ∃ c n, l.Defines c ∧ m = c ++ "/" ++ n ∧ .method true n t ∈ l.code
  | static m t => ∃ l ∈ ls, ∃ c n, l.Defines c ∧ m = c ++ "/" ++ n ∧
      ∃ isFinal, .field true isFinal n t none ∈ l.code
  | object c => ∃ l ∈ ls, l.Defines c
  | construct m _ => ∃ l ∈ ls, ∃ c, l.Defines c ∧ m = c ++ "/<init>"
  | field m t => ∃ l ∈ ls, ∃ c n, l.Defines c ∧ m = c ++ "/" ++ n ∧
      ∃ isFinal, .field false isFinal n t none ∈ l.code
  | method _ _ => False

end Reference

/-! ## What a program declares -/

/-- The declaration that the file of a class other than that of the program is written from:
the last one of the name. -/
def lastClass? (ds : List Node) (c : String) : Option Node :=
  if c = mainClass then none
  else (ds.filter Node.isClass).reverse.find? fun d => d.name? = some c

def StructIn (ds : List Node) (c : String) (es : List Node) : Prop :=
  ∃ ms is, lastClass? ds c = some (.structType c es ms is)

/-- A member of the class of a program that is a method. -/
def MethodIn (ds : List Node) (n t : String) : Prop :=
  (n = "<clinit>" ∧ t = "()V") ∨
    ∃ ps r b, .func n ps r b ∈ ds ∧ (methodType n ps r).descriptor = .ok t

/-- A member of the class of a program that is a field. -/
def FieldIn (ds : List Node) (n t : String) : Prop :=
  (∃ d ∈ ds, d.declared? = some n) ∧ ∃ s x, Symbol.find? n (globalSymbols ds) = some s ∧
    s.home = .member mainClass x ∧ s.type.descriptor = .ok t

/-- A program declares what is referred to. -/
def Reference.Declared (ds : List Node) : Reference → Prop
  | call m t => ∃ n, m = mainClass ++ "/" ++ n ∧ MethodIn ds n t
  | static m t => ∃ n, m = mainClass ++ "/" ++ n ∧ FieldIn ds n t
  | object c => c = mainClass ∨ ∃ es, StructIn ds c es
  | construct m _ => ∃ c, m = c ++ "/<init>" ∧ (c = mainClass ∨ ∃ es, StructIn ds c es)
  | field m t => ∃ c n es u, m = c ++ "/" ++ n ∧ StructIn ds c es ∧ .pair n u ∈ es ∧
      u.descriptor = .ok t
  | method _ _ => False

/-! ## The lines of a class that declare something -/

/-- Whether a line is a heading of a class or a method, or a field. -/
def Line.declares : Line → Bool
  | classDecl _ | field .. | method .. => true
  | _ => false

variable {l : Line} {c : Code} {n : String} {ds : List Node}

theorem Line.not_mem_of_isBody (hl : l.declares) (hc : c.all Line.isBody) : l ∉ c := by
  intro hmem
  have := List.all_eq_true.1 hc l hmem
  cases l <;> simp_all [Line.declares, Line.isBody]

theorem mem_methodCode {t : String} {body : Code} (hbody : body.all Line.isBody) (hl : l.declares) :
    l ∈ methodCode n t body ↔ l = .method true n t := by
  have hend : l ≠ .endMethod := by
    rintro rfl
    cases hl
  simp [methodCode, Line.not_mem_of_isBody hl hbody, hend]

theorem Fields.mem_iff {globals : List Symbol} {items : List (Symbol × Node)}
    (h : Fields globals ds c items) :
    l ∈ c ↔ ∃ d ∈ ds, ∃ n s x t, d.declared? = some n ∧ Symbol.find? n globals = some s ∧
      s.home = .member mainClass x ∧ s.type.descriptor = .ok t ∧
      l = .field true d.isConst n t none := by
  induction h with
  | nil => simp
  | @field d ds n s x t c items hn hs hx ht _ ih =>
    rw [List.mem_cons, ih]
    constructor
    · rintro (rfl | ⟨d', hd', hfield⟩)
      · exact ⟨d, List.mem_cons_self .., n, s, x, t, hn, hs, hx, ht, rfl⟩
      · exact ⟨d', List.mem_cons_of_mem _ hd', hfield⟩
    · rintro ⟨d', hd', n', s', x', t', hn', hs', hx', ht', rfl⟩
      rcases List.mem_cons.1 hd' with rfl | hd'
      · cases hn.symm.trans hn'
        cases hs.symm.trans hs'
        cases ht.symm.trans ht'
        exact .inl rfl
      · exact .inr ⟨d', hd', n', s', x', t', hn', hs', hx', ht', rfl⟩
  | @skip d ds c items hnone _ ih =>
    rw [ih]
    constructor
    · rintro ⟨d', hd', hfield⟩
      exact ⟨d', List.mem_cons_of_mem _ hd', hfield⟩
    · rintro ⟨d', hd', n, s, x, t, hn, hs, hx, hrest⟩
      rcases List.mem_cons.1 hd' with rfl | hd'
      · exact absurd hx (hnone n s x hn hs)
      · exact ⟨d', hd', n, s, x, t, hn, hs, hx, hrest⟩

theorem MethodOf.mem_flatten_iff {globals : List Symbol} {ms : List Code}
    (h : List.Forall₂ (MethodOf globals) ds ms) (hl : l.declares) :
    l ∈ ms.flatten ↔ ∃ n ps r b t, .func n ps r b ∈ ds ∧
      (methodType n ps r).descriptor = .ok t ∧ l = .method true n t := by
  induction h with
  | nil => simp
  | @cons d m ds ms hm _ ih =>
    rw [List.flatten_cons, List.mem_append, ih]
    cases hm with
    | @intro n ps r b type body htype hbody =>
      rw [mem_methodCode hbody.isBody hl]
      constructor
      · rintro (rfl | ⟨n', ps', r', b', t', hd', hrest⟩)
        · exact ⟨n, ps, r, b, type, List.mem_cons_self .., htype, rfl⟩
        · exact ⟨n', ps', r', b', t', List.mem_cons_of_mem _ hd', hrest⟩
      · rintro ⟨n', ps', r', b', t', hd', ht', rfl⟩
        rcases List.mem_cons.1 hd' with heq | hd'
        · cases heq
          cases htype.symm.trans ht'
          exact .inl rfl
        · exact .inr ⟨n', ps', r', b', t', hd', ht', rfl⟩

/-- What the class of a program declares. -/
theorem Compiled.mem_iff (h : Compiled ds c) (hl : l.declares) :
    l ∈ c ↔ l = .classDecl ("public " ++ mainClass) ∨
      (∃ n t, FieldIn ds n t ∧ l = .field true false n t none) ∨
      ∃ n t, MethodIn ds n t ∧ l = .method true n t := by
  cases h with
  | @intro fs items init ms hconst hfs hinit hms =>
    have hprolog : l ∈ prolog mainClass "java.lang.Object" false ↔
        l = .classDecl ("public " ++ mainClass) := by
      cases l <;> simp_all [prolog, Line.declares]
    rw [List.mem_append, List.mem_append, List.mem_append, hprolog, hfs.mem_iff,
      mem_methodCode hinit.isBody hl, MethodOf.mem_flatten_iff hms hl]
    constructor
    · rintro (((rfl | ⟨d, hd, n, s, x, t, hn, hs, hx, ht, rfl⟩) | rfl) |
        ⟨n, ps, r, b, t, hd, ht, rfl⟩)
      · exact .inl rfl
      · exact .inr (.inl ⟨n, t, ⟨⟨d, hd, hn⟩, s, x, hs, hx, ht⟩, by rw [hconst d hd]⟩)
      · exact .inr (.inr ⟨_, _, .inl ⟨rfl, rfl⟩, rfl⟩)
      · exact .inr (.inr ⟨n, t, .inr ⟨ps, r, b, (List.mem_filter.1 hd).1, ht⟩, rfl⟩)
    · rintro (rfl | ⟨n, t, ⟨⟨d, hd, hn⟩, s, x, hs, hx, ht⟩, rfl⟩ |
        ⟨n, t, ⟨rfl, rfl⟩ | ⟨ps, r, b, hd, ht⟩, rfl⟩)
      · exact .inl (.inl (.inl rfl))
      · exact .inl (.inl (.inr ⟨d, hd, n, s, x, t, hn, hs, hx, ht, by rw [hconst d hd]⟩))
      · exact .inl (.inr rfl)
      · exact .inr ⟨n, ps, r, b, t, List.mem_filter.2 ⟨hd, rfl⟩, ht, rfl⟩

theorem StructFields.mem_iff {es : List Node} (h : StructFields es c) :
    l ∈ c ↔ ∃ n u d, .pair n u ∈ es ∧ u.descriptor = .ok d ∧ l = .field false false n d none := by
  induction h with
  | nil => simp
  | @cons n t d es c hd _ ih =>
    rw [List.mem_cons, ih]
    constructor
    · rintro (rfl | ⟨n', u', d', hmem, hrest⟩)
      · exact ⟨n, t, d, List.mem_cons_self .., hd, rfl⟩
      · exact ⟨n', u', d', List.mem_cons_of_mem _ hmem, hrest⟩
    · rintro ⟨n', u', d', hmem, hd', rfl⟩
      rcases List.mem_cons.1 hmem with heq | hmem
      · cases heq
        cases hd.symm.trans hd'
        exact .inl rfl
      · exact .inr ⟨n', u', d', hmem, hd', rfl⟩

/-- What the class of a struct declares. -/
theorem ListingOf.mem_struct_iff {es ms is : List Node} {l : Listing}
    (h : ListingOf (.structType n es ms is) l) {line : Line} (hline : line.declares) :
    line ∈ l.code ↔ line = .classDecl ("public " ++ n) ∨
      (∃ m u d, .pair m u ∈ es ∧ u.descriptor = .ok d ∧ line = .field false false m d none) ∨
      line = .method false "<init>" "()V" := by
  cases h with
  | @struct _ _ _ _ fs _ hfs _ hcode =>
    have hprolog : line ∈ prolog n "java.lang.Object" false ↔
        line = .classDecl ("public " ++ n) := by
      cases line <;> simp_all [prolog, Line.declares]
    have hconstructor : line ∈ constructorCode ("L" ++ n ++ ";") ↔
        line = .method false "<init>" "()V" := by
      have hend : line ≠ .endMethod := by
        rintro rfl
        cases hline
      simp [constructorCode, Line.not_mem_of_isBody hline (constructorBody_isBody _), hend]
    rw [hcode, List.mem_append, List.mem_append, hprolog, hfs.mem_iff, hconstructor, or_assoc]

/-- An interface has no class. -/
theorem ListingOf.not_defines {ms : List Node} {l : Listing}
    (h : ListingOf (.interfaceType n ms) l) (c : String) : ¬ l.Defines c := by
  intro hdefines
  have hmem := hdefines.heading
  cases h with
  | @interface _ _ c' _ hms _ hcode =>
    rw [hcode] at hmem
    have noClass : ∀ {ms c'}, Prototypes ms c' → Line.classDecl ("public " ++ c) ∉ c' := by
      intro ms c' hms
      induction hms with
      | nil => exact List.not_mem_nil
      | cons _ _ ih => simpa using ih
    simp [prolog, noClass hms] at hmem

/-! ## The files of a class -/

theorem Listing.fileName_injective {c c' : String}
    (h : Listing.fileName c = Listing.fileName c') : c = c' := (String.append_left_inj _).1 h

theorem Workspace.Holds.mem_written_iff {w : Workspace} (h : w.Holds ds) {l : Listing} :
    l ∈ w.written ↔ Listing.last? w.listings l.file = some l := by
  rw [Workspace.written, List.mem_filterMap]
  constructor
  · rintro ⟨file, -, hl⟩
    rwa [(Listing.mem_of_last? hl).2]
  · intro hl
    have hlookup : w.files.lookup l.file = some l.code.render := by
      rw [h.files, Listing.lookup_write, hl]
      rfl
    obtain ⟨before, after, hfiles, -⟩ := List.lookup_eq_some_iff.1 hlookup
    exact ⟨(l.file, l.code.render), by simp [hfiles], hl⟩

theorem ListingOf.file_eq_iff {d : Node} {l : Listing} (h : ListingOf d l) (c : String) :
    l.file = Listing.fileName c ↔ d.name? = some c := by
  have same {n : String} : Listing.fileName n = Listing.fileName c ↔ some n = some c :=
    ⟨fun hn => congrArg some (Listing.fileName_injective hn), fun hn => by cases hn; rfl⟩
  cases h with
  | struct _ hfile _ | interface _ hfile _ =>
    rw [hfile]
    exact same

/-- The last listing of a name is that of the last declaration of the name. -/
theorem ListingOf.last_find? {ls : List Listing} (h : List.Forall₂ ListingOf ds ls) (c : String) :
    Option.Rel ListingOf (ds.reverse.find? fun d => d.name? = some c)
      (Listing.last? ls (Listing.fileName c)) := by
  have hreverse := List.forall₂_reverse_iff.2 h
  rw [Listing.last?]
  generalize ds.reverse = ds, ls.reverse = ls at hreverse
  induction hreverse with
  | nil => exact .none
  | @cons d l ds ls hd _ ih =>
    by_cases hname : d.name? = some c
    · rw [List.find?_cons_of_pos (by simpa using hname),
        List.find?_cons_of_pos (by simpa using (hd.file_eq_iff c).2 hname)]
      exact .some hd
    · rw [List.find?_cons_of_neg (by simpa using hname),
        List.find?_cons_of_neg (by simpa using mt (hd.file_eq_iff c).1 hname)]
      exact ih

namespace Workspace.Holds

variable {w : Workspace} {ds : List Node}

theorem main_written (h : w.Holds ds) : w.current ∈ w.written := by
  rw [h.mem_written_iff, Workspace.listings, Listing.last?_append_singleton, if_pos rfl]

theorem main_defines (h : w.Holds ds) : w.current.Defines mainClass :=
  ⟨h.name, (h.main.mem_iff rfl).2 (.inl rfl)⟩

variable {c n t : String}

/-- The file of a name other than that of the program is written from the last declaration. -/
theorem last_rel (h : w.Holds ds) (hc : c ≠ mainClass) :
    Option.Rel ListingOf (lastClass? ds c) (Listing.last? w.listings (Listing.fileName c)) := by
  have hname : w.current.file ≠ Listing.fileName c := by
    rw [h.name]
    exact fun heq => hc (Listing.fileName_injective heq).symm
  rw [lastClass?, if_neg hc, Workspace.listings, Listing.last?_append_singleton, if_neg hname]
  exact ListingOf.last_find? h.classes c

/-- The listings of classes: that of the program, and those of structs. -/
theorem defines_iff (h : w.Holds ds) {l : Listing} :
    l ∈ w.written ∧ l.Defines c ↔ (c = mainClass ∧ l = w.current) ∨
      ∃ es ms is, lastClass? ds c = some (.structType c es ms is) ∧
        l ∈ w.written ∧ ListingOf (.structType c es ms is) l := by
  constructor
  · rintro ⟨hl, hdefines⟩
    have hlast := h.mem_written_iff.1 hl
    rw [hdefines.file] at hlast
    by_cases hc : c = mainClass
    · subst hc
      rw [Workspace.listings, Listing.last?_append_singleton, if_pos h.name] at hlast
      exact .inl ⟨rfl, (Option.some.inj hlast).symm⟩
    · have hrel := h.last_rel hc
      rw [hlast] at hrel
      generalize hd : lastClass? ds c = o at hrel
      cases hrel with
      | @some d _ hof =>
        have hname := (hof.file_eq_iff c).1 hdefines.file
        cases hof with
        | @struct n es ms is fs _ hfs hfile hcode =>
          cases hname
          exact .inr ⟨es, ms, is, rfl, hl, .struct hfs hfile hcode⟩
        | interface hms hfile hcode =>
          exact absurd hdefines (ListingOf.not_defines (.interface hms hfile hcode) c)
  · rintro (⟨rfl, rfl⟩ | ⟨es, ms, is, -, hl, hof⟩)
    · exact ⟨h.main_written, h.main_defines⟩
    · exact ⟨hl, (hof.file_eq_iff c).2 rfl, (hof.mem_struct_iff rfl).2 (.inl rfl)⟩

/-- A struct that has its class has a listing. -/
theorem exists_listing (h : w.Holds ds) {es ms is : List Node}
    (hd : lastClass? ds c = some (.structType c es ms is)) :
    ∃ l ∈ w.written, ListingOf (.structType c es ms is) l := by
  have hc : c ≠ mainClass := by
    rintro rfl
    simp [lastClass?] at hd
  have hrel := h.last_rel hc
  rw [hd] at hrel
  generalize hl : Listing.last? w.listings (Listing.fileName c) = o at hrel
  cases hrel with
  | @some _ l hof =>
    have hfile := (hof.file_eq_iff c).2 rfl
    exact ⟨l, h.mem_written_iff.2 (hfile ▸ hl), hof⟩

/-- A class that is defined by some file. -/
theorem exists_defines_iff (h : w.Holds ds) :
    (∃ l ∈ w.written, l.Defines c) ↔ c = mainClass ∨ ∃ es, StructIn ds c es := by
  constructor
  · rintro ⟨l, hl, hdefines⟩
    rcases h.defines_iff.1 ⟨hl, hdefines⟩ with ⟨hc, -⟩ | ⟨es, ms, is, hd, -⟩
    · exact .inl hc
    · exact .inr ⟨es, ms, is, hd⟩
  · rintro (rfl | ⟨es, ms, is, hd⟩)
    · exact ⟨_, h.main_written, h.main_defines⟩
    · obtain ⟨l, hl, hof⟩ := h.exists_listing hd
      exact ⟨l, h.defines_iff.2 (.inr ⟨es, ms, is, hd, hl, hof⟩)⟩

theorem method_iff (h : w.Holds ds) :
    (∃ l ∈ w.written, l.Defines c ∧ .method true n t ∈ l.code) ↔
      c = mainClass ∧ MethodIn ds n t := by
  constructor
  · rintro ⟨l, hl, hdefines, hmem⟩
    rcases h.defines_iff.1 ⟨hl, hdefines⟩ with ⟨hc, rfl⟩ | ⟨es, ms, is, -, -, hof⟩
    · simpa [hc] using (h.main.mem_iff rfl).1 hmem
    · simpa using (hof.mem_struct_iff rfl).1 hmem
  · rintro ⟨rfl, hmethod⟩
    exact ⟨_, h.main_written, h.main_defines,
      (h.main.mem_iff rfl).2 (.inr (.inr ⟨n, t, hmethod, rfl⟩))⟩

/-- Static fields are those of the class of the program. -/
theorem static_iff (h : w.Holds ds) :
    (∃ l ∈ w.written, l.Defines c ∧ ∃ isFinal, .field true isFinal n t none ∈ l.code) ↔
      c = mainClass ∧ FieldIn ds n t := by
  constructor
  · rintro ⟨l, hl, hdefines, isFinal, hmem⟩
    rcases h.defines_iff.1 ⟨hl, hdefines⟩ with ⟨hc, rfl⟩ | ⟨es, ms, is, -, -, hof⟩
    · have hfield := (h.main.mem_iff rfl).1 hmem
      simp only [reduceCtorEq, Line.field.injEq, false_or, and_false, exists_false,
        or_false] at hfield
      obtain ⟨_, _, hfield, -, -, rfl, rfl, -⟩ := hfield
      exact ⟨hc, hfield⟩
    · simpa using (hof.mem_struct_iff rfl).1 hmem
  · rintro ⟨rfl, hfield⟩
    exact ⟨_, h.main_written, h.main_defines, false,
      (h.main.mem_iff rfl).2 (.inr (.inl ⟨n, t, hfield, rfl⟩))⟩

/-- Fields of objects are those of structs. -/
theorem field_iff (h : w.Holds ds) :
    (∃ l ∈ w.written, l.Defines c ∧ ∃ isFinal, .field false isFinal n t none ∈ l.code) ↔
      ∃ es u, StructIn ds c es ∧ .pair n u ∈ es ∧ u.descriptor = .ok t := by
  constructor
  · rintro ⟨l, hl, hdefines, isFinal, hmem⟩
    rcases h.defines_iff.1 ⟨hl, hdefines⟩ with ⟨-, rfl⟩ | ⟨es, ms, is, hd, -, hof⟩
    · simpa using (h.main.mem_iff rfl).1 hmem
    · have hfield := (hof.mem_struct_iff rfl).1 hmem
      simp only [reduceCtorEq, Line.field.injEq, false_or, or_false] at hfield
      obtain ⟨_, u, _, hpair, hu, -, -, rfl, rfl, -⟩ := hfield
      exact ⟨es, u, ⟨ms, is, hd⟩, hpair, hu⟩
  · rintro ⟨es, u, ⟨ms, is, hd⟩, hpair, hu⟩
    obtain ⟨l, hl, hof⟩ := h.exists_listing hd
    obtain ⟨-, hdefines⟩ := h.defines_iff.2 (.inr ⟨es, ms, is, hd, hl, hof⟩)
    exact ⟨l, hl, hdefines, false,
      (hof.mem_struct_iff rfl).2 (.inr (.inl ⟨n, u, t, hpair, hu, rfl⟩))⟩

/-- A reference resolves exactly if the program declares what it names. -/
theorem resolves_iff (h : w.Holds ds) (r : Reference) : r.Resolves w.written ↔ r.Declared ds := by
  cases r with
  | call m t =>
    constructor
    · rintro ⟨l, hl, c, n, hdefines, rfl, hmem⟩
      obtain ⟨rfl, hmethod⟩ := h.method_iff.1 ⟨l, hl, hdefines, hmem⟩
      exact ⟨n, rfl, hmethod⟩
    · rintro ⟨n, rfl, hmethod⟩
      obtain ⟨l, hl, hdefines, hmem⟩ := h.method_iff.2 ⟨rfl, hmethod⟩
      exact ⟨l, hl, _, n, hdefines, rfl, hmem⟩
  | static m t =>
    constructor
    · rintro ⟨l, hl, c, n, hdefines, rfl, hmem⟩
      obtain ⟨rfl, hfield⟩ := h.static_iff.1 ⟨l, hl, hdefines, hmem⟩
      exact ⟨n, rfl, hfield⟩
    · rintro ⟨n, rfl, hfield⟩
      obtain ⟨l, hl, hdefines, hmem⟩ := h.static_iff.2 ⟨rfl, hfield⟩
      exact ⟨l, hl, _, n, hdefines, rfl, hmem⟩
  | object c => exact h.exists_defines_iff
  | construct m t =>
    constructor
    · rintro ⟨l, hl, c, hdefines, rfl⟩
      exact ⟨c, rfl, h.exists_defines_iff.1 ⟨l, hl, hdefines⟩⟩
    · rintro ⟨c, rfl, hc⟩
      obtain ⟨l, hl, hdefines⟩ := h.exists_defines_iff.2 hc
      exact ⟨l, hl, c, hdefines, rfl⟩
  | field m t =>
    constructor
    · rintro ⟨l, hl, c, n, hdefines, rfl, hmem⟩
      obtain ⟨es, u, hstruct, hpair, hu⟩ := h.field_iff.1 ⟨l, hl, hdefines, hmem⟩
      exact ⟨c, n, es, u, rfl, hstruct, hpair, hu⟩
    · rintro ⟨c, n, es, u, rfl, hstruct, hpair, hu⟩
      obtain ⟨l, hl, hdefines, hmem⟩ := h.field_iff.2 ⟨es, u, hstruct, hpair, hu⟩
      exact ⟨l, hl, c, n, hdefines, rfl, hmem⟩
  | method m t => exact Iff.rfl

end Workspace.Holds

end MiniGoc
