import MiniGoc.Proofs.Code
import Mathlib.Data.List.Induction

/-!
# The files of a program

Every file is the text of a listing (`Gen.run_files`).  Where several listings have the name
of a file, it holds the text of the last one; the class of the program comes last of all.

The methods of a listing are read off its lines (`Code.bodies`): what stands between a
heading and the end of a method.  There are four kinds of them in the files of a program, so
what holds of each kind holds of all methods (`Gen.run_bodies`).
-/

namespace MiniGoc

open Emit

/-! ## Files and listings -/

def Listing.last? (ls : List Listing) (file : String) : Option Listing :=
  ls.reverse.find? fun l => l.file = file

theorem Listing.last?_append_singleton (ls : List Listing) (l : Listing) (file : String) :
    Listing.last? (ls ++ [l]) file =
      if l.file = file then some l else Listing.last? ls file := by
  by_cases h : l.file = file <;> simp [Listing.last?, h]

variable {l : Listing} {w : Workspace} {ds : List Node} {c : Code} {globals : List Symbol}

theorem Listing.mem_of_last? {ls : List Listing} {file : String}
    (h : Listing.last? ls file = some l) : l ∈ ls ∧ l.file = file := by
  refine ⟨List.mem_reverse.1 (List.mem_of_find?_eq_some h), ?_⟩
  simpa using List.find?_some h

theorem Gen.lookup_setFile_of_ne {name text file : String} (h : file ≠ name) :
    ∀ files, (Gen.setFile name text files).lookup file = files.lookup file
  | [] => by rw [Gen.setFile, List.lookup_cons, beq_false_of_ne h]
  | (n, t) :: files => by
    simp only [Gen.setFile]
    split
    · next hn =>
      subst hn
      rw [List.lookup_cons, List.lookup_cons, beq_false_of_ne h]
    · rw [List.lookup_cons, List.lookup_cons, Gen.lookup_setFile_of_ne h files]

/-- A file holds the text of its last listing. -/
theorem Listing.lookup_write (ls : List Listing) (file : String) :
    (Listing.write [] ls).lookup file = (Listing.last? ls file).map fun l => l.code.render := by
  induction ls using List.reverseRecOn with
  | nil => rfl
  | append_singleton ls l ih =>
    rw [Listing.write, List.foldl_append, Listing.last?_append_singleton]
    show (Gen.setFile l.file l.code.render (Listing.write [] ls)).lookup file = _
    split
    · next h =>
      subst h
      exact Gen.lookup_setFile _ _ _
    · next h => rw [Gen.lookup_setFile_of_ne (Ne.symm h), ih]

theorem Gen.names_setFile (name text : String) :
    ∀ files, (Gen.setFile name text files).map Prod.fst =
      if name ∈ files.map Prod.fst then files.map Prod.fst else files.map Prod.fst ++ [name]
  | [] => rfl
  | (n, t) :: files => by
    by_cases h : n = name
    · simp [Gen.setFile, h]
    · have hne : ¬ name = n := fun h' => h h'.symm
      rw [Gen.setFile, if_neg h, List.map_cons, Gen.names_setFile name text files]
      by_cases hmem : name ∈ files.map Prod.fst <;> simp [hmem, hne]

theorem Listing.names_write_nodup (ls : List Listing) :
    ((Listing.write [] ls).map Prod.fst).Nodup := by
  induction ls using List.reverseRecOn with
  | nil => exact List.nodup_nil
  | append_singleton ls l ih =>
    rw [Listing.write, List.foldl_append]
    show ((Gen.setFile l.file l.code.render (Listing.write [] ls)).map Prod.fst).Nodup
    rw [Gen.names_setFile]
    split
    · exact ih
    · next h => exact List.nodup_append.2 ⟨ih, by simp, by grind⟩

theorem lookup_of_mem {files : List (String × String)} (hnodup : (files.map Prod.fst).Nodup)
    {file : String × String} (hfile : file ∈ files) : files.lookup file.1 = some file.2 := by
  induction files with
  | nil => cases hfile
  | cons f files ih =>
    obtain ⟨n, t⟩ := f
    rw [List.map_cons, List.nodup_cons] at hnodup
    rcases List.mem_cons.1 hfile with rfl | hmem
    · exact List.lookup_cons_self
    · have hne : file.1 ≠ n := by
        rintro hn
        have := List.mem_map_of_mem (f := Prod.fst) hmem
        exact hnodup.1 (hn ▸ this)
      rw [List.lookup_cons, beq_false_of_ne hne]
      exact ih hnodup.2 hmem

/-- The listings that the files were written from, in the order of the files. -/
def Workspace.written (w : Workspace) : List Listing :=
  w.files.filterMap fun file => Listing.last? w.listings file.1

theorem Workspace.mem_listings_of_mem_written (h : l ∈ w.written) : l ∈ w.listings := by
  obtain ⟨file, -, hl⟩ := List.mem_filterMap.1 h
  exact (Listing.mem_of_last? hl).1

/-- The files of a program that has been generated are the texts of listings. -/
theorem Gen.run_files (hds : (Node.program ds).isProgram)
    (hgen : Gen.run (.program ds) = (.ok (), w)) :
    w.files = w.written.map fun l => (l.file, l.code.render) := by
  have hfiles := (Gen.run_holds hds hgen).files
  have found : ∀ file ∈ w.files, ∃ l, Listing.last? w.listings file.1 = some l ∧
      (l.file, l.code.render) = file := by
    intro file hfile
    have hlookup := lookup_of_mem (hfiles ▸ Listing.names_write_nodup _) hfile
    rw [hfiles, Listing.lookup_write] at hlookup
    obtain ⟨l, hl, htext⟩ := Option.map_eq_some_iff.1 hlookup
    exact ⟨l, hl, Prod.ext (Listing.mem_of_last? hl).2 htext⟩
  rw [Workspace.written]
  generalize w.files = files at found
  induction files with
  | nil => rfl
  | cons file files ih =>
    obtain ⟨l, hl, hfile⟩ := found file (List.mem_cons_self ..)
    rw [List.filterMap_cons, hl, List.map_cons, hfile,
      ← ih fun f hf => found f (List.mem_cons_of_mem _ hf)]

/-! ## The methods of a listing -/

/-- Whether a line is the heading of a method. -/
def Line.isHeading : Line → Bool
  | method .. | abstractMethod .. => true
  | _ => false

namespace Code

/-- The lines of each method, those between its heading and its end. -/
def bodies : Code → List Code
  | [] => []
  | l :: c =>
    if l.isHeading then c.takeWhile (fun l => l != .endMethod) :: bodies c else bodies c

theorem bodies_append_of_all {c : Code} (h : c.all fun l => !l.isHeading) (d : Code) :
    bodies (c ++ d) = bodies d := by
  induction c with
  | nil => rfl
  | cons l c ih =>
    simp only [List.all_cons, Bool.and_eq_true, Bool.not_eq_true'] at h
    rw [List.cons_append, bodies, if_neg (by simp [h.1])]
    exact ih h.2

/-- A method with its heading adds its lines. -/
theorem bodies_method {l : Line} (hl : l.isHeading) {body : Code} (hbody : body.all Line.isBody)
    (rest : Code) : bodies (l :: body ++ .endMethod :: rest) = body :: bodies rest := by
  have inside : ∀ x ∈ body, (x != .endMethod) = true := by
    intro x hx
    have := List.all_eq_true.1 hbody x hx
    cases x <;> simp_all [Line.isBody]
  have takes : (body ++ .endMethod :: rest).takeWhile (fun l => l != .endMethod) = body := by
    rw [List.takeWhile_append_of_pos inside]
    simp
  have noHeading : body.all fun l => !l.isHeading := by
    rw [List.all_eq_true]
    intro x hx
    have := List.all_eq_true.1 hbody x hx
    cases x <;> simp_all [Line.isBody, Line.isHeading]
  have skips : bodies (body ++ .endMethod :: rest) = bodies rest := by
    rw [bodies_append_of_all noHeading]
    rfl
  rw [List.cons_append, bodies, if_pos hl, takes, skips]

end Code

theorem StructFields.noHeading {es : List Node} (h : StructFields es c) :
    c.all fun l => !l.isHeading := by
  induction h with
  | nil => rfl
  | cons _ _ ih => simpa [Line.isHeading] using ih

theorem Fields.noHeading {items : List (Symbol × Node)} (h : Fields globals ds c items) :
    c.all fun l => !l.isHeading := by
  induction h with
  | nil => rfl
  | field _ _ _ _ _ ih => simpa [Line.isHeading] using ih
  | skip _ _ ih => exact ih

theorem Prototypes.bodies {ms : List Node} (h : Prototypes ms c) :
    ∀ body ∈ c.bodies, body = [] := by
  induction h with
  | nil => simp [Code.bodies]
  | @cons n ps r d ms c _ _ ih =>
    have empty : Code.bodies (Line.abstractMethod n d :: [] ++ .endMethod :: c) = [] :: c.bodies :=
      Code.bodies_method rfl rfl c
    rw [List.singleton_append] at empty
    rw [empty]
    simpa using ih

theorem constructorBody_isBody (type : String) : (constructorBody type).all Line.isBody := rfl

/-- The methods of a struct or an interface are a constructor, or have no lines. -/
theorem ListingOf.bodies {d : Node} (h : ListingOf d l) :
    ∀ body ∈ l.code.bodies, body = [] ∨ ∃ type, body = constructorBody type := by
  intro body hbody
  cases h with
  | @struct n es ms is fs l hfs _ hcode =>
    rw [hcode, List.append_assoc,
      Code.bodies_append_of_all (by simp [prolog, Line.isHeading]),
      Code.bodies_append_of_all hfs.noHeading, constructorCode,
      Code.bodies_method rfl (constructorBody_isBody _)] at hbody
    exact .inr ⟨_, List.mem_singleton.1 hbody⟩
  | @interface n ms c l hms _ hcode =>
    rw [hcode, Code.bodies_append_of_all (by simp [prolog, Line.isHeading])] at hbody
    exact .inl (hms.bodies body hbody)

theorem MethodOf.bodies_flatten {ms : List Code} (h : List.Forall₂ (MethodOf globals) ds ms) :
    List.Forall₂ (fun d body => ∃ n, BodyOf globals d (n, body)) ds (Code.bodies ms.flatten) := by
  induction h with
  | nil => exact .nil
  | cons hm _ ih =>
    cases hm with
    | intro _ hbody =>
      rw [List.flatten_cons, methodCode, List.append_assoc, List.singleton_append,
        Code.bodies_method rfl hbody.isBody]
      exact .cons ⟨_, .intro hbody⟩ ih

/-- The fields with an initialiser are declared. -/
theorem Fields.mem_items {items : List (Symbol × Node)} (h : Fields globals ds c items)
    {s : Symbol} {d : Node} (hmem : (s, d) ∈ items) : d ∈ ds ∧ ∃ n x, d.declared? = some n ∧
      Symbol.find? n globals = some s ∧ s.home = .member mainClass x := by
  induction h with
  | nil => cases hmem
  | @field d' ds n s' x t c items hn hs hx _ _ ih =>
    rcases List.mem_append.1 hmem with hmem | hmem
    · split at hmem
      · cases List.mem_singleton.1 hmem
        exact ⟨List.mem_cons_self .., n, x, hn, hs, hx⟩
      · cases hmem
    · exact ⟨List.mem_cons_of_mem _ (ih hmem).1, (ih hmem).2⟩
  | skip _ _ ih => exact ⟨List.mem_cons_of_mem _ (ih hmem).1, (ih hmem).2⟩

/-- The methods of the class of a program. -/
theorem Compiled.bodies (h : Compiled ds c) :
    ∃ items init bodies, (∀ item ∈ items, item.2 ∈ ds) ∧
      InitBody (globalSymbols ds) items init ∧ c.bodies = init :: bodies ∧
      List.Forall₂ (fun d body => ∃ n, BodyOf (globalSymbols ds) d (n, body))
        (ds.filter Node.isFunc) bodies := by
  cases h with
  | @intro fs items init ms _ hfs hinit hms =>
    refine ⟨items, init, Code.bodies ms.flatten, fun item hitem => (hfs.mem_items hitem).1, hinit,
      ?_, MethodOf.bodies_flatten hms⟩
    rw [List.append_assoc, List.append_assoc,
      Code.bodies_append_of_all (by simp [prolog, Line.isHeading]),
      Code.bodies_append_of_all hfs.noHeading, methodCode, List.append_assoc,
      List.singleton_append, Code.bodies_method rfl hinit.isBody]

theorem exists_of_mem_right {α β : Type} {R : α → β → Prop} {as : List α} {bs : List β}
    (h : List.Forall₂ R as bs) {b : β} (hb : b ∈ bs) : ∃ a ∈ as, R a b := by
  induction h with
  | nil => cases hb
  | @cons a _ as _ hab _ ih =>
    rcases List.mem_cons.1 hb with rfl | hb
    · exact ⟨a, List.mem_cons_self .., hab⟩
    · obtain ⟨a', ha', hab'⟩ := ih hb
      exact ⟨a', List.mem_cons_of_mem _ ha', hab'⟩

/-- What holds of every kind of method holds of the methods in all files of a program. -/
theorem Gen.run_bodies {P : Code → Prop} (hds : (Node.program ds).isProgram)
    (hgen : Gen.run (.program ds) = (.ok (), w)) (hnone : P [])
    (hconstructor : ∀ type, P (constructorBody type))
    (hinit : ∀ items body, (∀ item ∈ items, item.2 ∈ ds) →
      InitBody (globalSymbols ds) items body → P body)
    (hfunc : ∀ d ∈ ds, ∀ m, BodyOf (globalSymbols ds) d m → P m.2) :
    ∀ l ∈ w.written, ∀ body ∈ l.code.bodies, P body := by
  intro l hl body hbody
  have holds := Gen.run_holds hds hgen
  rcases List.mem_append.1 (Workspace.mem_listings_of_mem_written hl) with hother | hmain
  · obtain ⟨d, -, hd⟩ := exists_of_mem_right holds.classes hother
    rcases hd.bodies body hbody with rfl | ⟨type, rfl⟩
    · exact hnone
    · exact hconstructor type
  · obtain rfl := List.mem_singleton.1 hmain
    obtain ⟨items, init, bodies, hitems, hbodyInit, hbodies, hfuncs⟩ := holds.main.bodies
    rw [hbodies] at hbody
    rcases List.mem_cons.1 hbody with rfl | hbody
    · exact hinit items _ hitems hbodyInit
    · obtain ⟨d, hd, n, hm⟩ := exists_of_mem_right hfuncs hbody
      exact hfunc d (List.mem_filter.1 hd).1 _ hm

end MiniGoc
