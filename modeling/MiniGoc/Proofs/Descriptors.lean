import MiniGoc.Assembly.Descriptor
import MiniGoc.Proofs.Relexing
import Mathlib.Data.List.Forall2

/-!
# Descriptors of methods

The descriptor of a method has those of its parameters one after the other, with nothing between
them.  It can still be read in one way only.  A descriptor of a type starts with a bracket for
each dimension, and then has a letter, or a name that ends at a semicolon.  So from the characters
that start with it, its dimensions, its base and the rest can be told (`readType`), and the closing
parenthesis starts no descriptor.  Class names are identifiers and have no semicolon; nor do they
have a slash, as the class of texts does.
-/

namespace MiniGoc

namespace Node

/-- The types that parameters and results of methods have: simple types, structs and interfaces
that have an identifier for a name, and arrays of such types. -/
inductive IsComponent : Node → Prop where
  | simple {t : Node} : t ∈ [intType, floatType, boolType, stringType, voidType] → IsComponent t
  | struct {n : String} {es ms is : List Node} : TokenKind.ident.Spells n.toList →
      IsComponent (structType n es ms is)
  | interface {n : String} {ms : List Node} : TokenKind.ident.Spells n.toList →
      IsComponent (interfaceType n ms)
  | array {ds : List Node} {e : Node} : IsComponent e → IsComponent (arrayType ds e)

/-- How many dimensions a type has, also those of its elements. -/
def rank : Node → Nat
  | arrayType ds e => ds.length + rank e
  | _ => 0

/-- What a type has dimensions over.  Of structs and interfaces only the name is left. -/
def base : Node → Node
  | arrayType _ e => base e
  | structType n _ _ _ | interfaceType n _ => id n
  | t => t

/-- The same number of dimensions over the same base. -/
structure SameComponent (t u : Node) : Prop where
  rank : t.rank = u.rank
  base : t.base = u.base

end Node

namespace Descriptor

/-- The base that a descriptor without brackets names, and what comes after it. -/
def readBase : List Char → Option (Node × List Char)
  | 'I' :: cs => some (.intType, cs)
  | 'F' :: cs => some (.floatType, cs)
  | 'Z' :: cs => some (.boolType, cs)
  | 'V' :: cs => some (.voidType, cs)
  | 'L' :: cs =>
    let name := String.ofList (cs.takeWhile (· != ';'))
    some (if name = "java/lang/String" then .stringType else .id name,
      (cs.dropWhile (· != ';')).tail)
  | _ => none

/-- The dimensions and the base of the type whose descriptor comes first, and what comes after
it. -/
def readType : List Char → Option (Nat × Node × List Char)
  | '[' :: cs => (readType cs).map fun p => (p.1 + 1, p.2)
  | cs => (readBase cs).map fun p => (0, p)

theorem readBase_name {n : String} (hn : ';' ∉ n.toList) (rest : List Char) :
    readBase ('L' :: (n.toList ++ ';' :: rest)) =
      some (if n = "java/lang/String" then .stringType else .id n, rest) := by
  have hname : ∀ c ∈ n.toList, (c != ';') = true := fun c hc => by
    simpa using fun h : c = ';' => hn (h ▸ hc)
  simp only [readBase, List.takeWhile_append_of_pos hname, List.dropWhile_append_of_pos hname]
  simp

theorem readType_brackets (ds : List Node) (cs : List Char) :
    readType ((Node.brackets ds).toList ++ cs) =
      (readType cs).map fun p => (ds.length + p.1, p.2) := by
  induction ds with
  | nil => simp [Node.brackets]
  | cons d ds ih =>
    simp only [Node.brackets, String.toList_ofList, List.map_cons, List.cons_append] at ih ⊢
    rw [readType, ih, Option.map_map]
    congr 1
    funext p
    exact Prod.ext (Nat.add_right_comm ..) rfl

theorem not_mem_ident {w : List Char} (h : TokenKind.ident.Spells w) : ';' ∉ w ∧ '/' ∉ w :=
  ⟨fun hw => Pattern.Matches.not_mem h (by decide) (List.mem_map_of_mem hw),
    fun hw => Pattern.Matches.not_mem h (by decide) (List.mem_map_of_mem hw)⟩

theorem readType_class {n : String} (hn : TokenKind.ident.Spells n.toList) (rest : List Char) :
    readType (("L" ++ n ++ ";").toList ++ rest) = some (0, .id n, rest) := by
  obtain ⟨hsemicolon, hslash⟩ := not_mem_ident hn
  have hne : n ≠ "java/lang/String" := by
    rintro rfl
    exact hslash (by decide)
  have hread := readBase_name hsemicolon rest
  rw [if_neg hne] at hread
  simp only [String.toList_append, List.append_assoc]
  exact congrArg (Option.map fun p => (0, p)) hread

/-- A descriptor can be read, whatever comes after it. -/
theorem readType_descriptor {t : Node} (h : t.IsComponent) :
    ∃ d, t.descriptor = .ok d ∧
      ∀ rest, readType (d.toList ++ rest) = some (t.rank, t.base, rest) := by
  induction h with
  | @simple t h =>
    simp only [List.mem_cons, List.not_mem_nil, or_false] at h
    obtain rfl | rfl | rfl | rfl | rfl := h
    case inr.inr.inr.inl =>
      exact ⟨_, rfl, fun rest => congrArg (Option.map fun p => (0, p))
        (readBase_name (n := "java/lang/String") (by decide) rest)⟩
    all_goals exact ⟨_, rfl, fun rest => rfl⟩
  | struct hn | interface hn => exact ⟨_, rfl, readType_class hn⟩
  | @array ds e _ ih =>
    obtain ⟨d, hd, hread⟩ := ih
    refine ⟨Node.brackets ds ++ d, ?_, fun rest => ?_⟩
    · rw [Node.descriptor, hd]
      rfl
    · rw [String.toList_append, List.append_assoc, readType_brackets, hread]
      rfl

/-- Characters that can be read as types, one after the other. -/
inductive Row : List Node → List Char → Prop where
  | nil : Row [] []
  | cons {t : Node} {ts : List Node} {d cs : List Char} :
      (∀ rest, readType (d ++ rest) = some (t.rank, t.base, rest)) → Row ts cs →
      Row (t :: ts) (d ++ cs)

theorem row_descriptors {ts : List Node} (h : ∀ t ∈ ts, t.IsComponent) :
    ∃ d, Node.descriptors ts = .ok d ∧ Row ts d.toList := by
  induction ts with
  | nil => exact ⟨"", rfl, .nil⟩
  | cons t ts ih =>
    obtain ⟨d, hd, hread⟩ := readType_descriptor (h t (List.mem_cons_self ..))
    obtain ⟨e, he, hrow⟩ := ih fun t ht => h t (List.mem_cons_of_mem _ ht)
    refine ⟨d ++ e, ?_, ?_⟩
    · rw [Node.descriptors, hd, he]
      rfl
    · rw [String.toList_append]
      exact .cons hread hrow

/-- Up to a parenthesis, characters are a row of types in one way only. -/
theorem Row.inj {ps qs : List Node} {cs ds x y : List Char} (hp : Row ps cs) (hq : Row qs ds)
    (h : cs ++ ')' :: x = ds ++ ')' :: y) : List.Forall₂ Node.SameComponent ps qs ∧ x = y := by
  induction hp generalizing qs ds with
  | nil =>
    cases hq with
    | nil => exact ⟨.nil, (List.cons.inj h).2⟩
    | cons hread _ =>
      rw [List.append_assoc] at h
      cases (congrArg readType h).trans (hread _)
  | cons hread _ ih =>
    rw [List.append_assoc] at h
    cases hq with
    | nil => cases (congrArg readType h).symm.trans (hread _)
    | cons hread' hrow =>
      rw [List.append_assoc] at h
      have hsame := (hread _).symm.trans ((congrArg readType h).trans (hread' _))
      simp only [Option.some.injEq, Prod.mk.injEq] at hsame
      obtain ⟨hrank, hbase, hrest⟩ := hsame
      obtain ⟨hall, hxy⟩ := ih hrow hrest
      exact ⟨.cons ⟨hrank, hbase⟩ hall, hxy⟩

/-- Methods that have the same descriptor have the same number of parameters, and their parameters
and their results are the same up to the sizes of arrays: they have as many dimensions over the
same base. -/
theorem components_of_eq {ps qs : List Node} {r s : Node} (hM : ∀ t ∈ r :: ps, t.IsComponent)
    (hN : ∀ t ∈ s :: qs, t.IsComponent)
    (h : (Node.funcType ps r).descriptor = (Node.funcType qs s).descriptor) :
    ps.length = qs.length ∧ List.Forall₂ Node.SameComponent ps qs ∧ r.SameComponent s := by
  rw [List.forall_mem_cons] at hM hN
  obtain ⟨d, hd, hp⟩ := row_descriptors hM.2
  obtain ⟨e, he, hq⟩ := row_descriptors hN.2
  obtain ⟨dr, hdr, hr⟩ := readType_descriptor hM.1
  obtain ⟨ds, hds, hs⟩ := readType_descriptor hN.1
  rw [Node.descriptor, Node.descriptor, hd, he, hdr, hds] at h
  have hchars := congrArg String.toList (Except.ok.inj h)
  simp only [String.toList_append, List.append_assoc] at hchars
  obtain ⟨hall, hresult⟩ := hp.inj hq (List.cons.inj hchars).2
  have hsame := (hr []).symm.trans ((congrArg (fun x => readType (x ++ [])) hresult).trans (hs []))
  simp only [Option.some.injEq, Prod.mk.injEq] at hsame
  exact ⟨hall.length_eq, hall, hsame.1, hsame.2.1⟩

/-- An array of arrays and an array with as many sizes, and a struct and an interface of one
name, have one descriptor. -/
theorem components_of_eq_collapsed :
    let grid := Node.arrayType [.intLit (.int 2), .id "n"] (.arrayType [.id "n"] .floatType)
    let cube := Node.arrayType [.id "a", .id "b", .id "c"] .floatType
    let point := Node.structType "Point" [] [] []
    List.Forall₂ Node.SameComponent [grid, point] [cube, .interfaceType "Point" []] ∧
      Node.SameComponent .stringType .stringType := by
  intro grid cube point
  have hname : TokenKind.ident.Spells "Point".toList :=
    (@TokenKind.spells_of_longest .ident "Point".toList 5 (by decide) (by decide)).2.2
  refine (@components_of_eq [grid, point] [cube, .interfaceType "Point" []] .stringType
    .stringType ?_ ?_ rfl).2
  · simpa using ⟨.simple (by simp), .array (.array (.simple (by simp))), .struct hname⟩
  · simpa using ⟨.simple (by simp), .array (.simple (by simp)), .interface hname⟩

end Descriptor

end MiniGoc
