import MiniGoc.Proofs.Forms

/-!
# The names of a program are those of its source

`Node.idents` lists the names in a node, and `SyntaxTree.identifiers` those among tokens.  The node
of a source has the names of its tokens in their order, except that a compound assignment has its
target twice, that each name of a group of parameters has the type of the group, and that the
parameters of the methods of an interface have no names.  `SyntaxTree.amended` makes these edits
on the tree.

What a phrase says is compared with its node by `SyntaxTree.Said`.  The step is
`SyntaxTree.said_of_makes`, with one case for each form of a phrase, and the run over a tree
`SyntaxTree.said_of_derives`.
-/

namespace MiniGoc

open Grammar (miniGo)

/-! ## The names in a node -/

namespace Node

mutual

/-- The names in a node, in the order in which a source has them. -/
def idents : Node → List String
  | none | bool _ | int _ | float _ | text _ => []
  | list xs => identsAll xs
  | pair n v => n :: v.idents
  | program ds => identsAll ds
  | param n t => n :: t.idents
  | var n t i => n :: (t.idents ++ i.idents)
  | const n t i => n :: (t.idents ++ i.idents)
  | func n ps r b => n :: (identsAll ps ++ (r.idents ++ b.idents))
  | method x t f => x :: (t.idents ++ f.idents)
  | prototype n ps r => n :: (identsAll ps ++ r.idents)
  | intType | floatType | boolType | stringType | voidType => []
  | arrayType ds e => identsAll ds ++ e.idents
  | interfaceType n ms => n :: identsAll ms
  | structType n es ms is => n :: (identsAll es ++ (identsAll ms ++ identsAll is))
  | funcType ps r => identsAll ps ++ r.idents
  | checkedFuncType ps r => identsAll ps ++ r.idents
  | symbol n t => n :: t.idents
  | block ss => identsAll ss
  | assign l e => l.idents ++ e.idents
  | ifElse c y n => c.idents ++ (y.idents ++ n.idents)
  | forBasic c b => c.idents ++ b.idents
  | forStep i c u b => i.idents ++ (c.idents ++ (u.idents ++ b.idents))
  | forEach i v a b => i.idents ++ (v.idents ++ (a.idents ++ b.idents))
  | breakLoop | continueLoop => []
  | ret e => e.idents
  | id n => [n]
  | cell a is => a.idents ++ identsAll is
  | field r n => r.idents ++ [n]
  | binary _ l r => l.idents ++ r.idents
  | unary _ e => e.idents
  | call n as => n :: identsAll as
  | methodCall r n as => r.idents ++ n :: identsAll as
  | intLit v | floatLit v | stringLit v | boolLit v => v.idents
  | arrayLit ds e v => identsAll ds ++ (e.idents ++ v.idents)
  | structLit n es => n :: identsAll es
  | nilLit => []

/-- The names in nodes. -/
def identsAll : List Node → List String
  | [] => []
  | n :: ns => n.idents ++ identsAll ns

end

attribute [local simp] idents identsAll

@[simp] theorem identsAll_eq (ns : List Node) : identsAll ns = ns.flatMap idents := by
  induction ns with
  | nil => rw [identsAll]; rfl
  | cons n ns ih => rw [identsAll, ih, List.flatMap_cons]

end Node

namespace SyntaxTree

/-! ## The names in a source, as a node has them -/

/-- The texts of the identifiers among tokens. -/
def identifiers (ts : TokenList) : List String :=
  (ts.filter (·.kind == .ident)).map Token.text

/-- Whether an assignment applies an operator. -/
def isCompound (cs : Forest) : Bool :=
  cs.any fun c => c.isRule .assignOperator && c.text != ":="

def isTarget (c : SyntaxTree) : Bool := c.isRule .lhs || c.isToken .ident

/-- A child of a group of parameters, with the type of the group behind a name, or in place of it
where parameters are not `named`. -/
def typedName (named : Bool) (type : Forest) (c : SyntaxTree) : Forest :=
  if c.isToken .ident then (if named then [c] else []) ++ type
  else if c.isRule .typ then [] else [c]

/-- The children of a node, with the target of a compound assignment twice, and with the type of
parameters at each of their names. -/
def rearranged (named : Bool) (r : Rule) (cs : Forest) : Forest :=
  match r with
  | .assignStmt | .update => if isCompound cs then cs.filter isTarget ++ cs else cs
  | .paramDecl => cs.flatMap (typedName named (cs.filter (Tree.isRule .typ)))
  | _ => cs

/-- Whether the parameters below a rule are named.  Those of the methods of an interface are
not. -/
def namedBelow (named : Bool) : Rule → Bool
  | .interfaceMethod => false
  | .paramList => named
  | _ => true

mutual

/-- A tree with the children of all nodes rearranged. -/
def amended (named : Bool) : SyntaxTree → SyntaxTree
  | .leaf t => .leaf t
  | .node r cs => .node r (rearranged named r (amendedAll (namedBelow named r) cs))

/-- Trees with the children of all nodes rearranged. -/
def amendedAll (named : Bool) : Forest → Forest
  | [] => []
  | c :: cs => amended named c :: amendedAll named cs

end

@[simp] theorem amendedAll_eq (b : Bool) (cs : Forest) : amendedAll b cs = cs.map (amended b) := by
  induction cs with
  | nil => rw [amendedAll]; rfl
  | cons c cs ih => rw [amendedAll, ih, List.map_cons]

/-- The names in a tree, as a node has them. -/
def said (named : Bool) (t : SyntaxTree) : List String := identifiers (amended named t).leaves

/-- The names in the children of a node, as a node has them. -/
def saidBelow (named : Bool) (r : Rule) (cs : Forest) : List String :=
  identifiers (Tree.leavesList (rearranged named r (cs.map (amended (namedBelow named r)))))

@[simp] theorem identifiers_nil : identifiers [] = [] := rfl

theorem identifiers_cons (t : Token TokenKind) (ts : TokenList) :
    identifiers (t :: ts) = (if t.kind = .ident then [t.text] else []) ++ identifiers ts := by
  by_cases h : t.kind = .ident <;> simp [identifiers, h]

@[simp] theorem identifiers_append (ts us : TokenList) :
    identifiers (ts ++ us) = identifiers ts ++ identifiers us := by
  simp [identifiers]

theorem identifiers_leavesList (b : Bool) (cs : Forest) :
    identifiers (Tree.leavesList (cs.map (amended b))) = cs.flatMap (said b) := by
  induction cs with
  | nil => simp
  | cons c cs ih => simp [ih, said]

theorem said_leaf (b : Bool) (t : Token TokenKind) :
    said b (.leaf t) = if t.kind = .ident then [t.text] else [] := by
  by_cases h : t.kind = .ident <;> simp [said, amended, identifiers, h]

theorem said_node (b : Bool) (r : Rule) (cs : Forest) :
    said b (.node r cs) = saidBelow b r cs := by
  simp [said, amended, saidBelow]

/-! ### Punctuation does not matter -/

variable {mute : List TokenKind}

theorem identifiers_kept (h : .ident ∉ mute) (cs : Forest) :
    identifiers (Tree.leavesList (kept mute cs)) = identifiers (Tree.leavesList cs) := by
  induction cs with
  | nil => rfl
  | cons c cs ih =>
    cases c with
    | node r ds => simp [ih]
    | leaf t =>
      by_cases ht : t.kind ∈ mute
      · have hne : t.kind ≠ .ident := fun e => h (e ▸ ht)
        simp [kept_mute ht, ih, identifiers_cons, hne]
      · simp [kept_leaf ht, ih, identifiers_cons]

variable {p : SyntaxTree → Bool} {r s : Rule} {cs : Forest} {n : Node} {c : SyntaxTree}

theorem and_counts (hp : ∀ c, p c = true → counts mute c = true) :
    (fun c => counts mute c && p c) = p := by
  funext c
  cases h : p c with
  | true => simp [hp c h]
  | false => simp

theorem filter_kept (hp : ∀ c, p c = true → counts mute c = true) (cs : Forest) :
    (kept mute cs).filter p = cs.filter p := by
  simp only [kept, List.filter_filter, Bool.and_comm _ (counts mute _), and_counts hp]

theorem any_kept (hp : ∀ c, p c = true → counts mute c = true) (cs : Forest) :
    (kept mute cs).any p = cs.any p := by
  rw [kept, List.any_filter, and_counts hp]

theorem kept_filter (p : SyntaxTree → Bool) (cs : Forest) :
    kept mute (cs.filter p) = (kept mute cs).filter p := by
  simp [kept, List.filter_filter, Bool.and_comm]

theorem kept_flatMap {f g : SyntaxTree → Forest} (cs : Forest)
    (h : ∀ c, kept mute (f c) = if counts mute c then g c else []) :
    kept mute (cs.flatMap f) = (kept mute cs).flatMap g := by
  induction cs with
  | nil => rfl
  | cons c cs ih =>
    rw [List.flatMap_cons, kept_append, h, ih]
    cases hc : counts mute c <;> simp [kept, hc]

theorem kept_rearranged (h : .ident ∉ mute) (b : Bool) (r : Rule) (cs : Forest) :
    kept mute (rearranged b r cs) = rearranged b r (kept mute cs) := by
  have hcompound : isCompound (kept mute cs) = isCompound cs :=
    any_kept (fun c hc => counts_of_isRule (by simp at hc; exact hc.1)) cs
  have htype : (kept mute cs).filter (Tree.isRule .typ) = cs.filter (Tree.isRule .typ) :=
    filter_kept (fun c => counts_of_isRule) cs
  unfold rearranged
  split
  · rw [hcompound]
    split <;> simp [kept_filter]
  · rw [hcompound]
    split <;> simp [kept_filter]
  · refine kept_flatMap cs fun c => ?_
    cases c with
    | node q ds =>
      by_cases hq : q = .typ <;> simp [typedName, Tree.isToken, Tree.isRule, counts, hq]
    | leaf t =>
      by_cases ht : t.kind = .ident
      · cases b <;> simp [typedName, Tree.isToken, counts, ht, h, kept_filter, htype, kept_leaf]
      · by_cases hm : t.kind ∈ mute <;>
          simp [typedName, Tree.isToken, Tree.isRule, counts, ht, hm, kept_leaf, kept_mute]
  · rfl

theorem counts_amended (b : Bool) (c : SyntaxTree) : counts mute (amended b c) = counts mute c := by
  cases c <;> simp [amended, counts]

theorem kept_map_amended (b : Bool) (cs : Forest) :
    kept mute (cs.map (amended b)) = (kept mute cs).map (amended b) := by
  simp [kept, List.filter_map, Function.comp_def, counts_amended]

theorem saidBelow_kept (h : .ident ∉ mute) (b : Bool) (r : Rule) (cs : Forest) :
    saidBelow b r (kept mute cs) = saidBelow b r cs := by
  rw [saidBelow, ← kept_map_amended, ← kept_rearranged h, identifiers_kept h, saidBelow]

/-! ## The names in the node of a phrase -/

/-- What is said with parameters: their names, or only their types. -/
def saidParams (b : Bool) (ps : List (String × Node)) : List String :=
  ps.flatMap fun p => (if b then [p.1] else []) ++ p.2.idents

/-- The names that are said with a phrase are those in its node.  Parameters may be said with or
without their names. -/
def Said (r : Rule) (said : Bool → List String) (n : Node) : Prop :=
  match r with
  | .paramList | .paramDecl => ∃ ps : List (String × Node),
      n = .list (ps.map fun p => .param p.1 p.2) ∧
      ∀ b, said b = saidParams b ps
  | _ => ∀ b, said b = n.idents

/-- All phrases among the trees say the names in their nodes. -/
def Heard (cs : Forest) : Prop :=
  ∀ s ds n, .node s ds ∈ cs → toNode (.node s ds) = .ok n →
    Said s (fun b => said b (.node s ds)) n

def parameters : List Rule := [.paramList, .paramDecl]

/-- The rules that do not just say what their children say. -/
def special : List Rule := ([.assignStmt, .update, .interfaceMethod] : List Rule) ++ parameters

theorem saidBelow_eq (hr : r ∉ [.assignStmt, .update, .paramDecl]) (b : Bool) (cs : Forest) :
    saidBelow b r cs = cs.flatMap (said (namedBelow b r)) := by
  rw [saidBelow, rearranged.eq_4, identifiers_leavesList] <;> simp_all

theorem Said.of_eq (hr : r ∉ special) (h : cs.flatMap (said true) = n.idents) :
    Said r (fun b => saidBelow b r cs) n := by
  have hnamed (b : Bool) : namedBelow b r = true := by
    cases r <;> simp_all [special, parameters, namedBelow]
  unfold Said
  split
  · simp [special, parameters] at hr
  · simp [special, parameters] at hr
  · intro b
    simp only [saidBelow_eq (r := r) (by simp_all [special, parameters]), hnamed, h]

section Heard

variable {cs ds : Forest} {s : Rule} {n : Node} (h : Heard cs)

include h

theorem Heard.node (hn : toNode (.node s ds) = .ok n) (hc : .node s ds ∈ cs)
    (hs : s ∉ parameters) (b : Bool) : said b (.node s ds) = n.idents := by
  have := h s ds n hc hn
  unfold Said at this
  split at this
  · simp [parameters] at hs
  · simp [parameters] at hs
  · exact this b

end Heard

theorem Heard.mapM {ns : List Node} (h : Heard cs) (hu : Uniform s cs) (hs : s ∉ parameters)
    (hns : cs.mapM toNode = .ok ns) (b : Bool) : cs.flatMap (said b) = ns.flatMap Node.idents := by
  induction cs generalizing ns with
  | nil =>
    obtain rfl : ns = [] := by simpa [pure, Except.pure, eq_comm] using hns
    rfl
  | cons c cs ih =>
    simp only [List.mapM_cons, bind_eq_ok, pure_eq_ok] at hns
    obtain ⟨m, hm, ms, hms, rfl⟩ := hns
    obtain ⟨ds, rfl⟩ := exists_of_isRule (hu c (by simp))
    rw [List.flatMap_cons, List.flatMap_cons, h.node hm (by simp) hs,
      ih (fun s ds n hd => h s ds n (by simp [hd])) (fun d hd => hu d (by simp [hd])) hms]

theorem Heard.tail (h : Heard (c :: cs)) : Heard cs :=
  fun s ds n hd => h s ds n (by simp [hd])

open Build

theorem Heard.nodeOr {o : Option Forest} {other : Node} (h : Heard cs)
    (hn : nodeOr s o other = .ok n) (ho : ∀ c ∈ maybe s o, c ∈ cs) (hs : s ∉ parameters)
    (hother : other.idents = []) (b : Bool) : (maybe s o).flatMap (said b) = n.idents := by
  cases o with
  | none =>
    obtain rfl : other = n := by simpa [Build.nodeOr] using hn
    simpa [maybe] using hother.symm
  | some ds => simpa [maybe] using h.node hn (ho _ (by simp [maybe])) hs b

/-! ### Operators and literals -/

theorem ne_ident {k : TokenKind} {ks : List TokenKind} (hk : k ∈ ks) (hks : .ident ∉ ks) :
    k ≠ .ident := fun h => hks (h ▸ hk)

theorem said_operatorTree {q : Option Rule} {o : Token TokenKind} (hl : levels r = some (s, q))
    (ho : o.kind ∈ binaryKinds) (b : Bool) : said b (operatorTree o q) = [] := by
  have hne := ne_ident ho (by decide)
  have hq : ∀ q', q = some q' → q' ∉ [.assignStmt, .update, .paramDecl] := by
    rintro q' rfl
    revert hl
    cases r <;> simp [levels] <;> rintro rfl rfl <;> decide
  cases q with
  | none => simp [operatorTree, said_leaf, hne]
  | some q => simp [operatorTree, said_node, saidBelow_eq (hq q rfl), said_leaf, hne]

theorem idents_of_reads {isOperand : Bool} {t : Token TokenKind} (h : Build.Reads isOperand t n) :
    n.idents = [] := by
  cases h <;> simp [Node.idents]

/-! ### Assignments -/

theorem isRule_amended (b : Bool) (c : SyntaxTree) (r : Rule) :
    (amended b c).isRule r = c.isRule r := by
  cases c <;> simp [amended, Tree.isRule]

theorem isTarget_amended (b : Bool) (c : SyntaxTree) : isTarget (amended b c) = isTarget c := by
  cases c <;> simp [isTarget, amended, Tree.isRule, Tree.isToken]

theorem not_operator_of_isTarget (h : isTarget c = true) : c.isRule .assignOperator = false := by
  cases c with
  | leaf t => rfl
  | node r cs =>
    obtain rfl : r = .lhs := by simpa [isTarget, Tree.isRule, Tree.isToken] using h
    rfl

theorem saidBelow_assign {o : Token TokenKind} {es : Forest} (hr : r = .assignStmt ∨ r = .update)
    (hc : isTarget c = true) (ho : o.kind ∈ Grammar.assignKinds) (b : Bool) :
    saidBelow b r [c, .node .assignOperator [.leaf o], .node .expr es] =
      (if o.text = ":=" then [] else said true c) ++
        (said true c ++ said true (.node .expr es)) := by
  have hne := ne_ident ho (by decide)
  have hop : amended true (.node .assignOperator [.leaf o]) = .node .assignOperator [.leaf o] := by
    simp [amended, rearranged]
  have hsaid : saidBelow b r [c, .node .assignOperator [.leaf o], .node .expr es] = identifiers
      (Tree.leavesList (rearranged b .assignStmt [amended true c, .node .assignOperator [.leaf o],
        amended true (.node .expr es)])) := by
    obtain rfl | rfl := hr <;> simp [saidBelow, namedBelow, hop, rearranged]
  have hexpr : Tree.isRule .assignOperator (.node .expr es : SyntaxTree) = false ∧
      isTarget (.node .expr es) = false := ⟨rfl, rfl⟩
  have hoper : Tree.isRule .assignOperator (.node .assignOperator [.leaf o] : SyntaxTree) = true ∧
      isTarget (.node .assignOperator [.leaf o]) = false := ⟨rfl, rfl⟩
  have hcompound : isCompound [amended true c, .node .assignOperator [.leaf o],
      amended true (.node .expr es)] = (o.text != ":=") := by
    simp [isCompound, isRule_amended, not_operator_of_isTarget hc, hexpr, hoper, Tree.text,
      String.join]
  have htargets : [amended true c, .node .assignOperator [.leaf o],
      amended true (.node .expr es)].filter isTarget = [amended true c] := by
    simp [isTarget_amended, hc, hexpr, hoper]
  rw [hsaid, rearranged, hcompound, htargets]
  by_cases h : o.text = ":=" <;> simp [h, said, identifiers_cons, hne]

/-! ### Conditions -/

theorem idents_foldr (ps : List (Node × Node)) (no : Node) :
    (ps.foldr (fun p n => .ifElse p.1 p.2 n) no).idents =
      (ps.flatMap fun p => (Node.ifElse p.1 p.2 .none).idents) ++ no.idents := by
  induction ps with
  | nil => rfl
  | cons p ps ih => simp [Node.idents, ih]

/-! ### Parameters -/

theorem saidParams_true (ps : List (String × Node)) :
    saidParams true ps = (ps.map fun p => Node.param p.1 p.2).flatMap Node.idents := by
  simp [saidParams, List.flatMap_map, Node.idents]

theorem saidParams_false (ps : List (String × Node)) :
    saidParams false ps = (ps.map Prod.snd).flatMap Node.idents := by
  simp [saidParams, List.flatMap_map]

theorem Heard.heading {o : Option Forest} (h : Heard cs)
    (hn : Build.nodeOr .paramList o (.list []) = .ok n) (ho : ∀ c ∈ maybe .paramList o, c ∈ cs) :
    ∃ ps : List (String × Node), n = .list (ps.map fun p => .param p.1 p.2) ∧
      ∀ b, (maybe .paramList o).flatMap (said b) = saidParams b ps := by
  cases o with
  | none =>
    obtain rfl : .list [] = n := by simpa [Build.nodeOr] using hn
    exact ⟨[], rfl, fun b => rfl⟩
  | some ds =>
    obtain ⟨ps, rfl, hps⟩ := h .paramList ds n (ho _ (by simp [maybe])) hn
    exact ⟨ps, rfl, fun b => by simpa [maybe] using hps b⟩

theorem Heard.functionOf {x : String} {ps t : Option Forest} {bs : Forest} (h : Heard cs)
    (hn : Build.functionOf x ps t bs = .ok n)
    (hcs : ∀ c ∈ maybe .paramList ps ++ (maybe .typ t ++ [Tree.node .block bs]), c ∈ cs) :
    n.idents =
      x :: (maybe .paramList ps ++
        (maybe .typ t ++ [Tree.node .block bs])).flatMap (said true) := by
  obtain ⟨m, hm, rs, hrs, r, hr, b, hb, rfl⟩ := functionOf_eq_ok.1 hn
  obtain ⟨qs, rfl, hqs⟩ := h.heading hm fun c hc => hcs c (by simp [hc])
  obtain rfl := Node.list.inj (items_eq_ok.1 hrs)
  have hresult := h.nodeOr hr (fun c hc => hcs c (by simp [hc])) (by decide) rfl
  have hbody := h.node hb (hcs _ (by simp)) (by decide)
  simp [hqs, saidParams_true, hresult, hbody, Node.idents]

theorem Heard.groups {ns : List Node} {gs : List (List Node)} (h : Heard cs)
    (hu : Uniform .paramDecl cs) (hns : cs.mapM toNode = .ok ns) (hgs : ns.mapM items = .ok gs) :
    ∃ ps : List (String × Node), gs.flatten = ps.map (fun p => .param p.1 p.2) ∧
      ∀ b, cs.flatMap (said b) = saidParams b ps := by
  induction cs generalizing ns gs with
  | nil =>
    obtain rfl : ns = [] := by simpa [pure, Except.pure, eq_comm] using hns
    obtain rfl : gs = [] := by simpa [pure, Except.pure, eq_comm] using hgs
    exact ⟨[], rfl, fun b => rfl⟩
  | cons c cs ih =>
    simp only [List.mapM_cons, bind_eq_ok, pure_eq_ok] at hns
    obtain ⟨m, hm, ms, hms, rfl⟩ := hns
    simp only [List.mapM_cons, bind_eq_ok, pure_eq_ok] at hgs
    obtain ⟨g, hg, gs, hgs, rfl⟩ := hgs
    obtain ⟨ds, rfl⟩ := exists_of_isRule (hu c (by simp))
    obtain ⟨ps, rfl, hps⟩ := h _ ds m (by simp) hm
    obtain rfl := Node.list.inj (items_eq_ok.1 hg)
    obtain ⟨qs, hqs, hsaid⟩ := ih h.tail (fun d hd => hu d (by simp [hd])) hms hgs
    refine ⟨ps ++ qs, by simp [hqs], fun b => ?_⟩
    have hps := hps b
    dsimp only at hps
    rw [List.flatMap_cons, hps, hsaid, saidParams, saidParams, saidParams, List.flatMap_append]

theorem saidBelow_paramDecl {xs : TokenList} {ts : Forest}
    (hxs : ∀ x ∈ xs, x.kind = .ident) (b : Bool) :
    saidBelow b .paramDecl (xs.map Tree.leaf ++ [Tree.node .typ ts]) =
      xs.flatMap fun x => (if b then [x.text] else []) ++ said true (.node .typ ts) := by
  let type := amended true (.node .typ ts)
  have hamended : (xs.map Tree.leaf ++ [Tree.node .typ ts] : Forest).map (amended true) =
      xs.map Tree.leaf ++ [type] := by
    simp [type, amended]
  have hrule : type.isRule .typ = true := isRule_amended ..
  have htype : (xs.map Tree.leaf ++ [type]).filter (Tree.isRule .typ) = [type] := by
    rw [List.filter_append, List.filter_eq_nil_iff.2 (by simp [Tree.isRule]), List.nil_append]
    simp [hrule]
  have hlast : typedName b [type] type = [] := by
    simp [typedName, type, amended, Tree.isToken, Tree.isRule]
  have hnames : ∀ ys : TokenList, (∀ x ∈ ys, x.kind = .ident) →
      identifiers (Tree.leavesList ((ys.map Tree.leaf).flatMap (typedName b [type]))) =
        ys.flatMap fun x => (if b then [x.text] else []) ++ said true (.node .typ ts) := by
    intro ys hys
    induction ys with
    | nil => rfl
    | cons y ys ih =>
      obtain ⟨hy, hys⟩ := List.forall_mem_cons.1 hys
      cases b <;> simp [typedName, Tree.isToken, hy, ih hys, identifiers_cons, said, type]
  simp [saidBelow, namedBelow, hamended, rearranged, htype, hlast, hnames xs hxs]

theorem ordinary_of_inner (r : Rule) : ∀ s ∈ inner r, r ∉ special ∧ s ∉ parameters := by
  cases r <;> decide

theorem said_of_makes {x : Except Fault Node} (h : Makes r cs x) (hc : Heard cs) (hn : x = .ok n) :
    Said r (fun b => saidBelow b r cs) n := by
  cases h with try simp only [bind_eq_ok, pure_eq_ok, Except.ok.injEq] at hn
  | @inner _ s ds hs =>
    have hrs := ordinary_of_inner r s hs
    exact .of_eq hrs.1 (by simp [hc.node hn (by simp) hrs.2])
  | name hr hx =>
    subst hn
    exact .of_eq (by grind [special, parameters]) (by simp [said_leaf, hx, Node.idents])
  | @list _ s f _ hl hu =>
    obtain ⟨ns, hns, rfl⟩ := hn
    have hrs : r ∉ special ∧ s ∉ parameters ∧ (f ns).idents = ns.flatMap Node.idents := by
      revert hl
      cases r <;> simp [listed] <;> rintro rfl rfl <;> simp [special, parameters, Node.idents]
    exact .of_eq hrs.1 (by rw [hrs.2.2, hc.mapM hu hrs.2.1 hns])
  | operator hr ho =>
    subst hn
    exact .of_eq (by grind [special, parameters])
      (by simp [said_leaf, ne_ident ho (by decide), Node.idents])
  | varType hx =>
    obtain ⟨t, ht, rfl⟩ := hn
    exact .of_eq (by decide) (by simp [said_leaf, hx, hc.node ht, parameters, Node.idents])
  | varInit hr hx =>
    obtain ⟨e, he, rfl⟩ := hn
    exact .of_eq (by grind [special, parameters])
      (by simp [said_leaf, hx, hc.node he, parameters, Node.idents])
  | varBoth hr hx =>
    obtain ⟨t, ht, e, he, rfl⟩ := hn
    exact .of_eq (by grind [special, parameters])
      (by simp [said_leaf, hx, hc.node ht, hc.node he, parameters, Node.idents])
  | const hx =>
    obtain ⟨e, he, rfl⟩ := hn
    exact .of_eq (by decide) (by simp [said_leaf, hx, hc.node he, parameters, Node.idents])
  | assign ho =>
    obtain ⟨l, hl, e, he, hn⟩ := hn
    intro b
    dsimp only
    rw [saidBelow_assign (.inl rfl) rfl ho, hc.node hl (by simp) (by decide),
      hc.node he (by simp) (by decide)]
    obtain ⟨hop, rfl⟩ | ⟨hop, _, _, -, rfl⟩ := assignment_eq_ok.1 hn <;> simp [hop, Node.idents]
  | update hx ho =>
    obtain ⟨e, he, hn⟩ := hn
    intro b
    dsimp only
    rw [saidBelow_assign (.inr rfl) (by simp [isTarget, Tree.isToken, hx]) ho,
      hc.node he (by simp) (by decide)]
    obtain ⟨hop, rfl⟩ | ⟨hop, _, _, -, rfl⟩ := assignment_eq_ok.1 hn <;>
      simp [hop, said_leaf, hx, Node.idents]
  | branch =>
    obtain ⟨c, hcond, m, hm, ms, hms, no, hno, hn⟩ := hn
    obtain ⟨p, ps, rfl, rfl, rfl⟩ := exists_of_conditional hcond hm hms hn
    refine .of_eq (by decide) ?_
    simp [hc.node hcond, hc.node hm, hc.nodeOr hno (by simp +contextual) (by decide) rfl,
      parameters, idents_foldr, Node.idents, List.flatMap_map]
  | onlyIf =>
    obtain ⟨e, he, b, hb, rfl⟩ := hn
    exact .of_eq (by decide) (by simp [hc.node he, hc.node hb, parameters, Node.idents])
  | forBasic =>
    obtain ⟨e, he, b, hb, rfl⟩ := hn
    exact .of_eq (by decide) (by simp [hc.node he, hc.node hb, parameters, Node.idents])
  | forStep =>
    obtain ⟨i, hi, e, he, u, hu, b, hb, rfl⟩ := hn
    exact .of_eq (by decide)
      (by simp [hc.node hi, hc.node he, hc.node hu, hc.node hb, parameters, Node.idents])
  | forEach hx hy hd =>
    obtain ⟨e, he, b, hb, rfl⟩ := hn
    exact .of_eq (by decide)
      (by simp [said_leaf, hx, hy, hd, hc.node he, hc.node hb, parameters, Node.idents])
  | breakLoop =>
    subst hn
    exact .of_eq (by decide) rfl
  | continueLoop =>
    subst hn
    exact .of_eq (by decide) rfl
  | ret =>
    obtain ⟨e, he, rfl⟩ := hn
    exact .of_eq (by decide) (by simp [hc.nodeOr he (by simp) (by decide) rfl, Node.idents])
  | func hx =>
    have hf := hc.functionOf hn (by simp +contextual)
    exact .of_eq (by decide) (by rw [hf]; simp [said_leaf, hx])
  | method hx hy hz =>
    obtain ⟨f, hf, rfl⟩ := hn
    have hf := hc.functionOf hf (by simp +contextual)
    exact .of_eq (by decide) (by simp [said_leaf, hx, hy, hz, Node.idents, hf])
  | call hx =>
    obtain ⟨m, hm, as, has, rfl⟩ := hn
    obtain rfl := items_eq_ok.1 has
    have hargs := hc.nodeOr hm (by simp +contextual) (by decide) rfl
    exact .of_eq (by decide) (by simp [said_leaf, hx, hargs, Node.idents])
  | methodCall =>
    obtain ⟨m, hm, p, hp, c, hcs, rfl⟩ := hn
    obtain rfl := callee_eq_ok.1 hp
    exact .of_eq (by decide) (by simp [hc.node hcs, hc.node hm, parameters, Node.idents])
  | @primitive t ht =>
    subst hn
    simp only [Grammar.primitiveKinds, List.mem_cons, List.not_mem_nil, or_false] at ht
    exact .of_eq (by decide)
      (by obtain ht | ht | ht | ht := ht <;> simp [said_leaf, ht, primitive, Node.idents])
  | arrayMore =>
    obtain ⟨d, hd, m, hm, p, hp, rfl⟩ := hn
    obtain rfl := arrayParts_eq_ok.1 hp
    exact .of_eq (by decide) (by simp [hc.node hd, hc.node hm, parameters, Node.idents])
  | arrayPrimitive =>
    obtain ⟨d, hd, t, ht, rfl⟩ := hn
    exact .of_eq (by decide) (by simp [hc.node hd, hc.node ht, parameters, Node.idents])
  | arrayNamed hx =>
    obtain ⟨d, hd, rfl⟩ := hn
    exact .of_eq (by decide) (by simp [said_leaf, hx, hc.node hd, parameters, Node.idents])
  | sizeLit ht =>
    subst hn
    exact .of_eq (by decide) (by simp [said_leaf, ht, Node.idents])
  | sizeName hx =>
    subst hn
    exact .of_eq (by decide) (by simp [said_leaf, hx, Node.idents])
  | @binary _ s q o _ _ hl ho =>
    obtain ⟨l, hl', e, he, rfl⟩ := hn
    have hrs : r ∉ special ∧ r ∉ parameters ∧ s ∉ parameters := by
      revert hl
      cases r <;> simp [levels] <;> rintro rfl rfl <;> decide
    exact .of_eq hrs.1 (by simp [hc.node hl' (by simp) hrs.2.1, hc.node he (by simp) hrs.2.2,
      said_operatorTree hl ho, Node.idents])
  | unary ho =>
    obtain ⟨e, he, rfl⟩ := hn
    have hne : _ ≠ TokenKind.ident := ne_ident ho (by decide)
    exact .of_eq (by decide) (by simp [said_leaf, hne, hc.node he, parameters, Node.idents])
  | literal hr ht =>
    have hr : r ∉ special := by grind [special, parameters]
    refine .of_eq hr ?_
    rw [idents_of_reads (reads_of_literal ht hn)]
    simp [said_leaf, ne_ident ht (by decide)]
  | arrayLit =>
    obtain ⟨m, hm, p, hp, v, hv, rfl⟩ := hn
    obtain rfl := arrayParts_eq_ok.1 hp
    exact .of_eq (by decide) (by simp [hc.node hm, hc.node hv, parameters, Node.idents])
  | shortArray =>
    obtain ⟨v, hv, rfl⟩ := hn
    exact .of_eq (by decide) (by simp [hc.node hv, parameters, Node.idents])
  | structLit hx =>
    obtain ⟨m, hm, es, hes, rfl⟩ := hn
    obtain rfl := items_eq_ok.1 hes
    have helems := hc.nodeOr hm (by simp +contextual) (by decide) rfl
    exact .of_eq (by decide) (by simp [said_leaf, hx, helems, Node.idents])
  | field hr hx =>
    obtain ⟨c, hcs, rfl⟩ := hn
    exact .of_eq (by grind [special, parameters])
      (by simp [said_leaf, hx, hc.node hcs, parameters, Node.idents])
  | chainCall =>
    obtain ⟨c, hcs, m, hm, p, hp, rfl⟩ := hn
    obtain rfl := callee_eq_ok.1 hp
    exact .of_eq (by decide) (by simp [hc.node hcs, hc.node hm, parameters, Node.idents])
  | @cell _ s _ _ hr hne hu =>
    obtain ⟨a, ha, is, his, rfl⟩ := hn
    have hrs : r ∉ special ∧ s ∉ parameters := by grind [special, parameters]
    have boxes := (hc.tail).mapM hu (by decide) his
    exact .of_eq hrs.1 (by simp [hc.node ha (by simp) hrs.2, boxes, Node.idents])
  | cellField hx hu =>
    obtain ⟨c, hcs, is, his, rfl⟩ := hn
    have boxes := hc.tail.tail.mapM hu (by decide) his
    exact .of_eq (by decide) (by simp [said_leaf, hx, hc.node hcs, boxes, parameters, Node.idents])
  | cellCall hu =>
    obtain ⟨m, hm, p, hp, c, hcs, is, his, rfl⟩ := hn
    obtain rfl := callee_eq_ok.1 hp
    have boxes := hc.tail.tail.mapM hu (by decide) his
    exact .of_eq (by decide) (by simp [hc.node hcs, hc.node hm, boxes, parameters, Node.idents])
  | structDecl hx hu =>
    obtain ⟨fs, hfs, rfl⟩ := hn
    exact .of_eq (by decide) (by simp [said_leaf, hx, hc.tail.mapM hu (by decide) hfs, Node.idents])
  | interfaceDecl hx hu =>
    obtain ⟨ms, hms, rfl⟩ := hn
    exact .of_eq (by decide) (by simp [said_leaf, hx, hc.tail.mapM hu (by decide) hms, Node.idents])
  | @pair _ s _ _ hr hx =>
    obtain ⟨m, hm, rfl⟩ := hn
    have hrs : r ∉ special ∧ s ∉ parameters := by grind [special, parameters]
    exact .of_eq hrs.1 (by simp [said_leaf, hx, hc.node hm (by simp) hrs.2, Node.idents])
  | prototype hx =>
    obtain ⟨m, hm, ps, hps, types, htypes, t, ht, rfl⟩ := hn
    obtain ⟨qs, rfl, hqs⟩ := hc.heading hm (by simp +contextual)
    obtain rfl := Node.list.inj (items_eq_ok.1 hps)
    obtain rfl := Except.ok.inj (htypes.symm.trans (paramTypes_map qs))
    intro b
    dsimp only
    rw [saidBelow_eq (by decide)]
    simp [namedBelow, said_leaf, hx, hqs, saidParams_false,
      hc.nodeOr ht (by simp +contextual) (by decide) rfl, Node.idents]
  | paramList hu =>
    obtain ⟨ns, hns, gs, hgs, rfl⟩ := hn
    obtain ⟨ps, hps, hsaid⟩ := hc.groups hu hns hgs
    refine ⟨ps, by rw [hps], fun b => ?_⟩
    dsimp only
    rw [saidBelow_eq (by decide)]
    exact hsaid b
  | @paramDecl xs ts hxs =>
    obtain ⟨ps, hps, rfl⟩ := hn
    cases xs with
    | nil =>
      obtain rfl : [] = ps := by simpa [params] using hps
      exact ⟨[], rfl, saidBelow_paramDecl hxs⟩
    | cons x xs =>
      obtain ⟨t, ht, rfl⟩ := params_eq_ok.1 hps
      refine ⟨(x :: xs).map fun x => (x.text, t), by simp, fun b => ?_⟩
      dsimp only
      rw [saidBelow_paramDecl hxs, hc.node ht (by simp) (by decide), saidParams,
        List.flatMap_map]

theorem said_of_derives {t : SyntaxTree} (h : t.Derives miniGo) (ht : t = .node r cs)
    (hn : toNode t = .ok n) : Said r (fun b => said b t) n := by
  induction h generalizing r cs n with
  | leaf => cases ht
  | @node r cs a ha hs hc ih =>
    cases ht
    have hheard : Heard (core cs) := fun s ds m hd hm =>
      ih _ (List.mem_filter.1 hd).1 rfl hm
    have hsaid := said_of_makes (makes_of_derives (.node ha hs hc)) hheard hn
    simpa only [said_node, core, saidBelow_kept (by decide : .ident ∉ TokenKind.punctuation)]
      using hsaid

/-- The names in the node of a source are the identifiers of its tokens, in their order, with the
target of each compound assignment twice, the type of a group of parameters behind each name of
the group, and without the names of the parameters of the methods of interfaces. -/
theorem idents_of_source {source : String} {t : SyntaxTree} {n : Node}
    (ht : parse source = .ok t) (hn : t.toNode = .ok n) :
    t.leaves = (Tokens.ofSource source).tokens ∧
      n.idents = identifiers (t.amended true).leaves := by
  obtain ⟨hleaves, cs, rfl, hd⟩ := derives_of_parse ht
  have hsaid := said_of_derives hd rfl hn
  exact ⟨hleaves, (hsaid true).symm⟩

/-- All three edits: the parameters of a method of an interface, a group of parameters, and a
compound assignment. -/
theorem idents_of_source_edits : ∃ t n,
    parse "type I interface\x7bf(a,b T);\x7d;func g(c,d V)\x7bc.x+=d;\x7d;" = .ok t ∧
      t.toNode = .ok n ∧ identifiers t.leaves =
        ["I", "f", "a", "b", "T", "g", "c", "d", "V", "c", "x", "d"] ∧
      n.idents = ["I", "f", "T", "T", "g", "c", "V", "d", "V", "c", "x", "c", "x", "d"] ∧
      n.idents = identifiers (t.amended true).leaves := by
  have h : ((parse "type I interface\x7bf(a,b T);\x7d;func g(c,d V)\x7bc.x+=d;\x7d;").toOption.bind
      fun t => t.toNode.toOption.map fun n => (identifiers t.leaves, n.idents)) =
        some (["I", "f", "a", "b", "T", "g", "c", "d", "V", "c", "x", "d"],
          ["I", "f", "T", "T", "g", "c", "V", "d", "V", "c", "x", "c", "x", "d"]) := by
    decide +kernel
  obtain ⟨t, n, ht, hn, h⟩ := exists_built h
  exact ⟨t, n, ht, hn, congrArg Prod.fst h, congrArg Prod.snd h, (idents_of_source ht hn).2⟩

end SyntaxTree

end MiniGoc
