import MiniGoc.Proofs.Steadiness

/-!
# Readers reject at the first wrong token

Each reader of MiniGo is steady.  Readers of expressions outside of brackets have the
exception, and so have all readers that use them.
-/

namespace MiniGoc.Reader

variable {n n' : Nat}

/-! ## Types -/

theorem steady_arrayLiteralBox : Steady false [] arrayLiteralBox arrayLiteralBox :=
  .rule (.cons .oneOf (.cons .oneOf (.cons .oneOf .nil)))

theorem steady_primitiveType : Steady false [] primitiveType primitiveType := .rule .oneOf

theorem steady_arrayType (hn : n ≤ n') : Steady false [] (arrayType n) (arrayType n') := by
  induction n generalizing n' with
  | zero => exact .ended
  | succ n ih =>
    obtain ⟨n', rfl⟩ : ∃ k, n' = k + 1 := ⟨n' - 1, by omega⟩
    exact .rule (.cons steady_arrayLiteralBox (.cons (.ifNext (ih (by omega))
      (.ifNext .oneOf steady_primitiveType)) .nil))

theorem steady_typ (hn : n ≤ n') : Steady false [] (typ n) (typ n') :=
  .rule (.ifNext (steady_arrayType hn) (.ifNext .oneOf steady_primitiveType))

/-! ## Operands -/

section

variable {e e' : Reader Forest} (he : Steady false [] e e') (hn : n ≤ n')

include he hn

theorem steady_funcCall : Steady false [.ident] (funcCall e n) (funcCall e' n') :=
  .rule (.token (.cons .oneOf (.cons (.optional (.listOf he hn)) (.cons .oneOf .nil))))

omit hn in
theorem steady_structEle : Steady false [.ident] (structEle e) (structEle e') :=
  .rule (.token (.cons .oneOf (.cons he .nil)))

theorem steady_structLiteral : Steady false [.ident, .openBrace, .ident] (structLiteral e n)
    (structLiteral e' n') :=
  .rule (.token (.token (.cons (.ifNext_of_mem (.listOf (steady_structEle he) hn) .pure rfl)
    (.cons .oneOf .nil))))

omit hn in
theorem steady_arrayEle (hn : n ≤ n') : Steady false [] (arrayEle e n) (arrayEle e' n') := by
  induction n generalizing n' with
  | zero => exact .ended
  | succ n ih =>
    obtain ⟨n', rfl⟩ : ∃ k, n' = k + 1 := ⟨n' - 1, by omega⟩
    exact .rule (.ifNext (.rule (.cons .oneOf (.cons (.listOf (ih (by omega)) hn)
      (.cons .oneOf .nil)))) (Steady.ifAhead ((steady_structLiteral he hn).shorten (by decide))
        (.oneOf_takes (k := .ident) rfl) rfl).weaken)

theorem steady_arrayLiteral : Steady false [] (arrayLiteral e n) (arrayLiteral e' n') :=
  .rule (.cons (steady_arrayType hn) (.cons .oneOf (.cons (.listOf (steady_arrayEle he hn) hn)
    (.cons .oneOf .nil))))

omit hn in
theorem steady_subExpr : Steady false [] (subExpr e) (subExpr e') :=
  .rule (.cons .oneOf (.cons he (.cons .oneOf .nil)))

omit he hn in
/-- Outside of brackets an identifier is taken, and what is left is subject to the exception. -/
theorem exempt_of_oneOf {ls : List TokenKind} {u v x : TokenList} (hu : u ≠ [])
    (hk : u.map Token.kind <+: [.ident, .openBrace, .ident]) (hv : v ≠ [])
    (h : position (oneOf ls (u ++ x)) = some (v ++ x)) (hl : .ident ∈ ls) : Exempt true u v := by
  obtain ⟨i, u, rfl⟩ := List.exists_cons_of_ne_nil hu
  rw [List.map_cons, List.cons_prefix_cons] at hk
  obtain rfl : u = v := by simpa [oneOf, hk.1, hl, position] using h
  refine ⟨rfl, [], i, rfl, hk.1, ?_⟩
  have hne : u.map Token.kind ≠ [] := by simpa using hv
  obtain ⟨q, hq, hq'⟩ := (List.prefix_cons_iff.1 hk.2).resolve_left hne
  rcases List.prefix_cons_iff.1 hq' with rfl | ⟨q, rfl, hq''⟩
  · exact .inl hq
  · exact .inr (by rw [hq, List.prefix_nil.1 hq''])

omit he hn in
theorem steady_ifLiteral (nested : Bool) {yes yes' : Reader Forest}
    (hyes : Steady false [.ident, .openBrace, .ident] yes yes') {ls : List TokenKind}
    (hl : .ident ∈ ls) :
    Steady (!nested) [.ident] (ifLiteral nested yes (oneOf ls))
      (ifLiteral nested yes' (oneOf ls)) := by
  have hno : Steady (!nested) [.ident] (oneOf ls) (oneOf ls) :=
    .oneOf_takes (List.contains_iff_mem.2 hl)
  have hyes₁ : Steady (!nested) [.ident] yes yes' := (hyes.shorten (by decide)).loosen
  cases nested with
  | true => exact hyes₁.ifAhead hno rfl
  | false =>
    -- If the common part does not settle the patterns, both branches take the identifier.
    have hclear {u v x : TokenList} (hu : u ≠ []) (hv : v ≠ [])
        (hk : u.map Token.kind <+: [.ident, .openBrace, .ident])
        (h : position (yes (u ++ x)) = some (v ++ x) ∨
          position (oneOf ls (u ++ x)) = some (v ++ x)) : Exempt true u v := by
      rcases h with h | h
      · have := (hyes.clears _ hk (by simpa using hu) u x _ rfl h).length_le
        rw [List.length_append] at this
        exact absurd (List.length_eq_zero_iff.1 (by omega)) hv
      · exact exempt_of_oneOf hu hk hv h hl
    have hinner : Steady true []
        (ifAhead [[.ident], [.openBrace], [.ident], [.colon]] yes (oneOf ls))
        (ifAhead [[.ident], [.openBrace], [.ident], [.colon]] yes' (oneOf ls)) :=
      .ifAhead_open hyes₁.weaken hno.weaken fun u hu hlook x v hv h =>
        hclear hu hv (kinds_prefix_of_undecided hlook (by decide)) h
    have houter : Steady true [] (ifLiteral false yes (oneOf ls))
        (ifLiteral false yes' (oneOf ls)) := by
      refine .ifAhead_open hyes₁.weaken hinner fun u hu hlook x v hv h => ?_
      have hk : u.map Token.kind <+: [.ident, .openBrace] :=
        kinds_prefix_of_undecided hlook (by decide)
      apply hclear hu hv (hk.trans (by decide)) (x := x)
      rcases h with h | h
      · exact .inl h
      · unfold ifAhead at h
        split at h
        · exact .inl h
        · exact .inr h
        · cases h
    exact ⟨houter.stops, fun q hq hne => (hyes₁.clears q hq hne).ifAhead
      ((hyes₁.clears q hq hne).ifAhead (hno.clears q hq hne)), houter.same⟩

theorem steady_operand (nested : Bool) :
    Steady (!nested) [.ident] (operand e nested n) (operand e' nested n') :=
  .rule (.ifNext_of_notMem (steady_arrayLiteral he hn).loosen (.ifNext_of_notMem
    (steady_subExpr he).loosen (.ifAhead (steady_funcCall he hn).loosen
      (steady_ifLiteral nested (steady_structLiteral he hn) (by decide)) rfl) rfl) rfl)

/-! ## Primary expressions -/

theorem steady_boxes : Steady false [] (boxes e n) (boxes e' n') :=
  .manyTrees (.rule (.cons .oneOf (.cons he (.cons .oneOf .nil)))) hn rfl

theorem steady_link : Steady false [] (link e n) (link e' n') := by
  have hname : Steady false [.ident] (expect .ident) (expect .ident) := .oneOf_takes rfl
  have hmember : Steady false [] (member e n) (member e' n') :=
    Steady.oneOf.bind_tight fun _ =>
      (Steady.ifAhead (steady_funcCall he hn).map hname.map rfl).weaken
  exact hmember.bind_tight fun _ => (steady_boxes he hn).map

theorem steady_primary (nested : Bool) :
    Steady (!nested) [.ident] (primary e nested n) (primary e' nested n') := by
  have hlinks : Steady (!nested) [] (many [[.dot]] (link e n) n) (many [[.dot]] (link e' n') n') :=
    (steady_link he hn).loosen.many hn (by cases nested <;> rfl)
  refine (steady_operand he hn nested).bind
    (fun _ => (steady_boxes he hn).bind_tight fun _ => hlinks.map) fun h => ⟨h, fun _ => ?_⟩
  exact (Rests.bind (.manyTrees rfl) fun _ => .bind (.many rfl) fun _ => .pure).firm

end

theorem rests_primary {e : Reader Forest} {nested : Bool} :
    Rests .openBrace (primary e nested n) := by
  have hliteral : Rests .openBrace (ifLiteral nested (structLiteral e n)
      (oneOf [.intLit, .floatLit, .stringLit, .boolLit, .nilLit, .ident])) := by
    cases nested with
    | true => exact .ifAhead rfl (.oneOf rfl)
    | false => exact .ifAhead rfl (.ifAhead rfl (.oneOf rfl))
  have hoperand : Rests .openBrace (operand e nested n) :=
    .rule (.ifNext rfl (.ifNext rfl (.ifAhead rfl hliteral)))
  exact hoperand.bind fun _ => .bind (.manyTrees rfl) fun _ => .bind (.many rfl) fun _ => .pure

/-! ## Expressions -/

section

variable {loose : Bool} {p p' : Reader Forest}

theorem steady_unary (hp : Steady loose [.ident] p p') (hn : n ≤ n') :
    Steady loose [.ident] (unary p n) (unary p' n') := by
  induction n generalizing n' with
  | zero => exact .ended
  | succ n ih =>
    obtain ⟨n', rfl⟩ : ∃ k, n' = k + 1 := ⟨n' - 1, by omega⟩
    exact .rule (.ifNext_of_notMem (.cons .oneOf (ih (by omega)).weaken.last) (.rule hp) rfl)

theorem rests_unary (hp : Rests .openBrace p) : Rests .openBrace (unary p n) := by
  cases n with
  | zero => exact .ended
  | succ n => exact .rule (.ifNext rfl (.rule hp))

theorem steady_operator (l : Level) : Steady false [] l.operator l.operator := by
  unfold Level.operator
  split
  · exact .rule .oneOf
  · exact .oneOf

theorem steady_binary {ls : List Level} (hls : ∀ l ∈ ls, l.operators.contains .openBrace = false)
    (hp : Steady loose [.ident] p p') (hn : n ≤ n') :
    Steady loose [.ident] (binary ls p n) (binary ls p' n') := by
  induction ls with
  | nil => exact hp
  | cons l ls ih =>
    have hnext := ih fun k hk => hls k (by simp [hk])
    have hl := hls l (by simp)
    exact hnext.bind (fun _ => (Steady.cons (steady_operator l) hnext.weaken.last).joined hn hl _)
      fun h => ⟨h, fun _ => (Rests.joined hl).firm⟩

theorem rests_binary {ls : List Level} (hls : ∀ l ∈ ls, l.operators.contains .openBrace = false)
    (hp : Rests .openBrace p) : Rests .openBrace (binary ls p n) := by
  induction ls with
  | nil => exact hp
  | cons l ls ih =>
    exact (ih fun k hk => hls k (by simp [hk])).bind fun _ => .joined (hls l (by simp))

theorem openBrace_notMem_levels :
    ∀ l ∈ levels, l.operators.contains .openBrace = false := by
  decide

end

theorem steady_expr (nested : Bool) (hn : n ≤ n') :
    Steady (!nested) [.ident] (expr nested n) (expr nested n') := by
  induction n generalizing n' nested with
  | zero => exact .ended
  | succ n ih =>
    obtain ⟨n', rfl⟩ : ∃ k, n' = k + 1 := ⟨n' - 1, by omega⟩
    have hinner : Steady false [] (expr true n) (expr true n') :=
      (ih true (by omega)).weaken
    exact steady_binary openBrace_notMem_levels
      (steady_unary (steady_primary hinner hn nested) hn) hn

theorem rests_expr {nested : Bool} : Rests .openBrace (expr nested n) := by
  cases n with
  | zero => exact .ended
  | succ n => exact rests_binary openBrace_notMem_levels (rests_unary rests_primary)

/-! ## Declarations of variables and constants -/

section

variable (hn : n ≤ n')

include hn

theorem steady_initialiser : Steady true [] (initialiser n) (initialiser n') :=
  .cons .oneOf (steady_expr false hn).weaken.last

theorem steady_varDecl : Steady true [] (varDecl n) (varDecl n') := by
  refine .rule (.cons .oneOf (.cons .oneOf (.cons_loose (.ifNext (steady_initialiser hn)
    (.cons (steady_typ hn) (Steady.optional (steady_initialiser hn)).last))
      (.cons .oneOf .nil) (.seq_oneOf rfl))))

theorem steady_constDecl : Steady true [] (constDecl n) (constDecl n') :=
  .rule (.cons .oneOf (.cons .oneOf (.cons .oneOf (.cons_loose (steady_expr false hn).weaken
    (.cons .oneOf .nil) (.seq_oneOf rfl)))))

/-! ## Statements -/

omit hn in
theorem steady_assignOperator : Steady false [] assignOperator assignOperator := .rule .oneOf

omit hn in
theorem steady_inner (hn : n ≤ n') : Steady false [] (expr true n) (expr true n') :=
  (steady_expr true hn).weaken

theorem steady_simpleStmt : Steady true [.ident] (simpleStmt n) (simpleStmt n') := by
  have hassign (target : SyntaxTree) : Steady true [] (assignTo n target) (assignTo n' target) :=
    .rule (.cons .pure (.cons steady_assignOperator (.cons_loose (steady_expr false hn).weaken
      (.cons .oneOf .nil) (.seq_oneOf rfl))))
  have hcall (call : SyntaxTree) : Steady true []
      (rule .callStmt (seq [pure [call], expect .semicolon]))
      (rule .callStmt (seq [pure [call], expect .semicolon])) :=
    .rule (.cons .pure (.cons .oneOf .nil))
  have hprimary : Steady false [.ident] (primary (expr true n) true (n + 1))
      (primary (expr true n') true (n' + 1)) :=
    steady_primary (steady_inner hn) (Nat.succ_le_succ hn) true
  refine hprimary.bind_tight fun t => .ifNext ?_ ?_
  · cases target? t with
    | none => exact .reject
    | some target => exact hassign target
  · cases call? t with
    | none => exact .reject
    | some call => exact hcall call

theorem steady_returnStmt : Steady true [] (returnStmt n) (returnStmt n') :=
  .rule (.cons .oneOf (.cons_loose (.optional (steady_expr false hn).weaken)
    (.cons .oneOf .nil) (.seq_oneOf rfl)))

theorem steady_update : Steady true [.ident] (update n) (update n') :=
  .rule (.token (.cons steady_assignOperator (steady_expr false hn).weaken.last))

theorem steady_initialization :
    Steady true [.ident] (initialization n) (initialization n') :=
  .rule (.ifNext_of_notMem
    (.cons .oneOf (.cons .oneOf (.cons_loose (.ifNext (steady_initialiser hn)
      (.cons (steady_typ hn) (steady_initialiser hn).last)) (.cons .oneOf .nil)
        (.seq_oneOf rfl))))
    (.cons_loose (steady_update hn) (.cons .oneOf .nil) (.seq_oneOf rfl)) rfl)

end

section

variable {b b' : Reader Forest} (hb : Steady true [] b b') (hf : Firm b) (hn : n ≤ n')

include hb hn

theorem steady_onlyIf : Steady true [] (onlyIf b n) (onlyIf b' n') :=
  .rule (.cons .oneOf (.cons .oneOf (.cons_loose (steady_expr false hn).weaken
    (.cons .oneOf hb.last) (.seq_oneOf rfl))))

/-- The further conditions and the rest.  Both start with the same token. -/
theorem steady_elses : Steady true []
    (seq [rule .elseIfList (manyTrees [[.kwElse], [.kwIf]] (seq [expect .kwElse, onlyIf b n]) n),
      optional [.kwElse] (rule .elseStmt (seq [expect .kwElse, b])), expect .semicolon])
    (seq [rule .elseIfList (manyTrees [[.kwElse], [.kwIf]] (seq [expect .kwElse, onlyIf b' n']) n'),
      optional [.kwElse] (rule .elseStmt (seq [expect .kwElse, b'])), expect .semicolon]) := by
  have hround : Steady true [.kwElse] (seq [expect .kwElse, onlyIf b n])
      (seq [expect .kwElse, onlyIf b' n']) := .token (steady_onlyIf hb hn).last
  have hlast : Steady true [.kwElse] (seq [optional [.kwElse] (rule .elseStmt
      (seq [expect .kwElse, b])), expect .semicolon]) (seq [optional [.kwElse] (rule .elseStmt
        (seq [expect .kwElse, b'])), expect .semicolon]) :=
    .cons_loose (.ifNext_of_mem (.rule (.token hb.last)) .pure rfl) (.cons .oneOf .nil)
      (.seq_oneOf rfl)
  have hfirm : Firm (seq [optional [.kwElse] (rule .elseStmt (seq [expect .kwElse, b])),
      expect .semicolon]) := (Rests.seq_cons (.ifNext rfl .pure) (.seq_oneOf rfl)).firm
  rw [Steady.seq_rule_manyTrees, Steady.seq_rule_manyTrees]
  exact hround.many_bind hn (fun _ => hlast.map) (fun _ => hfirm.map) nofun

theorem steady_ifStmt : Steady true [] (ifStmt b n) (ifStmt b' n') :=
  .rule (.cons_loose (steady_onlyIf hb hn) (steady_elses hb hn)
    (Rests.seq_cons (.rule (.manyTrees rfl))
      (.seq_cons (.ifNext rfl .pure) (.seq_oneOf rfl))).firm)

omit hn in
theorem steady_body : Steady true [] (seq [b, expect .semicolon]) (seq [b', expect .semicolon]) :=
  .cons_loose hb (.cons .oneOf .nil) (.seq_oneOf rfl)

include hf

omit hn in
theorem firm_body : Firm (seq [b, expect .semicolon]) := by
  have hend : Steady false [] (seq [expect .semicolon]) (seq [expect .semicolon]) :=
    .cons .oneOf .nil
  exact hf.seq_cons hb.stops (.seq_oneOf rfl) hend.stops

theorem steady_basicFor : Steady true [.kwFor, .ident] (basicFor b n) (basicFor b' n') :=
  .rule (.token (.cons_loose (steady_expr false hn) (steady_body hb) (firm_body hb hf)))

theorem steady_forInitial : Steady true [.kwFor, .ident] (forInitial b n) (forInitial b' n') :=
  .rule (.token (.cons_loose (steady_initialization hn) (.cons_loose (steady_expr false hn).weaken
    (.cons .oneOf (.cons_loose (steady_update hn).weaken (steady_body hb) (firm_body hb hf)))
      (.seq_oneOf rfl)) (Rests.seq_cons rests_expr (.seq_oneOf rfl)).firm))

theorem steady_forRange : Steady true [.kwFor, .ident] (forRange b n) (forRange b' n') :=
  .rule (.token (.token (.cons .oneOf (.cons .oneOf (.cons .oneOf (.cons .oneOf (.cons_loose
    (steady_expr false hn).weaken (steady_body hb) (firm_body hb hf))))))))

theorem steady_forStmt : Steady true [.kwFor, .ident] (forStmt b n) (forStmt b' n') :=
  .rule (.ifAhead (steady_forInitial hb hf hn) (.ifAhead (steady_forInitial hb hf hn)
    (.ifAhead (steady_forRange hb hf hn) (steady_basicFor hb hf hn) rfl) rfl) rfl)

end

section

variable {s s' : Reader Forest} (hs : Steady true [.ident] s s') (hn : n ≤ n')

include hs hn

theorem steady_stmts : Steady true [.ident] (seq [s, manyTrees [stmtStart] s n, expect .closeBrace])
    (seq [s', manyTrees [stmtStart] s' n', expect .closeBrace]) :=
  .cons_loose hs (.cons_loose (.manyTrees hs.weaken hn rfl) (.cons .oneOf .nil)
    (.seq_oneOf rfl)) (Rests.seq_cons (.manyTrees rfl) (.seq_oneOf rfl)).firm

theorem steady_block : Steady true [] (block s n) (block s' n') :=
  .rule (.cons .oneOf (steady_stmts hs hn).weaken)

theorem firm_block : Firm (block s n) :=
  (Firm.token ((steady_stmts hs hn).clears _ List.prefix_rfl (by simp))).map

end

theorem steady_stmt (hn : n ≤ n') : Steady true [.ident] (stmt n) (stmt n') := by
  induction n generalizing n' with
  | zero => exact .ended
  | succ n ih =>
    obtain ⟨n', rfl⟩ : ∃ k, n' = k + 1 := ⟨n' - 1, by omega⟩
    have hn : n ≤ n' := by omega
    have hb := steady_block (ih hn) hn
    have hf := firm_block (ih hn) hn
    exact .rule (.ifNext_of_notMem (steady_varDecl hn) (.ifNext_of_notMem (steady_constDecl hn)
      (.ifNext_of_notMem (steady_ifStmt hb hn) (.ifNext_of_notMem (steady_forStmt hb hf hn).weaken
        (.ifNext_of_notMem (.rule (.cons .oneOf (.cons .oneOf .nil)))
          (.ifNext_of_notMem (.rule (.cons .oneOf (.cons .oneOf .nil)))
            (.ifNext_of_notMem (steady_returnStmt hn) (steady_simpleStmt hn)
              rfl) rfl) rfl) rfl) rfl) rfl) rfl)

/-! ## Declarations -/

section

variable (hn : n ≤ n')

include hn

theorem steady_paramDecl : Steady false [] (paramDecl n) (paramDecl n') :=
  .rule (.cons .oneOf (.cons (.manyTrees (.cons .oneOf (.cons .oneOf .nil)) hn rfl)
    (steady_typ hn).last))

theorem Steady.signature {loose : Bool} {ms ms' : List (Reader Forest)}
    (hms : Steady loose [] (seq ms) (seq ms')) :
    Steady loose [] (seq (Reader.signature n ++ ms)) (seq (Reader.signature n' ++ ms')) :=
  .cons .oneOf (.cons (.optional (.listOf (steady_paramDecl hn) hn)) (.cons .oneOf
    (.cons (.optional (steady_typ hn)) hms)))

theorem steady_function : Steady true []
    (seq (signature n ++ [block (stmt n) n, expect .semicolon]))
    (seq (signature n' ++ [block (stmt n') n', expect .semicolon])) :=
  .signature hn (steady_body (steady_block (steady_stmt hn) hn))

theorem steady_funcDecl : Steady true [.kwFunc] (funcDecl n) (funcDecl n') :=
  .rule (.token (.cons .oneOf (steady_function hn)))

theorem steady_methodDecl : Steady true [.kwFunc] (methodDecl n) (methodDecl n') :=
  .rule (.token (.cons .oneOf (.cons .oneOf (.cons .oneOf (.cons .oneOf (.cons .oneOf
    (steady_function hn)))))))

theorem steady_structDecl : Steady false [.kwType, .ident] (structDecl n) (structDecl n') := by
  have hfield : Steady false [] (structField n) (structField n') :=
    .rule (.cons .oneOf (.cons (steady_typ hn) (.cons .oneOf .nil)))
  exact .rule (.token (.token (.cons .oneOf (.cons .oneOf (.cons hfield
    (.cons (.manyTrees hfield hn rfl) (.cons .oneOf (.cons .oneOf .nil))))))))

theorem steady_interfaceDecl :
    Steady false [.kwType, .ident] (interfaceDecl n) (interfaceDecl n') := by
  have hmethod : Steady false [] (interfaceMethod n) (interfaceMethod n') :=
    .rule (.cons .oneOf (.signature hn (.cons .oneOf .nil)))
  exact .rule (.token (.token (.cons .oneOf (.cons .oneOf (.cons hmethod
    (.cons (.manyTrees hmethod hn rfl) (.cons .oneOf (.cons .oneOf .nil))))))))

theorem steady_decl : Steady true [] (decl n) (decl n') :=
  .rule (.ifNext (steady_varDecl hn) (.ifNext (steady_constDecl hn) (.ifNext
    (Steady.ifAhead (steady_interfaceDecl hn) (steady_structDecl hn) rfl).weaken.loosen
    (Steady.ifAhead (steady_methodDecl hn) (steady_funcDecl hn) rfl).weaken)))

theorem steady_program : Steady true [] (program n) (program n') :=
  .rule (.cons_loose (steady_decl hn) (.cons_loose (.manyTrees (steady_decl hn) hn rfl)
    (.cons .oneOf .nil) (.seq_oneOf rfl)) (Rests.seq_cons (.manyTrees rfl) (.seq_oneOf rfl)).firm)

end

/-- What is read as a program ends with the end of the source. -/
theorem exists_eof {n : Nat} {ts r : TokenList} {cs : Forest}
    (h : program n ts = .ok (cs, r)) : ∃ t ∈ ts, t.kind = .eof := by
  have hbody : Steady true [] (seq [decl n, manyTrees [declStart] (decl n) n])
      (seq [decl n, manyTrees [declStart] (decl n) n]) :=
    .cons_loose (steady_decl (Nat.le_refl n)) (.cons_loose (.manyTrees (steady_decl (Nat.le_refl n))
      (Nat.le_refl n) rfl) .nil Rests.seq_nil.firm) (Rests.seq_cons (.manyTrees rfl) .seq_nil).firm
  have hprogram : program n = rule .program
      (seq ([decl n, manyTrees [declStart] (decl n) n] ++ [expect .eof])) := rfl
  rw [hprogram, seq_append, rule, bind_apply, bind_apply] at h
  generalize hres : seq [decl n, manyTrees [declStart] (decl n) n] ts = res at h
  rcases res with s | ⟨ds, _ | ⟨t, rest⟩⟩
  · cases h
  · cases h
  · have hsuffix := hbody.stops ts (t :: rest) (by rw [hres]; rfl)
    refine ⟨t, hsuffix.subset (by simp), ?_⟩
    by_cases ht : t.kind = .eof
    · exact ht
    · simp [bind_apply, expect, oneOf, ht] at h

/-- The token where the reading of a program stops does not depend on what comes after it, unless
it is an open brace after an identifier. -/
theorem program_stuck {n n' : Nat} (hn : n ≤ n') {u x : TokenList}
    {t : Token TokenKind} (h : program n (u ++ t :: x) = .error (.unexpected t x))
    (ht : t.kind = .openBrace → ∀ i ∈ u.getLast?, i.kind ≠ .ident)
    (y : TokenList) : program n' (u ++ t :: y) = .error (.unexpected t y) := by
  have hex : ¬Exempt true (u ++ [t]) [t] := by
    rintro ⟨-, w, i, hw, hi, hb⟩
    obtain rfl : u = w ++ [i] := (List.append_inj' (hw.trans (List.append_cons w i [t])) rfl).1
    exact ht (by simpa using hb) i (by simp) hi
  have hsame := (steady_program hn).same (u ++ [t]) x y [t] (by simp) (by simp [h, position]) hex
  simp only [List.append_assoc, List.cons_append, List.nil_append, h] at hsame
  obtain ⟨w, hw, -, hres⟩ := hsame.stuck_inv
  obtain rfl : w = [] := by simpa using hw
  exact hres

end MiniGoc.Reader
