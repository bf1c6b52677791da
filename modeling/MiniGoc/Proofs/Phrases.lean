import MiniGoc.Proofs.Derivation

/-!
# The phrases of MiniGo

The tables for the grammar of MiniGo: the tokens its rules start with (`Rule.first`), and an order
of its rules in which each can be filled from those before it (`Rule.bottomUp`).
Only the list of further conditions of an `if` can be empty.
-/

namespace MiniGoc

open Grammar (miniGo)

namespace Rule

/-- Whether a phrase of the rule can be empty. -/
def empty (r : Rule) : Bool := r == .elseIfList

/-- The kinds of the tokens that phrases of a rule start with. -/
def first : Rule → List TokenKind
  | program | decl => Reader.declStart
  | stmt => Reader.stmtStart
  | block | shortArrayLiteral => [.openBrace]
  | varDecl => [.kwVar]
  | constDecl => [.kwConst]
  | ifStmt | onlyIf => [.kwIf]
  | elseIfList | elseStmt => [.kwElse]
  | forStmt | basicFor | forInitial | forRange => [.kwFor]
  | initialization => [.kwVar, .ident]
  | breakStmt => [.kwBreak]
  | continueStmt => [.kwContinue]
  | returnStmt => [.kwReturn]
  | funcDecl | methodDecl => [.kwFunc]
  | structDecl | interfaceDecl => [.kwType]
  | update | funcCall | structField | structLiteral | structEleList | structEle
  | interfaceMethod | paramList | paramDecl => [.ident]
  | assignStmt | lhs | callStmt | methodCall | expr6 | operand | arrayAccess | structAccess
  | chain => Reader.operandStart
  | expr | expr1 | expr2 | expr3 | expr4 | expr5 | argumentList => Reader.exprStart
  | subExpr => [.openParen]
  | primitiveType => Grammar.primitiveKinds
  | typ => Reader.typeStart
  | arrayType | arrayLiteralBox | arrayAccessBox | arrayLiteral => [.openBracket]
  | arrayEleList | arrayEle =>
    [.intLit, .floatLit, .boolLit, .stringLit, .nilLit, .ident, .openBrace]
  | highOperator => [.multiply, .divide, .remain]
  | lowOperator => [.add, .sub]
  | relationalOperator => Grammar.relationKinds
  | assignOperator => Grammar.assignKinds

/-- The rules in an order in which each has an alternative of tokens and rules before it. -/
def bottomUp : List Rule :=
  [highOperator, lowOperator, relationalOperator, assignOperator, primitiveType, typ,
   arrayLiteralBox, arrayType, operand, chain, expr6, expr5, expr4, expr3, expr2, expr1, expr,
   subExpr, arrayEle, arrayEleList, shortArrayLiteral, arrayLiteral, arrayAccessBox, arrayAccess,
   structAccess, structEle, structEleList, structLiteral, argumentList, funcCall, methodCall,
   lhs, assignStmt, breakStmt, continueStmt, callStmt, returnStmt, varDecl, constDecl, stmt, block,
   onlyIf, elseIfList, elseStmt, ifStmt, update, initialization, basicFor, forInitial, forRange,
   forStmt, paramDecl, paramList, funcDecl, methodDecl, structField, structDecl,
   interfaceMethod, interfaceDecl, decl, program]

theorem mem_all (r : Rule) : r ∈ all := by
  cases r <;> decide

end Rule

/-! ## First tokens -/

theorem miniGo_heads : miniGo.Heads Rule.first Rule.empty := by
  have h : ∀ r ∈ Rule.all, ∀ a ∈ (miniGo.alternatives r).alts,
      (∀ k ∈ Part.headsAll Rule.first Rule.empty a, k ∈ r.first) ∧
        (Part.nullableAll Rule.empty a = true → r.empty = true) := by
    decide +kernel
  exact fun r => h r r.mem_all

/-- The kinds of the tokens that phrases of the parts start with. -/
def Grammar.starts (ps : List Grammar.RulePart) : List TokenKind :=
  Part.headsAll Rule.first Rule.empty ps

/-- Whether no phrase of the parts is empty. -/
def Grammar.solid (ps : List Grammar.RulePart) : Bool := !Part.nullableAll Rule.empty ps

theorem Grammar.Grows.leaves_eq_cons {ps : List Grammar.RulePart} {cs : Forest}
    (h : miniGo.Grows ps cs) (hs : Grammar.solid ps = true) :
    ∃ t ts, Tree.leavesList cs = t :: ts ∧ t.kind ∈ Grammar.starts ps := by
  have hb := miniGo_heads.begins h
  unfold Tree.Begins at hb
  split at hb
  · simp [Grammar.solid, hb] at hs
  case h_2 t ts hl => exact ⟨t, ts, hl, hb⟩

theorem Grammar.Grows.head_mem {ps : List Grammar.RulePart} {cs : Forest}
    (h : miniGo.Grows ps cs) : ∀ t ∈ (Tree.leavesList cs).head?, t.kind ∈ Grammar.starts ps := by
  have hb := miniGo_heads.begins h
  unfold Tree.Begins at hb
  split at hb <;> simp_all [Grammar.starts]

/-! ## Phrases exist -/

theorem exists_grows_rule (r : Rule) : ∃ cs, miniGo.Grows [.rule r] cs := by
  have hfill : ∀ r ∈ Rule.all,
      Part.fillableAny (fun s => decide (Rule.bottomUp.idxOf s < Rule.bottomUp.idxOf r))
        (miniGo.alternatives r).alts = true := by
    decide +kernel
  -- The rules that the alternative is made of come before the rule.
  induction hn : Rule.bottomUp.idxOf r using Nat.strongRecOn generalizing r with
  | ind n ih =>
    subst hn
    obtain ⟨a, ha, ds, hds⟩ := Grammar.exists_grows_of_fillableAny
      (fun s hs => ih _ (of_decide_eq_true hs) s rfl) _ (hfill r r.mem_all)
    exact ⟨_, Grammar.grows_rule.2 ⟨ds, rfl, a, ha, hds⟩⟩

theorem exists_grows {ps : List Grammar.RulePart}
    (h : Part.fillableAll (fun _ => true) ps = true) : ∃ cs, miniGo.Grows ps cs :=
  Grammar.exists_grows_of_fillableAll (fun r _ => exists_grows_rule r) ps h

end MiniGoc
