import MiniGoc.Lookup
import MiniGoc.Node

/-!
# Symbols

A symbol is a name that the code generator knows, with its type and the place where
its value is kept.  The names around a piece of a program are kept in scopes, the
innermost first, and the first symbol of a name is the one that counts.
-/

namespace MiniGoc

/-- Where the value of a name is kept. -/
inductive Home where
  | unknown
  | slot (index : Int)
  | member (owner : String) (isStatic : Bool)
deriving DecidableEq, Repr, Inhabited

/-- A known name. -/
structure Symbol where
  name : String
  type : Node
  home : Home
deriving Repr, Inhabited

/-- The word for the place of a symbol, if it has one. -/
def Home.word? : Home → Option String
  | unknown => none
  | slot i => some (toString i)
  | member o _ => some o

/-- The name of the class that holds the functions and variables of a program. -/
def mainClass : String := "MiniGoClass"

namespace Symbol

def find? (name : String) (ss : List Symbol) : Option Symbol := ss.find? (·.name == name)

/-- A static member of the class of the program. -/
def global (name : String) (type : Node) : Symbol := ⟨name, type, .member mainClass true⟩

def localVar (name : String) (type : Node) (slot : Int) : Symbol := ⟨name, type, .slot slot⟩

def inputOutput (name : String) (params : List Node) (result : Node) : Symbol :=
  ⟨name, .funcType params result, .member "io" true⟩

/-- The names every program starts with. -/
def builtins : List Symbol :=
  [inputOutput "getInt" [] .intType,
   inputOutput "putInt" [.intType] .voidType,
   inputOutput "putIntLn" [.intType] .voidType,
   inputOutput "getFloat" [] .intType,
   inputOutput "putFloat" [.floatType] .voidType,
   inputOutput "putFloatLn" [.floatType] .voidType,
   inputOutput "getBool" [] .boolType,
   inputOutput "putBool" [.boolType] .voidType,
   inputOutput "putBoolLn" [.boolType] .voidType,
   inputOutput "getString" [] .stringType,
   inputOutput "putString" [.stringType] .voidType,
   inputOutput "putStringLn" [.stringType] .voidType,
   inputOutput "putLn" [] .voidType]

end Symbol

end MiniGoc
