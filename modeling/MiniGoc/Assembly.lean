/-!
# Assembly

The lines of a Jasmin listing: instructions, labels and directives.  Types and
members are given by their descriptors and qualified names, which are texts.

Listings hold numbers where a label, a slot or a limit stands.  The operand of a
single line may also be any word (`Operand.word`), and a line may be given by its
text (`Line.raw`).
-/

namespace MiniGoc

/-- The three kinds of values that have instructions of their own. -/
inductive Bank where
  | int
  | float
  | ref
deriving DecidableEq, Repr, Inhabited

/-- The kinds of array elements that have instructions of their own. -/
inductive Cell where
  | int
  | float
  | bool
  | ref
deriving DecidableEq, Repr, Inhabited

inductive Cond where
  | eq
  | ne
  | lt
  | le
  | gt
  | ge
deriving DecidableEq, Repr, Inhabited

/-- A constant that is loaded from the class file. -/
inductive Constant where
  | int (i : Int)
  /-- A floating point number, as it is written. -/
  | float (numeral : String)
  | string (s : String)
  /-- What stands there. -/
  | word (s : String)
deriving DecidableEq, Repr, Inhabited

/-- The number of a label, a slot or a limit, or any other word. -/
inductive Operand where
  | number (i : Int)
  | word (s : String)
deriving DecidableEq, Repr, Inhabited

inductive Instr where
  -- Constants.
  | pushNull
  | iconst (i : Int)
  /-- A truth value in the place of a small integer. -/
  | iconstFlag (b : Bool)
  | bipush (i : Int)
  | sipush (i : Int)
  | fconst (i : Nat)
  | ldc (c : Constant)
  -- Local variables and array elements.
  | load (bank : Bank) (slot : Int)
  | store (bank : Bank) (slot : Int)
  | arrayLoad (cell : Cell)
  | arrayStore (cell : Cell)
  -- Fields.
  | getStatic (member type : String)
  | putStatic (member type : String)
  | getField (member type : String)
  | putField (member type : String)
  -- Arithmetic.
  | iadd
  | isub
  | imul
  | idiv
  | irem
  | iand
  | ior
  | ineg
  | fadd
  | fsub
  | fmul
  | fdiv
  | fneg
  | fcmpl
  | i2f
  -- Jumps.
  /-- Takes two integers and jumps if they compare so. -/
  | ifInts (c : Cond) (target : Operand)
  /-- Takes an integer and jumps if it compares so with zero. -/
  | ifZero (c : Cond) (target : Operand)
  /-- Takes two references and jumps if they are, or are not, the same. -/
  | ifRefs (same : Bool) (target : Operand)
  | goto (target : Operand)
  -- The operand stack.
  | dup
  | dupX2
  | pop
  -- Objects.
  | newObject (type : String)
  | newArray (type : String)
  | newRefArray (type : String)
  | newMultiArray (type sizes : String)
  -- Calls.
  | invokeStatic (method type : String)
  | invokeSpecial (method type : String)
  | invokeVirtual (method type : String)
  | invokeInterface (method type : String) (count : Nat)
  | ret
  | retValue (bank : Bank)
deriving DecidableEq, Repr, Inhabited

/-- The lines of a listing. -/
inductive Line where
  | instr (i : Instr)
  | label (l : Operand)
  /-- The range of lines in which a slot holds a variable. -/
  | var (slot : Operand) (name type : String) (first last : Operand)
  -- The head of a class.
  | source (file : String)
  | classDecl (head : String)
  | interfaceDecl (name : String)
  | superDecl (name : String)
  | field (isStatic isFinal : Bool) (name type : String) (value : Option String)
  -- The head and the end of a method.
  | method (isStatic : Bool) (name type : String)
  | abstractMethod (name type : String)
  | limitStack (n : Operand)
  | limitLocals (n : Operand)
  | endMethod
  /-- A line given by its text. -/
  | raw (text : String)
deriving DecidableEq, Repr, Inhabited

/-- A piece of a listing. -/
abbrev Code := List Line

/-- What is printed in one go: some lines, or nothing at all where there should
be some. -/
abbrev Piece := Option Code

/-- A label by its number. -/
def Operand.ofNat (n : Nat) : Operand := .number n

end MiniGoc
