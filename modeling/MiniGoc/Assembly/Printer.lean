import MiniGoc.Assembly
import MiniGoc.Node.Printer

/-!
# The text of a listing

Every line ends in a line break, instructions start with a tab, and a method is
set off by an empty line.  The four lowest slots have short forms.

In a text constant a backslash is put before each backslash and each quote.
-/

namespace MiniGoc

def Operand.render : Operand → String
  | number i => toString i
  | word s => s

def Bank.letter : Bank → String
  | int => "i"
  | float => "f"
  | ref => "a"

/-- The letter of an array element. -/
def Cell.letter : Cell → String
  | int => "i"
  | float => "f"
  | bool => "b"
  | ref => "a"

def Cond.word : Cond → String
  | eq => "eq"
  | ne => "ne"
  | lt => "lt"
  | le => "le"
  | gt => "gt"
  | ge => "ge"

/-- A character inside quotes. -/
def Constant.escapeChar (c : Char) : List Char :=
  if c = '\\' ∨ c = '"' then ['\\', c] else [c]

/-- A text inside quotes. -/
def Constant.escape (s : String) : String := String.ofList (s.toList.flatMap escapeChar)

def Constant.render : Constant → String
  | int i => toString i
  | float s => s
  | string s => "\"" ++ escape s ++ "\""
  | word s => s

/-- The word for a local slot: slots 0 to 3 are part of the instruction's name. -/
def Instr.slotWord (slot : Int) : String :=
  if 0 ≤ slot ∧ slot ≤ 3 then "_" ++ toString slot else " " ++ toString slot

/-- The text of a jump target. -/
def Instr.targetWord (l : Operand) : String := " Label" ++ l.render

def Instr.render : Instr → String
  | pushNull => "aconst_null"
  | iconst i => if i = -1 then "iconst_ml" else "iconst_" ++ toString i
  | iconstFlag b => "iconst_" ++ Node.boolText b
  | bipush i => "bipush " ++ toString i
  | sipush i => "sipush " ++ toString i
  | fconst i => "fconst_" ++ toString i
  | ldc c => "ldc " ++ c.render
  | load b s => b.letter ++ "load" ++ slotWord s
  | store b s => b.letter ++ "store" ++ slotWord s
  | arrayLoad c => c.letter ++ "aload"
  | arrayStore c => c.letter ++ "astore"
  | getStatic m t => "getstatic " ++ m ++ " " ++ t
  | putStatic m t => "putstatic " ++ m ++ " " ++ t
  | getField m t => "getfield " ++ m ++ " " ++ t
  | putField m t => "putfield " ++ m ++ " " ++ t
  | iadd => "iadd"
  | isub => "isub"
  | imul => "imul"
  | idiv => "idiv"
  | irem => "irem"
  | iand => "iand"
  | ior => "ior"
  | ineg => "ineg"
  | fadd => "fadd"
  | fsub => "fsub"
  | fmul => "fmul"
  | fdiv => "fdiv"
  | fneg => "fneg"
  | fcmpl => "fcmpl"
  | i2f => "i2f"
  | ifInts c l => "if_icmp" ++ c.word ++ targetWord l
  | ifZero c l => "if" ++ c.word ++ targetWord l
  | ifRefs same l => "if_acmp" ++ (if same then "eq" else "ne") ++ targetWord l
  | goto l => "goto" ++ targetWord l
  | dup => "dup"
  | dupX2 => "dup_x2"
  | pop => "pop"
  | newObject t => "new " ++ t
  | newArray t => "newarray " ++ t
  | newRefArray t => "anewarray " ++ t
  | newMultiArray t n => "multianewarray " ++ t ++ " " ++ n
  | invokeStatic m t => "invokestatic " ++ m ++ t
  | invokeSpecial m t => "invokespecial " ++ m ++ t
  | invokeVirtual m t => "invokevirtual " ++ m ++ t
  | invokeInterface m t n => "invokeinterface " ++ m ++ t ++ " " ++ toString n
  | ret => "return"
  | retValue b => b.letter ++ "return"

/-- The text of a line, with the line break at its end. -/
def Line.render : Line → String
  | instr i => "\t" ++ i.render ++ "\n"
  | label l => "Label" ++ l.render ++ ":\n"
  | var slot n t first last =>
      ".var " ++ slot.render ++ " is " ++ n ++ " " ++ t ++ " from Label" ++ first.render
        ++ " to Label" ++ last.render ++ "\n"
  | source f => ".source " ++ f ++ "\n"
  | classDecl h => ".class " ++ h ++ "\n"
  | interfaceDecl n => ".interface public abstract " ++ n ++ "\n"
  | superDecl n => ".super " ++ n ++ "\n"
  | field isStatic isFinal n t v =>
      ".field " ++ (if isStatic then "static " else "") ++ (if isFinal then "final " else "")
        ++ n ++ " " ++ t ++ (match v with | some s => " = " ++ s | none => "") ++ "\n"
  | method isStatic n t =>
      "\n.method public " ++ (if isStatic then "static " else "") ++ n ++ t ++ "\n"
  | abstractMethod n t => ".method public abstract " ++ n ++ t ++ "\n"
  | limitStack n => ".limit stack " ++ n.render ++ "\n"
  | limitLocals n => ".limit locals " ++ n.render ++ "\n"
  | endMethod => ".end method\n"
  | raw s => s

/-- The text of a piece of a listing. -/
def Code.render (c : Code) : String := String.join (c.map Line.render)

end MiniGoc
