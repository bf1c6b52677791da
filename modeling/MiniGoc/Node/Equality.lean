import MiniGoc.Fault
import MiniGoc.Node

/-!
# Equality of nodes

Two nodes with parts are equal when they are of the same kind and their parts
are equal, compared in order up to the first difference.  The nodes without
parts (the plain types, `break`, `continue` and `nil`) are all equal to one
another.  They are unequal to every node with parts, and cannot be compared with
a plain value: that is a fault.  Numbers and truth values compare by value.
-/

namespace MiniGoc.Node

/-- How a node takes part in a comparison. -/
inductive Shape where
  /-- A value that is no node. -/
  | plain
  /-- A node without parts. -/
  | bare
  | parts
deriving DecidableEq

def shape : Node → Shape
  | none | bool _ | int _ | float _ | text _ | list _ | pair _ _ => .plain
  | intType | floatType | boolType | stringType | voidType => .bare
  | breakLoop | continueLoop | nilLit => .bare
  | _ => .parts

/-- Equality of plain values that hold no node. -/
def sameScalar : Node → Node → Bool
  | none, none => true
  | text a, text b => a == b
  | bool a, bool b => a == b
  | int a, int b => a == b
  | bool a, int b => (if a then 1 else 0) == b
  | int a, bool b => a == (if b then 1 else 0)
  | float a, float b => a.same b
  | float a, int b => a.sameInt b
  | int a, float b => b.sameInt a
  | float a, bool b => a.sameInt (if b then 1 else 0)
  | bool a, float b => b.sameInt (if a then 1 else 0)
  | _, _ => false

/-- Goes on with the second comparison if the first one found no difference. -/
def andThen (a b : Except Fault Bool) : Except Fault Bool :=
  match a with
  | .ok true => b
  | r => r

/-- Goes on with a comparison if two lists have one length. -/
def ofLength (xs ys : List Node) (a : Except Fault Bool) : Except Fault Bool :=
  if xs.length = ys.length then a else .ok false

mutual

/-- Whether two nodes are equal. -/
def same : Node → Node → Except Fault Bool
  | list xs, list ys => ofLength xs ys (sameAll xs ys)
  | pair n v, pair m w => andThen (.ok (n == m)) (same v w)
  | program ds, program es => ofLength ds es (sameAll ds es)
  | param n t, param m u => andThen (.ok (n == m)) (same t u)
  | var n t i, var m u j => andThen (.ok (n == m)) (andThen (same t u) (same i j))
  | const n t i, const m u j => andThen (.ok (n == m)) (andThen (same t u) (same i j))
  | func n ps r b, func m qs s c =>
      andThen (.ok (n == m))
        (andThen (ofLength ps qs (sameAll ps qs)) (andThen (same r s) (same b c)))
  | method r t f, method s u g => andThen (.ok (r == s)) (andThen (same t u) (same f g))
  | prototype n ps r, prototype m qs s =>
      andThen (.ok (n == m)) (andThen (ofLength ps qs (sameAll ps qs)) (same r s))
  | arrayType ds e, arrayType fs g => andThen (ofLength ds fs (sameAll ds fs)) (same e g)
  | interfaceType n ms, interfaceType m ns =>
      andThen (.ok (n == m)) (ofLength ms ns (sameAll ms ns))
  | structType n es ms is, structType m fs ns js =>
      andThen (.ok (n == m)) (andThen (ofLength es fs (sameAll es fs))
        (andThen (ofLength ms ns (sameAll ms ns)) (ofLength is js (sameAll is js))))
  | block ms, block ns => ofLength ms ns (sameAll ms ns)
  | assign l r, assign m s => andThen (same l m) (same r s)
  | ifElse c y n, ifElse d z m => andThen (same c d) (andThen (same y z) (same n m))
  | forBasic c b, forBasic d e => andThen (same c d) (same b e)
  | forStep i c u b, forStep j d v e =>
      andThen (same i j) (andThen (same c d) (andThen (same u v) (same b e)))
  | forEach i v a b, forEach j w c d =>
      andThen (same i j) (andThen (same v w) (andThen (same a c) (same b d)))
  | ret e, ret f => same e f
  | id n, id m => .ok (n == m)
  | cell a is, cell b js => andThen (same a b) (ofLength is js (sameAll is js))
  | field r n, field s m => andThen (same r s) (.ok (n == m))
  | binary o l r, binary p m s => andThen (.ok (o == p)) (andThen (same l m) (same r s))
  | unary o e, unary p f => andThen (.ok (o == p)) (same e f)
  | call n as, call m bs => andThen (.ok (n == m)) (ofLength as bs (sameAll as bs))
  | methodCall r n as, methodCall s m bs =>
      andThen (same r s) (andThen (.ok (n == m)) (ofLength as bs (sameAll as bs)))
  | intLit v, intLit w => same v w
  | floatLit v, floatLit w => same v w
  | stringLit v, stringLit w => same v w
  | boolLit v, boolLit w => same v w
  | arrayLit ds e v, arrayLit fs g w =>
      andThen (ofLength ds fs (sameAll ds fs)) (andThen (same e g) (same v w))
  | structLit n es, structLit m fs => andThen (.ok (n == m)) (ofLength es fs (sameAll es fs))
  | a, b =>
      match a.shape, b.shape with
      | .bare, .bare => .ok true
      | .bare, .plain => .error .missingPart
      | .plain, .bare => .error .missingPart
      | .plain, .plain => .ok (sameScalar a b)
      | _, _ => .ok false

/-- Compares the items of two lists of one length. -/
def sameAll : List Node → List Node → Except Fault Bool
  | x :: xs, y :: ys => andThen (same x y) (sameAll xs ys)
  | _, _ => .ok true

end

attribute [local simp] shape sameScalar same

end MiniGoc.Node
