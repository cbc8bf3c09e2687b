import ConstraintAlgebra.Identifier
import ConstraintAlgebra.Text.Quoted

/-! Operands: scalars of the host, which an operator can compute with at once, and handles of model
variables. -/
namespace ConstraintAlgebra

inductive Scalar where
  | int (n : Int32)
  | long (n : Int64)
  | bool (b : Bool)
  | str (s : String)
  deriving DecidableEq

inductive Operand where
  | scalar (s : Scalar)
  | var (h : Handle)
  deriving DecidableEq

inductive Kind where
  | int
  | long
  | bool
  | string
  | var
  deriving DecidableEq, Repr

instance : ToString Kind where
  toString
    | .int => "int"
    | .long => "long"
    | .bool => "bool"
    | .string => "string"
    | .var => "var"

namespace Scalar

def kind : Scalar → Kind
  | int _ => .int
  | long _ => .long
  | bool _ => .bool
  | str _ => .string

def number? : Scalar → Option Int64
  | int n => some n.toInt64
  | long n => some n
  | _ => none

instance : ToString Scalar where
  toString
    | int n => toString n
    | long n => toString n ++ "L"
    | bool b => toString b
    | str s => Text.quote s

end Scalar

namespace Operand

def kind : Operand → Kind
  | scalar s => s.kind
  | var _ => .var

def isSymbolic : Operand → Bool
  | scalar _ => false
  | var _ => true

def handle? : Operand → Option Handle
  | scalar _ => none
  | var h => some h

def scalar? : Operand → Option Scalar
  | scalar s => some s
  | var _ => none

def scalars? (xs : List Operand) : Option (List Scalar) := xs.mapM scalar?

def number? : Operand → Option Int64
  | scalar s => s.number?
  | var _ => none

instance : ToString Operand where
  toString
    | scalar s => toString s
    | var h => toString h

def same (a b : Operand) : Bool :=
  match a.number?, b.number? with
  | some m, some n => m = n
  | _, _ => a = b

/-- Compares neighbours only: `same` is an equivalence. -/
def allEqual : List Operand → Bool
  | a :: b :: rest => a.same b && allEqual (b :: rest)
  | _ => true

def count (xs : List Operand) : Operand := .scalar (.long (.ofNat xs.length))

end Operand

end ConstraintAlgebra
