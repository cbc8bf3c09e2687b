import ConstraintAlgebra.Connective

/-! Membership of an operand in a list of operands. -/
namespace ConstraintAlgebra

namespace Layer

def inDomain (ops : Layer) (h : Handle) (domain : Domain) : Build Handle := do
  let current ← Model.ask (·.domain h)
  if current.intersects domain then
    if current.isSubset domain then return ops.trueVar
    else Model.reify (.inside h domain) (.inside h domain.complement)
  else return ops.falseVar

variable {E : Type} [Encoding E]

def equalLiteral (ops : Layer) (left item : Operand) : Operate E Handle := do
  ops.literal (← ops.compare .eq left item)

def memberLiteral (ops : Layer) (left : Operand) (items : List Operand) : Operate E Handle :=
  match items with
  | [] => return ops.falseVar
  | [item] => ops.equalLiteral left item
  | items =>
    match left, Operand.scalars? items with
    | .var h, some scalars => do
      let codes ← scalars.mapM Scalar.code
      ops.inDomain h (.ofValues codes)
    | left, _ => do
      let lits ← items.mapM fun item => ops.equalLiteral left item
      ops.anyTrue lits

def isIn (ops : Layer) (left : Operand) (items : List Operand) : Operate E Operand :=
  match left, Operand.scalars? items with
  | .scalar s, some scalars => do
    let found ← scalars.anyM fun item => s.compare .eq item
    return .scalar (.bool found)
  | left, _ => return .var (← ops.memberLiteral left items)

def inIntegers (ops : Layer) (h : Handle) (set : List Int64) : Operate E Handle :=
  ops.memberLiteral (.var h) (set.map fun n => .scalar (.long n))

def inStrings (ops : Layer) (h : Handle) (set : List String) : Operate E Handle :=
  ops.memberLiteral (.var h) (set.map fun s => .scalar (.str s))

def inVars (ops : Layer) (h : Handle) (set : List Handle) : Operate E Handle :=
  ops.memberLiteral (.var h) (set.map .var)

end Layer

end ConstraintAlgebra
