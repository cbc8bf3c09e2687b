import ConstraintAlgebra.Layer

/-! Comparing operands. Scalars are compared at once; ranges that already decide the relation give a
constant of the layer; anything else is reified. -/
namespace ConstraintAlgebra

namespace Layer

def compareConst (ops : Layer) (rel : Relation) (h : Handle) (c : Int64) : Build Handle := do
  let range ← Model.ask (·.bounds h)
  match rel.decided range (.point c) with
  | some b => return ops.constant b
  | none => Model.reify (.compare h rel (.const c)) (.compare h rel.negate (.const c))

def compareVars (ops : Layer) (rel : Relation) (l r : Handle) : Build Handle := do
  if l = r then return ops.constant (rel.accepts .eq)
  else
    let left ← Model.ask (·.bounds l)
    let right ← Model.ask (·.bounds r)
    match rel.decided left right with
    | some b => return ops.constant b
    | none => Model.reify (.compare l rel (.var r)) (.compare l rel.negate (.var r))

variable {E : Type} [Encoding E]

def comparand (rel : Relation) (s : Scalar) : Operate E Int64 :=
  if s.kind = .string && rel.isOrdering then throw (.stringOrdering rel) else s.code

def compare (ops : Layer) (rel : Relation) (left right : Operand) : Operate E Operand :=
  match left, right with
  | .var l, .var r => return .var (← ops.compareVars rel l r)
  | .var l, .scalar s => do
    let c ← comparand rel s
    return .var (← ops.compareConst rel l c)
  | .scalar s, .var r => do
    let c ← comparand rel s
    return .var (← ops.compareConst rel.flip r c)
  | .scalar a, .scalar b => do
    let holds ← a.compare rel b
    return .scalar (.bool holds)

end Layer

namespace Model

def increasing : List Handle → Build Unit
  | l :: r :: rest => do
    add (.compare l .le (.var r))
    increasing (r :: rest)
  | _ => return ()

end Model

end ConstraintAlgebra
