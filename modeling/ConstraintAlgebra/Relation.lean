import ConstraintAlgebra.Interval

/-! The six relations between two values of an ordered type, and what the ranges of two operands
already decide about them. -/
namespace ConstraintAlgebra

inductive Relation where
  | eq
  | ne
  | lt
  | le
  | gt
  | ge
  deriving DecidableEq, Repr

namespace Relation

def negate : Relation → Relation
  | eq => ne
  | ne => eq
  | lt => ge
  | le => gt
  | gt => le
  | ge => lt

def flip : Relation → Relation
  | eq => eq
  | ne => ne
  | lt => gt
  | le => ge
  | gt => lt
  | ge => le

def isOrdering : Relation → Bool
  | eq | ne => false
  | _ => true

def accepts : Relation → Ordering → Bool
  | eq, o => o.isEq
  | ne, o => o.isNe
  | lt, o => o.isLT
  | le, o => o.isLE
  | gt, o => o.isGT
  | ge, o => o.isGE

def holds {α : Type} [Ord α] (r : Relation) (a b : α) : Bool := r.accepts (Ord.compare a b)

def name : Relation → String
  | eq => "eq"
  | ne => "ne"
  | lt => "lt"
  | le => "leq"
  | gt => "gt"
  | ge => "geq"

instance : ToString Relation where
  toString
    | eq => "=="
    | ne => "!="
    | lt => "<"
    | le => "<="
    | gt => ">"
    | ge => ">="

theorem acceptsNegate (r : Relation) (o : Ordering) : r.negate.accepts o = !r.accepts o := by
  cases r <;> cases o <;> rfl

def decidedEq (i j : Interval) : Option Bool :=
  if i.isPoint && j.isPoint && i.lo = j.lo then some true
  else if i.overlaps j then none
  else some false

def decidedLt (i j : Interval) : Option Bool :=
  if i.hi < j.lo then some true
  else if j.hi ≤ i.lo then some false
  else none

def decidedLe (i j : Interval) : Option Bool :=
  if i.hi ≤ j.lo then some true
  else if j.hi < i.lo then some false
  else none

def decided : Relation → Interval → Interval → Option Bool
  | eq, i, j => decidedEq i j
  | ne, i, j => (decidedEq i j).map not
  | lt, i, j => decidedLt i j
  | le, i, j => decidedLe i j
  | gt, i, j => decidedLt j i
  | ge, i, j => decidedLe j i

end Relation

end ConstraintAlgebra
