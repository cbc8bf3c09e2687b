import ConstraintAlgebra.Arithmetic

/-! The greatest or the least of some operands. -/
namespace ConstraintAlgebra

inductive Extreme where
  | greatest
  | least
  deriving DecidableEq, Repr

namespace Extreme

def operation : Extreme → Operation
  | greatest => .max
  | least => .min

def of (e : Extreme) (xs : List Int64) : Option Int64 :=
  match e with
  | greatest => xs.max?
  | least => xs.min?

def constraint : Extreme → Handle → List Handle → Constraint
  | greatest => .greatest
  | least => .least

end Extreme

namespace Model

def extremeItem (e : Extreme) : Operand → Build Handle
  | .var h => return h
  | .scalar s => do
    let n ← s.number e.operation
    newConstant n

def envelope (m : Model) : List Handle → Interval → Except Failure Interval
  | [], hull => .ok hull
  | h :: rest, hull => do
    let range ← m.bounds h
    m.envelope rest ⟨min hull.lo range.lo, max hull.hi range.hi⟩

def extreme (e : Extreme) (items : List Operand) : Build Operand :=
  match Operand.scalars? items with
  | some scalars => do
    let numbers ← liftM (scalars.mapM (Scalar.number e.operation))
    match e.of numbers with
    | some n => return long n
    | none => throw (.emptyList e.operation)
  | none => do
    let vars ← items.mapM (extremeItem e)
    let hull ← ask (·.envelope vars ⟨Int64.maxValue, Int64.minValue⟩)
    let target ← newInt hull.lo hull.hi ""
    add (e.constraint target vars)
    return .var target

end Model

end ConstraintAlgebra
