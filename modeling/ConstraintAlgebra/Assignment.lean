import ConstraintAlgebra.Constraint
import ConstraintAlgebra.Handle

/-! Values for the variables of a model, in creation order, and the truth of constraints under them.
Operands are read in the order in which a constraint is written out here; the first that cannot be
read decides how the evaluation fails. -/
namespace ConstraintAlgebra

structure Assignment where
  values : List Int64
  deriving DecidableEq, Repr

namespace Assignment

def size (a : Assignment) : Nat := a.values.length

def isEmpty (a : Assignment) : Bool := a.values.isEmpty

def get (a : Assignment) (v : VarId) : Except Failure Int64 :=
  match a.values[v.index]? with
  | some x => .ok x
  | none => .error .unassigned

def set (a : Assignment) (v : VarId) (x : Int64) : Except Failure Assignment :=
  if v.index < a.size then .ok ⟨a.values.set v.index x⟩ else .error .unassigned

def push (a : Assignment) (x : Int64) : Assignment := ⟨a.values ++ [x]⟩

def value (a : Assignment) (h : Handle) : Except Failure Int64 := do
  let x ← a.get h.id
  if h.isNegated then complementWord x else return x

def isTrue (a : Assignment) (h : Handle) : Except Failure Bool := do
  return (← a.value h) == 1

def term (a : Assignment) : Term → Except Failure Int64
  | .var h => a.value h
  | .const c => .ok c

def total (a : Assignment) : List Summand → Int → Except Failure Int
  | [], sum => .ok sum
  | (c, h) :: rest, sum => do
    let x ← a.value h
    a.total rest (← wide (sum + c.toInt * x.toInt))

end Assignment

namespace Constraint

def holds (a : Assignment) : Constraint → Except Failure Bool
  | compare left rel right => do
    let l ← a.value left
    let r ← a.term right
    return rel.holds l r
  | linear target terms offset => do
    let sum ← wide ((← a.total terms 0) + offset.toInt)
    let t ← a.value target
    return t.toInt == sum
  | greatest target vars => do
    let xs ← vars.mapM a.value
    let t ← a.value target
    return xs.max? == some t
  | least target vars => do
    let xs ← vars.mapM a.value
    let t ← a.value target
    return xs.min? == some t
  | product target left right => do
    let t ← a.value target
    let l ← a.value left
    let r ← a.value right
    return t.toInt == l.toInt * r.toInt
  | quotient target numerator denominator => do
    let d ← a.term denominator
    if d = 0 then return false
    else
      let n ← a.value numerator
      let t ← a.value target
      return toWord? (n.toInt.tdiv d.toInt) == some t
  | anyTrue lits => lits.anyM a.isTrue
  | allTrue lits => lits.allM a.isTrue
  | inside var domain => do
    return domain.contains (← a.value var)

end Constraint

namespace Posted

def isSatisfied (a : Assignment) (p : Posted) : Except Failure Bool :=
  match p.guard with
  | none => p.constraint.holds a
  | some g => do
    if ← a.isTrue g then p.constraint.holds a else return true

end Posted

end ConstraintAlgebra
