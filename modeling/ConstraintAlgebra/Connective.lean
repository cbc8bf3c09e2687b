import ConstraintAlgebra.Comparison

/-! Boolean operators. Disjunction and conjunction are duals: each has an absorbing truth value, true
for `or` and false for `and`, and the other truth value is neutral. -/
namespace ConstraintAlgebra

inductive Connective where
  | or
  | and
  deriving DecidableEq, Repr

namespace Connective

def operation : Connective → Operation
  | or => .or
  | and => .and

def absorbing : Connective → Bool
  | or => true
  | and => false

def dual : Connective → Connective
  | or => and
  | and => or

def combine : Connective → Bool → Bool → Bool
  | or => (· || ·)
  | and => (· && ·)

def holds : Connective → List Handle → Constraint
  | or => .anyTrue
  | and => .allTrue

def fails (c : Connective) : List Handle → Constraint := c.dual.holds

end Connective

namespace Model

def reifyConnective (c : Connective) (lits : List Handle) : Build Handle := do
  let complements ← lits.mapM fun h => h.negate
  reify (c.holds lits) (c.fails complements)

def undecided (m : Model) : List Handle → Except Failure (Option (List Handle))
  | [] => .ok (some [])
  | h :: rest => do
    m.assertBoolean .anyTrue h
    if ← m.isTrue h then return none
    else if ← m.isFalse h then m.undecided rest
    else return (← m.undecided rest).map (h :: ·)

end Model

namespace Layer

def anyTrue (ops : Layer) (lits : List Handle) : Build Handle := do
  match ← Model.ask (·.undecided lits) with
  | none => return ops.trueVar
  | some [] => return ops.falseVar
  | some [h] => return h
  | some rest => Model.reifyConnective .or rest

def connectConst (ops : Layer) (c : Connective) (h : Handle) (b : Bool) : Build Handle := do
  Model.ask (·.assertBoolean c.operation h)
  if b = c.absorbing || (← Model.ask (·.isTruth c.absorbing h)) then
    return ops.constant c.absorbing
  else if ← Model.ask (·.isTruth (!c.absorbing) h) then return ops.constant !c.absorbing
  else return h

/-- What known operands, equal ones and complements give before either has to be a boolean. -/
def waived (ops : Layer) (c : Connective) (l r : Handle) (m : Model) :
    Except Failure (Option Handle) := do
  if ← m.isTruth c.absorbing l then return some (ops.constant c.absorbing)
  else if ← m.isTruth c.absorbing r then return some (ops.constant c.absorbing)
  else
    let left ← m.isTruth (!c.absorbing) l
    let right ← m.isTruth (!c.absorbing) r
    if left && right then return some (ops.constant !c.absorbing)
    else if left || l = r then return some r
    else if right then return some l
    else if l = (← r.negate) then return some (ops.constant c.absorbing)
    else return none

def connectVars (ops : Layer) (c : Connective) (l r : Handle) : Build Handle := do
  match ← Model.ask (ops.waived c l r) with
  | some b => return b
  | none =>
    Model.ask (·.assertBoolean c.operation l)
    Model.ask (·.assertBoolean c.operation r)
    Model.reifyConnective c [l, r]

def connect (ops : Layer) (c : Connective) (left right : Operand) : Build Operand :=
  match left, right with
  | .scalar (.bool a), .scalar (.bool b) => return .scalar (.bool (c.combine a b))
  | .scalar (.bool a), .var h => return .var (← ops.connectConst c h a)
  | .var h, .scalar (.bool a) => return .var (← ops.connectConst c h a)
  | .var l, .var r => return .var (← ops.connectVars c l r)
  | l, r => throw (.unsupported c.operation l.kind r.kind)

def notVar (ops : Layer) (h : Handle) : Build Handle := do
  if ← Model.ask (·.isTrue h) then return ops.falseVar
  else if ← Model.ask (·.isFalse h) then return ops.trueVar
  else if ops.settings.nativeNegation && (← Model.ask (·.isBoolean h)) then h.negate
  else ops.compareConst .eq h 0

def not (ops : Layer) : Operand → Build Operand
  | .scalar (.bool b) => return .scalar (.bool (!b))
  | .var h => return .var (← ops.notVar h)
  | .scalar s => throw (.unsupportedNegation s.kind)

end Layer

end ConstraintAlgebra
