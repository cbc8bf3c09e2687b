import ConstraintAlgebra.Assignment

/-! A model records variables and posted constraints in the order of their creation. Nothing is ever
narrowed or removed. Actions on a model keep what they did before they failed. -/
namespace ConstraintAlgebra

structure Variable where
  domain : Domain
  name : String
  deriving DecidableEq

structure Model where
  vars : List Variable
  constraints : List Posted
  deriving DecidableEq

/-- An action that may extend a model and may fail, then with the model as far as it got. -/
abbrev Build := EStateM Failure Model

instance {σ : Type} : MonadLift (Except Failure) (EStateM Failure σ) where
  monadLift
    | .ok a => pure a
    | .error e => throw e

namespace Model

def empty : Model := ⟨[], []⟩

def lookup (m : Model) (v : VarId) : Except Failure Variable :=
  match m.vars[v.index]? with
  | some found => .ok found
  | none => .error (.foreignVariable v)

def nameOf (m : Model) (h : Handle) : Except Failure (Option String) := do
  let name := (← m.lookup h.id).name
  return if name.isEmpty then none else some name

def variableDomain (m : Model) (h : Handle) : Except Failure Domain := do
  return (← m.lookup h.id).domain

def domain (m : Model) (h : Handle) : Except Failure Domain := do
  let d ← m.variableDomain h
  if h.isNegated then d.negateBoolean else return d

def bounds (m : Model) (h : Handle) : Except Failure Interval := do
  let d ← m.variableDomain h
  if h.isNegated then
    let lo ← complementWord (← d.max)
    let hi ← complementWord (← d.min)
    return ⟨lo, hi⟩
  else
    let lo ← d.min
    let hi ← d.max
    return ⟨lo, hi⟩

def check (m : Model) (a : Assignment) : Except Failure Bool :=
  if a.size ≠ m.vars.length then .error .assignmentSize
  else if (m.vars.zip a.values).all fun (v, x) => v.domain.contains x then
    m.constraints.allM (·.isSatisfied a)
  else .ok false

def ask {α : Type} (question : Model → Except Failure α) : Build α := do
  liftM (question (← get))

theorem askRun {α : Type} (question : Model → Except Failure α) (m : Model) :
    ask question m = match question m with
      | .ok a => .ok a m
      | .error e => .error e m := by
  change (liftM (question m) : Build α) m = _
  cases question m <;> rfl

def newVariable (domain : Domain) (name : String) : Build Handle := do
  if domain.isEmpty then throw (.emptyDomain name)
  else
    modify fun m => { m with vars := m.vars ++ [⟨domain, name⟩] }
    return .ofId (← VarId.ofIndex ((← get).vars.length - 1))

def newInt (lo hi : Int64) (name : String) : Build Handle := do
  newVariable (← Domain.interval lo hi) name

def newConstant (x : Int64) : Build Handle := newInt x x ""

def newBool (name : String) : Build Handle := newInt 0 1 name

def recognize (m : Model) (p : Posted) : Except Failure Unit :=
  p.handles.forM fun h => do
    let _ ← m.lookup h.id

def post (constraint : Constraint) (guard : Option Handle) : Build Unit := do
  let posted := Posted.mk constraint guard
  ask (·.recognize posted)
  modify fun m => { m with constraints := m.constraints ++ [posted] }

theorem postRun (constraint : Constraint) (guard : Option Handle) (m : Model) :
    post constraint guard m = match m.recognize ⟨constraint, guard⟩ with
      | .ok _ => .ok () { m with constraints := m.constraints ++ [⟨constraint, guard⟩] }
      | .error e => .error e m := by
  simp only [post, bind, EStateM.bind, askRun]
  cases m.recognize ⟨constraint, guard⟩ <;> rfl

def add (constraint : Constraint) : Build Unit := post constraint none

def addIf (constraint : Constraint) (guard : Handle) : Build Unit := post constraint (some guard)

def summary (m : Model) : String :=
  "CpModel \x7b vars: " ++ toString m.vars.length ++ ", constraints: " ++
    toString m.constraints.length ++ " \x7d"

def variableLine (id : String) (v : Variable) : String :=
  if v.name.isEmpty then s!"{id} in {v.domain}\n" else s!"{id} ({v.name}) in {v.domain}\n"

def listing (m : Model) : Except Failure String := do
  let declared ← m.vars.zipIdx.mapM fun (v, i) => do
    return variableLine (toString (Handle.ofId (← VarId.ofIndex i))) v
  let constraints := m.constraints.map fun p => s!"{p}\n"
  return String.join (declared ++ constraints)

end Model

end ConstraintAlgebra
