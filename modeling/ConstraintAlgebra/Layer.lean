import ConstraintAlgebra.Encoding
import ConstraintAlgebra.Model

/-! The operator layer of a model: its two boolean constants and its settings. Operators work in a
workspace, the model beside the state of the string encoding. -/
namespace ConstraintAlgebra

structure Settings where
  nativeNegation : Bool
  /-- Declared range of quotients and of products of two variables. -/
  unbounded : Interval
  deriving DecidableEq, Repr

def Settings.standard : Settings := ⟨true, ⟨-2147483648, 2147483647⟩⟩

structure Layer where
  trueVar : Handle
  falseVar : Handle
  settings : Settings
  deriving DecidableEq

structure Workspace (E : Type) where
  model : Model
  encoder : E

abbrev Operate (E : Type) := EStateM Failure (Workspace E)

def onModel {E α : Type} (action : Build α) : Operate E α := fun w =>
  match action w.model with
  | .ok a m => .ok a { w with model := m }
  | .error e m => .error e { w with model := m }

instance {E : Type} : MonadLift Build (Operate E) := ⟨onModel⟩

namespace Scalar

def number (op : Operation) (s : Scalar) : Except Failure Int64 :=
  match s.number? with
  | some n => .ok n
  | none => .error (.notNumber op s.kind)

def compare (rel : Relation) (a b : Scalar) : Except Failure Bool :=
  match a.number?, b.number? with
  | some m, some n => .ok (rel.holds m n)
  | _, _ =>
    match a, b with
    | bool p, bool q => .ok (rel.holds p q)
    | str s, str t => if rel.isOrdering then .error (.stringOrdering rel) else .ok (rel.holds s t)
    | a, b => .error (.incomparable rel a.kind b.kind)

def code {E : Type} [Encoding E] (s : Scalar) : Operate E Int64 :=
  match s with
  | int n => return n.toInt64
  | long n => return n
  | bool b => return if b then 1 else 0
  | str s => modifyGet fun w =>
    let (code, encoder) := Encoding.encode w.encoder s
    (code, { w with encoder })

end Scalar

namespace Model

def reify (holds fails : Constraint) : Build Handle := do
  let b ← newBool ""
  addIf holds b
  addIf fails (← b.negate)
  return b

def isTruth (m : Model) (b : Bool) (h : Handle) : Except Failure Bool := do
  return (← m.bounds h) == .truth b

def isTrue (m : Model) : Handle → Except Failure Bool := m.isTruth true

def isFalse (m : Model) : Handle → Except Failure Bool := m.isTruth false

def isFixed (m : Model) (h : Handle) : Except Failure Bool := do
  return (← m.bounds h).isPoint

def isBoolean (m : Model) (h : Handle) : Except Failure Bool := do
  return (← m.bounds h).within ⟨0, 1⟩

def overlaps (m : Model) (a b : Handle) : Except Failure Bool := do
  let i ← m.bounds a
  let j ← m.bounds b
  return i.overlaps j

def assertBoolean (m : Model) (op : Operation) (h : Handle) : Except Failure Unit := do
  if ← m.isBoolean h then return () else throw (.notBoolean op h (← m.bounds h))

end Model

namespace Layer

def create (settings : Settings) : Build Layer := do
  let trueVar ← Model.newConstant 1
  let falseVar ← Model.newConstant 0
  return ⟨trueVar, falseVar, settings⟩

def constant (ops : Layer) (b : Bool) : Handle := if b then ops.trueVar else ops.falseVar

def toConst {E : Type} [Encoding E] (ops : Layer) : Operand → Operate E Handle
  | .var h => return h
  | .scalar (.bool b) => return ops.constant b
  | .scalar s => do
    let code ← s.code
    Model.newConstant code

def literal (ops : Layer) : Operand → Except Failure Handle
  | .var h => .ok h
  | .scalar (.bool b) => .ok (ops.constant b)
  | .scalar s => .error (.notLiteral s.kind)

end Layer

end ConstraintAlgebra
