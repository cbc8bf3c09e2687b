import ConstraintAlgebra.Extreme
import ConstraintAlgebra.Membership

/-! Calls on a model and on the operator layers over it, and runs of calls. A call that fails leaves
behind what it had already done, and the run goes on. -/
namespace ConstraintAlgebra

inductive ModelCall where
  | int (lo hi : Int64) (name : String)
  | withDomain (domain : Domain) (name : String)
  | bool (name : String)
  | constant (x : Int64)
  | post (constraint : Constraint) (guard : Option Handle)

inductive OperatorCall where
  | encode (s : String)
  | toConst (x : Operand)
  | compare (rel : Relation) (left right : Operand)
  | plus (left right : Operand)
  | minus (left right : Operand)
  | mult (left right : Operand)
  | div (left right : Operand)
  | sum (items : List Operand)
  | scaledSum (vars : List Handle) (coeffs : List Int64)
  | extreme (e : Extreme) (items : List Operand)
  | increasing (vars : List Handle)
  | connect (c : Connective) (left right : Operand)
  | not (x : Operand)
  | anyTrue (lits : List Handle)
  | isIn (x : Operand) (items : List Operand)
  | inIntegers (h : Handle) (set : List Int64)
  | inStrings (h : Handle) (set : List String)
  | inVars (h : Handle) (set : List Handle)

inductive Reply where
  | done
  | code (n : Int64)
  | operand (x : Operand)
  deriving DecidableEq

def Reply.var (h : Handle) : Reply := .operand (.var h)

def ModelCall.perform : ModelCall → Build Reply
  | int lo hi name => return .var (← Model.newInt lo hi name)
  | withDomain domain name => return .var (← Model.newVariable domain name)
  | bool name => return .var (← Model.newBool name)
  | constant x => return .var (← Model.newConstant x)
  | post constraint guard => do
    Model.post constraint guard
    return .done

def OperatorCall.perform {E : Type} [Encoding E] (ops : Layer) : OperatorCall → Operate E Reply
  | encode s => return .code (← (Scalar.str s).code)
  | toConst x => return .var (← ops.toConst x)
  | compare rel left right => return .operand (← ops.compare rel left right)
  | plus left right => return .operand (← Model.plus left right)
  | minus left right => return .operand (← Model.minus left right)
  | mult left right => return .operand (← ops.mult left right)
  | div left right => return .operand (← ops.div left right)
  | sum items => return .operand (← Model.sum items)
  | scaledSum vars coeffs => return .var (← Model.scaledSum vars coeffs)
  | extreme e items => return .operand (← Model.extreme e items)
  | increasing vars => do
    Model.increasing vars
    return .done
  | connect c left right => return .operand (← ops.connect c left right)
  | not x => return .operand (← ops.not x)
  | anyTrue lits => return .var (← ops.anyTrue lits)
  | isIn x items => return .operand (← ops.isIn x items)
  | inIntegers h set => return .var (← ops.inIntegers h set)
  | inStrings h set => return .var (← ops.inStrings h set)
  | inVars h set => return .var (← ops.inVars h set)

structure Session (E : Type) where
  model : Model
  layers : List (Layer × E)

inductive Call (E : Type) where
  | model (call : ModelCall)
  | layer (settings : Settings) (encoder : E)
  | operator (place : Nat) (call : OperatorCall)

namespace Session

variable {E : Type}

def start : Session E := ⟨.empty, []⟩

def build {α : Type} (s : Session E) (action : Build α) : Except Failure α × Session E :=
  match action s.model with
  | .ok a m => (.ok a, { s with model := m })
  | .error e m => (.error e, { s with model := m })

def openLayer (s : Session E) (settings : Settings) (encoder : E) :
    Except Failure Reply × Session E :=
  match s.build (Layer.create settings) with
  | (.ok ops, s) => (.ok .done, { s with layers := s.layers ++ [(ops, encoder)] })
  | (.error e, s) => (.error e, s)

def operate [Encoding E] (s : Session E) (place : Nat) (call : OperatorCall) :
    Except Failure Reply × Session E :=
  match s.layers[place]? with
  | none => (.ok .done, s)
  | some (ops, encoder) =>
    match call.perform ops ⟨s.model, encoder⟩ with
    | .ok reply w => (.ok reply, ⟨w.model, s.layers.set place (ops, w.encoder)⟩)
    | .error e w => (.error e, ⟨w.model, s.layers.set place (ops, w.encoder)⟩)

def step [Encoding E] (s : Session E) : Call E → Except Failure Reply × Session E
  | .model call => s.build call.perform
  | .layer settings encoder => s.openLayer settings encoder
  | .operator place call => s.operate place call

def run [Encoding E] (s : Session E) (calls : List (Call E)) : Session E :=
  calls.foldl (fun s call => (s.step call).2) s

end Session

end ConstraintAlgebra
