import ConstraintAlgebra.Arithmetic
import ConstraintAlgebra.Membership
import ConstraintAlgebra.Search

/-! Placing tasks on hosts. Every task runs on one host and every host is `web` or `db`. The first
task needs a `db` host, the first two tasks never share one, no host runs more tasks than its
capacity, and at least one host is `web`. -/
namespace ConstraintAlgebra.Placement

structure Request where
  tasks : Nat
  hosts : Int64
  capacity : Int64
  count : Bool
  deriving DecidableEq, Repr

def Request.standard : Request := ⟨4, 3, 2, false⟩

def Request.text (r : Request) : String :=
  "Cli \x7b tasks: " ++ toString r.tasks ++ ", hosts: " ++ toString r.hosts ++ ", capacity: " ++
    toString r.capacity ++ ", count: " ++ toString r.count ++ " \x7d"

def Request.refusal (r : Request) : Option String :=
  if r.hosts < 1 then some s!"Invalid number of hosts: {r.hosts}"
  else if r.capacity < 0 then some s!"Invalid capacity: {r.capacity}"
  else none

structure Plan where
  roles : List Handle
  tasks : List Handle

abbrev Planning := Operate Dictionary

def require (ops : Layer) (result : Operand) : Planning Unit := do
  let lit ← ops.literal result
  Model.add (.compare lit .eq (.const 1))

def text (s : String) : Operand := .scalar (.str s)

def number (n : Int64) : Operand := .scalar (.long n)

def declare (r : Request) : Planning Plan := do
  let web ← (Scalar.str "web").code
  let db ← (Scalar.str "db").code
  let roles ← (List.range r.hosts.toInt.toNat).mapM fun h =>
    Model.newVariable (.ofValues [web, db]) s!"role{h}"
  let tasks ← (List.range r.tasks).mapM fun t => Model.newInt 0 (r.hosts - 1) s!"task{t}"
  return ⟨roles, tasks⟩

def hostNeedsDb (ops : Layer) (first role : Handle) (host : Int64) : Planning Unit := do
  let onHost ← ops.compare .eq (.var first) (number host)
  let offHost ← ops.not onHost
  let isDb ← ops.compare .eq (.var role) (text "db")
  let ok ← ops.connect .or offHost isDb
  require ops ok

def firstNeedsDb (ops : Layer) (first : Handle) : Int64 → List Handle → Planning Unit
  | _, [] => return ()
  | host, role :: roles => do
    hostNeedsDb ops first role host
    firstNeedsDb ops first (host + 1) roles

def firstTwoApart (ops : Layer) : List Handle → Planning Unit
  | a :: b :: _ => do
    let apart ← ops.compare .ne (.var a) (.var b)
    require ops apart
  | _ => return ()

def withinCapacity (ops : Layer) (r : Request) (tasks : List Handle) (host : Nat) :
    Planning Unit := do
  let onHost ← tasks.mapM fun task => ops.compare .eq (.var task) (number (.ofNat host))
  let load ← Model.sum onHost
  let fits ← ops.compare .le load (number r.capacity)
  require ops fits

def someWeb (ops : Layer) (roles : List Handle) : Planning Unit := do
  let web ← roles.mapM fun role => ops.equalLiteral (.var role) (text "web")
  let anyWeb ← ops.anyTrue web
  require ops (.var anyWeb)

def firstOnDb (ops : Layer) (p : Plan) : Planning Unit :=
  match p.tasks with
  | first :: _ => firstNeedsDb ops first 0 p.roles
  | [] => return ()

def constrain (ops : Layer) (r : Request) (p : Plan) : Planning Unit := do
  firstOnDb ops p
  firstTwoApart ops p.tasks
  (List.range r.hosts.toInt.toNat).forM (withinCapacity ops r p.tasks)
  someWeb ops p.roles

def plan (r : Request) : Planning Plan := do
  let ops ← Layer.create .standard
  let p ← declare r
  constrain ops r p
  return p

def roleLine (dictionary : Dictionary) (a : Assignment) (role : Handle × Nat) :
    Except Failure String := do
  let name := (dictionary.string? (← a.value role.1)).getD "?"
  return s!"host {role.2} is {name}"

def taskLine (a : Assignment) (task : Handle × Nat) : Except Failure String := do
  let host ← a.value task.1
  return s!"task {task.2} runs on host {host}"

def answer (r : Request) (p : Plan) (w : Workspace Dictionary) : Except Failure (List String) := do
  if r.count then
    let n ← w.model.solutionCount
    return [s!"placements: {n}"]
  else
    match ← w.model.oneSolution with
    | none => return ["no placement"]
    | some a =>
      let roles ← p.roles.zipIdx.mapM (roleLine w.encoder a)
      let tasks ← p.tasks.zipIdx.mapM (taskLine a)
      return roles ++ tasks

def report (r : Request) : Except Failure (List String) :=
  match plan r ⟨.empty, .empty⟩ with
  | .error e _ => .error e
  | .ok p w => do
    let found ← answer r p w
    return [s!"args = {r.text}", s!"model = {w.model.summary}",
      s!"search space: {w.model.searchSpace}"] ++ found

end ConstraintAlgebra.Placement
