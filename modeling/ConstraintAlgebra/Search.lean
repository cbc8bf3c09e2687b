import ConstraintAlgebra.Model

/-! Exhaustive search: a depth-first walk that gives the variables their values in creation order,
each in ascending order. A posted constraint is tested as soon as the latest variable that it
mentions has a value, so the walk leaves a branch at the first constraint it breaks. One assignment
serves the whole walk: variables whose turn is still to come hold zero or what an abandoned branch
gave them. -/
namespace ConstraintAlgebra

def Interval.visit {σ : Type} (body : Int64 → σ → Except Failure (ForInStep σ)) :
    Nat → Int64 → σ → Except Failure (ForInStep σ)
  | 0, _, s => .ok (.yield s)
  | n + 1, x, s =>
    match body x s with
    | .ok (.yield s) => visit body n (x + 1) s
    | stopped => stopped

def Domain.visit {σ : Type} (body : Int64 → σ → Except Failure (ForInStep σ)) :
    List Interval → σ → Except Failure (ForInStep σ)
  | [], s => .ok (.yield s)
  | i :: is, s =>
    match Interval.visit body i.size i.lo s with
    | .ok (.yield s) => visit body is s
    | stopped => stopped

structure Level where
  domain : Domain
  watched : List Posted

structure Tour (σ : Type) where
  assignment : Assignment
  gathered : σ

def Tour.present {σ : Type} (visit : Assignment → σ → ForInStep σ) (t : Tour σ) :
    ForInStep (Tour σ) :=
  match visit t.assignment t.gathered with
  | .done s => .done { t with gathered := s }
  | .yield s => .yield { t with gathered := s }

def Level.turn {σ : Type} (level : Level) (place : Nat)
    (below : Tour σ → Except Failure (ForInStep (Tour σ))) (x : Int64) (t : Tour σ) :
    Except Failure (ForInStep (Tour σ)) := do
  let a ← t.assignment.set (← VarId.ofIndex place) x
  let t := { t with assignment := a }
  if ← level.watched.allM (·.isSatisfied a) then below t else return .yield t

/-- Visits every assignment of the levels that satisfies what they watch, in lexicographic order,
until the visitor is done. The first level belongs to the variable at the given place. -/
def walk {σ : Type} (visit : Assignment → σ → ForInStep σ) :
    List Level → Nat → Tour σ → Except Failure (ForInStep (Tour σ))
  | [], _, t => .ok (t.present visit)
  | level :: deeper, place, t =>
    Domain.visit (level.turn place (walk visit deeper (place + 1))) level.domain.intervals t

namespace Model

def level (m : Model) (v : Variable × Nat) : Level :=
  ⟨v.1.domain, m.constraints.filter (·.lastIndex = some v.2)⟩

def levels (m : Model) : List Level := m.vars.zipIdx.map m.level

def unconditional (m : Model) : List Posted := m.constraints.filter (·.lastIndex = none)

def blank (m : Model) : Assignment := ⟨List.replicate m.vars.length 0⟩

def enumerate {σ : Type} (m : Model) (visit : Assignment → σ → ForInStep σ) (s : σ) :
    Except Failure σ := do
  if ← m.unconditional.allM (·.isSatisfied m.blank) then
    match ← walk visit m.levels 0 ⟨m.blank, s⟩ with
    | .done t => return t.gathered
    | .yield t => return t.gathered
  else return s

def solutions (m : Model) : Except Failure (List Assignment) := do
  return (← m.enumerate (fun a found => .yield (a :: found)) []).reverse

def oneSolution (m : Model) : Except Failure (Option Assignment) :=
  m.enumerate (fun a _ => .done (some a)) none

def solutionCount (m : Model) : Except Failure Nat := m.enumerate (fun _ n => .yield (n + 1)) 0

def searchSpace (m : Model) : Nat := (m.vars.map (·.domain.size)).foldl (· * ·) 1

end Model

end ConstraintAlgebra
