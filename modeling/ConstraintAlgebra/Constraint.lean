import ConstraintAlgebra.Domain

/-! Constraints over handles, and constraints posted under a guard. -/
namespace ConstraintAlgebra

inductive Term where
  | var (h : Handle)
  | const (c : Int64)
  deriving DecidableEq

instance : ToString Term where
  toString
    | .var h => toString h
    | .const c => toString c

abbrev Summand := Int64 × Handle

inductive Constraint where
  | compare (left : Handle) (rel : Relation) (right : Term)
  | linear (target : Handle) (terms : List Summand) (offset : Int64)
  | greatest (target : Handle) (vars : List Handle)
  | least (target : Handle) (vars : List Handle)
  | product (target left right : Handle)
  | quotient (target numerator : Handle) (denominator : Term)
  | anyTrue (lits : List Handle)
  | allTrue (lits : List Handle)
  | inside (var : Handle) (domain : Domain)
  deriving DecidableEq

namespace Term

def handles : Term → List Handle
  | var h => [h]
  | const _ => []

end Term

def handleListText (hs : List Handle) : String := ", ".intercalate (hs.map toString)

def summandText : Summand → String
  | (c, h) => if c = 1 then toString h else toString c ++ "*" ++ toString h

def sumText (terms : List Summand) (offset : Int64) : String :=
  let shown := terms.map summandText
  " + ".intercalate (if terms.isEmpty || offset != 0 then shown ++ [toString offset] else shown)

namespace Constraint

def handles : Constraint → List Handle
  | compare left _ right => left :: right.handles
  | linear target terms _ => target :: terms.map (·.2)
  | greatest target vars => target :: vars
  | least target vars => target :: vars
  | product target left right => [target, left, right]
  | quotient target numerator denominator => target :: numerator :: denominator.handles
  | anyTrue lits => lits
  | allTrue lits => lits
  | inside var _ => [var]

instance : ToString Constraint where
  toString
    | compare left rel right => s!"{left} {rel} {right}"
    | linear target terms offset => s!"{target} == {sumText terms offset}"
    | greatest target vars => s!"{target} == max({handleListText vars})"
    | least target vars => s!"{target} == min({handleListText vars})"
    | product target left right => s!"{target} == {left} * {right}"
    | quotient target numerator denominator => s!"{target} == {numerator} / {denominator}"
    | anyTrue lits => s!"or({handleListText lits})"
    | allTrue lits => s!"and({handleListText lits})"
    | inside var domain => s!"{var} in {domain}"

end Constraint

structure Posted where
  constraint : Constraint
  guard : Option Handle
  deriving DecidableEq

namespace Posted

def handles (p : Posted) : List Handle := p.constraint.handles ++ p.guard.toList

def lastIndex (p : Posted) : Option Nat := (p.handles.map Handle.index).max?

instance : ToString Posted where
  toString p :=
    match p.guard with
    | some g => s!"{g} => {p.constraint}"
    | none => toString p.constraint

end Posted

end ConstraintAlgebra
