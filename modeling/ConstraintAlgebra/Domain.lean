import ConstraintAlgebra.Width

/-! Finite sets of 64-bit integers as ascending intervals with a gap between neighbours, so that a
set has one form. `Separated` is that form; the constructions below keep it. -/
namespace ConstraintAlgebra

structure Domain where
  intervals : List Interval
  deriving DecidableEq, Repr

namespace Domain

inductive Separated : List Interval → Prop where
  | nil : Separated []
  | single {i} (proper : i.lo ≤ i.hi) : Separated [i]
  | cons {i j rest} (proper : i.lo ≤ i.hi) (gap : i.hi.toInt + 1 < j.lo.toInt)
      (tail : Separated (j :: rest)) : Separated (i :: j :: rest)

def Canonical (d : Domain) : Prop := Separated d.intervals

instance : Membership Int64 Domain := ⟨fun d x => ∃ i ∈ d.intervals, x ∈ i⟩

def empty : Domain := ⟨[]⟩

def interval (lo hi : Int64) : Except Failure Domain :=
  if lo ≤ hi then .ok ⟨[⟨lo, hi⟩]⟩ else .error (.emptyInterval lo hi)

def constant (x : Int64) : Domain := ⟨[.point x]⟩

def absorb (i : Interval) : List Interval → List Interval
  | [] => [i]
  | j :: js =>
    if i.hi.toInt + 1 < j.lo.toInt then i :: j :: js
    else if j.hi.toInt + 1 < i.lo.toInt then j :: absorb i js
    else absorb ⟨min i.lo j.lo, max i.hi j.hi⟩ js

def ofIntervals (is : List Interval) : Domain :=
  ⟨(is.filter fun i => i.lo ≤ i.hi).foldr absorb []⟩

def ofValues (xs : List Int64) : Domain := ofIntervals (xs.map .point)

def isEmpty (d : Domain) : Bool := d.intervals.isEmpty

def min (d : Domain) : Except Failure Int64 :=
  match d.intervals.head? with
  | some i => .ok i.lo
  | none => .error .noMinimum

def max (d : Domain) : Except Failure Int64 :=
  match d.intervals.getLast? with
  | some i => .ok i.hi
  | none => .error .noMaximum

def isFixed (d : Domain) : Bool :=
  match d.intervals with
  | [i] => i.isPoint
  | _ => false

def contains (d : Domain) (x : Int64) : Bool := d.intervals.any fun i => x ∈ i

def intersectsRange (d : Domain) (range : Interval) : Bool := d.intervals.any (·.overlaps range)

def intersects (d e : Domain) : Bool := d.intervals.any e.intersectsRange

def isSubset (d e : Domain) : Bool := d.intervals.all fun i => e.intervals.any i.within

def gaps (start : Int) : List Interval → List Interval
  | [] => if start ≤ Int64.maxValue.toInt then [⟨.ofInt start, Int64.maxValue⟩] else []
  | i :: is =>
    if start < i.lo.toInt then ⟨.ofInt start, i.lo - 1⟩ :: gaps (i.hi.toInt + 1) is
    else gaps (i.hi.toInt + 1) is

def complement (d : Domain) : Domain := ⟨gaps Int64.minValue.toInt d.intervals⟩

def negateBoolean (d : Domain) : Except Failure Domain := do
  let images ← d.intervals.mapM fun i => do
    return Interval.mk (← complementWord i.hi) (← complementWord i.lo)
  return ofIntervals images

def size (d : Domain) : Nat := d.intervals.foldr (fun i n => i.size + n) 0

def values (d : Domain) : List Int64 := d.intervals.flatMap (·.values)

def firstValues (n : Nat) (d : Domain) : List Int64 := go n d.intervals
where
  go (n : Nat) : List Interval → List Int64
    | [] => []
    | i :: is => Interval.run (Nat.min n i.size) i.lo ++ go (n - i.size) is

def breakpoints (d : Domain) : List Int64 := d.intervals.flatMap fun i => [i.lo, i.hi]

def intervalText (i : Interval) : String :=
  if i.isPoint then toString i.lo else toString i.lo ++ ".." ++ toString i.hi

instance : ToString Domain :=
  ⟨fun d => "\x7b" ++ ", ".intercalate (d.intervals.map intervalText) ++ "\x7d"⟩

end Domain

end ConstraintAlgebra
