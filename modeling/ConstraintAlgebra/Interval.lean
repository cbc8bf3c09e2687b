/-! Closed intervals of 64-bit integers. One with `hi < lo` holds nothing. -/
namespace ConstraintAlgebra

structure Interval where
  lo : Int64
  hi : Int64
  deriving DecidableEq, Repr

namespace Interval

def point (x : Int64) : Interval := ⟨x, x⟩

def truth (b : Bool) : Interval := point (if b then 1 else 0)

instance : Membership Int64 Interval := ⟨fun i x => i.lo ≤ x ∧ x ≤ i.hi⟩

instance (x : Int64) (i : Interval) : Decidable (x ∈ i) := inferInstanceAs (Decidable (_ ∧ _))

def isPoint (i : Interval) : Bool := i.lo = i.hi

/-- End points alone decide: this is a shared value when neither interval is empty. -/
def overlaps (i j : Interval) : Bool := i.lo ≤ j.hi && j.lo ≤ i.hi

def within (i j : Interval) : Bool := j.lo ≤ i.lo && i.hi ≤ j.hi

def size (i : Interval) : Nat := (i.hi.toInt + 1 - i.lo.toInt).toNat

def run : Nat → Int64 → List Int64
  | 0, _ => []
  | n + 1, x => x :: run n (x + 1)

def values (i : Interval) : List Int64 := run i.size i.lo

instance : ToString Interval := ⟨fun i => s!"({i.lo}, {i.hi})"⟩

end Interval

end ConstraintAlgebra
