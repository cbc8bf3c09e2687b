import ConstraintAlgebra.Operand
import ConstraintAlgebra.Proofs.DomainSets

/-! The relations as propositions about ordered values, and ranges that decide them. A decision from
ranges holds for every pair of values in them. -/
namespace ConstraintAlgebra.Relation

def Holds {α : Type} [LT α] [LE α] : Relation → α → α → Prop
  | .eq, x, y => x = y
  | .ne, x, y => x ≠ y
  | .lt, x, y => x < y
  | .le, x, y => x ≤ y
  | .gt, x, y => y < x
  | .ge, x, y => y ≤ x

theorem acceptsInt {r : Relation} {x y : Int} : r.accepts (Ord.compare x y) = true ↔ r.Holds x y := by
  rcases lt_trichotomy x y with below | same | above
  · rw [compare_lt_iff_lt.mpr below]
    cases r <;> simp [accepts, Holds] <;> omega
  · rw [compare_eq_iff_eq.mpr same]
    cases r <;> simp [accepts, Holds] <;> omega
  · rw [compare_gt_iff_gt.mpr above]
    cases r <;> simp [accepts, Holds] <;> omega

theorem compareWords (x y : Int64) : Ord.compare x y = Ord.compare x.toInt y.toInt := by
  change compareOfLessAndEq x y = compareOfLessAndEq x.toInt y.toInt
  simp only [compareOfLessAndEq, Int64.lt_iff_toInt_lt, Int64.toInt_inj]

theorem holdsWords {r : Relation} {x y : Int64} :
    r.holds x y = true ↔ r.Holds x.toInt y.toInt := by
  rw [holds, compareWords, acceptsInt]

def truth (b : Bool) : Int := if b then 1 else 0

theorem holdsTruths {r : Relation} {p q : Bool} :
    r.holds p q = true ↔ r.Holds (truth p) (truth q) := by
  rw [← acceptsInt, holds]
  cases p <;> cases q <;> cases r <;> decide

theorem holdsStrings {r : Relation} (plain : r.isOrdering = false) {s t : String} :
    r.holds s t = true ↔ r.Holds s t := by
  cases r <;> simp [isOrdering] at plain
  · simp [holds, accepts, Holds, Ordering.isEq_iff_eq_eq]
  · simp [holds, accepts, Holds]

theorem holdsNegate {r : Relation} {x y : Int64} : r.negate.holds x y = !r.holds x y :=
  acceptsNegate r _

theorem holdsFlip {r : Relation} {x y : Int} : r.flip.Holds x y ↔ r.Holds y x := by
  cases r <;> simp [flip, Holds, eq_comm]

theorem holdsFlipped {r : Relation} {x y : Int64} : r.flip.holds x y = r.holds y x := by
  rw [Bool.eq_iff_iff, holdsWords, holdsWords, holdsFlip]

theorem holdsEqual {x y : Int64} : Relation.eq.holds x y = true ↔ x = y := by
  rw [holdsWords]
  exact Int64.toInt_inj

section Decided

variable {i j : Interval} {b : Bool} {x y : Int64}

theorem decidedEqExact (ok : decidedEq i j = some b) (left : x ∈ i) (right : y ∈ j) :
    x.toInt = y.toInt ↔ b = true := by
  simp only [Interval.memExact] at left right
  simp only [decidedEq, Interval.isPoint, Interval.overlaps, Bool.and_eq_true, decide_eq_true_eq,
    ← Int64.toInt_inj, Int64.le_iff_toInt_le] at ok
  split at ok
  · cases ok; simp only [iff_true]; omega
  · split at ok
    · contradiction
    · cases ok; simp only [Bool.false_eq_true, iff_false]; omega

theorem decidedLtExact (ok : decidedLt i j = some b) (left : x ∈ i) (right : y ∈ j) :
    x.toInt < y.toInt ↔ b = true := by
  simp only [Interval.memExact] at left right
  simp only [decidedLt, Int64.lt_iff_toInt_lt, Int64.le_iff_toInt_le] at ok
  split at ok
  · cases ok; simp only [iff_true]; omega
  · split at ok
    · cases ok; simp only [Bool.false_eq_true, iff_false]; omega
    · contradiction

theorem decidedLeSwap (left : i.lo.toInt ≤ i.hi.toInt) (right : j.lo.toInt ≤ j.hi.toInt) :
    decidedLe i j = (decidedLt j i).map not := by
  simp only [decidedLe, decidedLt, Int64.lt_iff_toInt_lt, Int64.le_iff_toInt_le]
  by_cases below : i.hi.toInt ≤ j.lo.toInt
  · rw [if_pos below, if_neg (by omega), if_pos below]
    rfl
  · rw [if_neg below, if_neg below]
    split <;> rfl

theorem decidedLeExact (ok : decidedLe i j = some b) (left : x ∈ i) (right : y ∈ j) :
    x.toInt ≤ y.toInt ↔ b = true := by
  have first := Interval.memExact.mp left
  have second := Interval.memExact.mp right
  rw [decidedLeSwap (first.1.trans first.2) (second.1.trans second.2), Option.map_eq_some_iff] at ok
  obtain ⟨c, decided, rfl⟩ := ok
  rw [← Int.not_lt, decidedLtExact decided right left, Bool.not_eq_true, Bool.not_eq_true']

theorem decidedExact {r : Relation} (ok : r.decided i j = some b) (left : x ∈ i) (right : y ∈ j) :
    r.Holds x.toInt y.toInt ↔ b = true := by
  cases r with
  | eq => exact decidedEqExact ok left right
  | ne =>
    obtain ⟨c, same, rfl⟩ := Option.map_eq_some_iff.mp ok
    simp [Holds, decidedEqExact same left right]
  | lt => exact decidedLtExact ok left right
  | le => exact decidedLeExact ok left right
  | gt => exact decidedLtExact ok right left
  | ge => exact decidedLeExact ok right left

end Decided

end ConstraintAlgebra.Relation
