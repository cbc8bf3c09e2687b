import ConstraintAlgebra.Proofs.RelationMeaning

/-! Ranges that leave a relation open. The least value of one range beside the greatest of the other
tells the most, so ranges that decide nothing hold both a pair that is related and one that is not. -/
namespace ConstraintAlgebra

variable {r : Relation} {i j : Interval} {b : Bool} {x y : Int64}

theorem Interval.startMem (proper : i.lo ≤ i.hi) : i.lo ∈ i := ⟨Int64.le_refl _, proper⟩

theorem Interval.stopMem (proper : i.lo ≤ i.hi) : i.hi ∈ i := ⟨proper, Int64.le_refl _⟩

namespace Relation

def Varies (r : Relation) (i j : Interval) : Prop :=
  (∃ x ∈ i, ∃ y ∈ j, r.holds x y = true) ∧ ∃ x ∈ i, ∃ y ∈ j, r.holds x y = false

theorem variesNegate (varies : r.Varies i j) : r.negate.Varies i j := by
  obtain ⟨⟨x, left, y, right, holds⟩, u, first, v, second, fails⟩ := varies
  refine ⟨⟨u, first, v, second, ?_⟩, x, left, y, right, ?_⟩
  · rw [holdsNegate, fails, Bool.not_false]
  · rw [holdsNegate, holds, Bool.not_true]

theorem variesFlip : r.flip.Varies i j ↔ r.Varies j i := by
  have swapped : ∀ t, (∃ x ∈ i, ∃ y ∈ j, r.flip.holds x y = t) ↔ ∃ y ∈ j, ∃ x ∈ i, r.holds y x = t := by
    intro t
    simp only [holdsFlipped]
    constructor
    · intro ⟨x, left, y, right, same⟩
      exact ⟨y, right, x, left, same⟩
    · intro ⟨y, right, x, left, same⟩
      exact ⟨x, left, y, right, same⟩
  rw [Varies, Varies, swapped, swapped]

theorem holdsNot (fails : ¬r.Holds x.toInt y.toInt) : r.holds x y = false := by
  rw [← Bool.not_eq_true, holdsWords]
  exact fails

theorem ltVaries (left : i.lo ≤ i.hi) (right : j.lo ≤ j.hi) (undecided : decidedLt i j = none) :
    Relation.lt.Varies i j := by
  simp only [decidedLt, Int64.lt_iff_toInt_lt, Int64.le_iff_toInt_le] at undecided
  split at undecided
  · cases undecided
  rename_i high
  split at undecided
  · cases undecided
  rename_i low
  refine ⟨⟨i.lo, Interval.startMem left, j.hi, Interval.stopMem right, ?_⟩,
    i.hi, Interval.stopMem left, j.lo, Interval.startMem right, holdsNot high⟩
  exact holdsWords.mpr (Int.not_le.mp low)

theorem leVaries (left : i.lo ≤ i.hi) (right : j.lo ≤ j.hi) (undecided : decidedLe i j = none) :
    Relation.le.Varies i j := by
  rw [decidedLeSwap (Int64.le_iff_toInt_le.mp left) (Int64.le_iff_toInt_le.mp right),
    Option.map_eq_none_iff] at undecided
  exact variesFlip.mpr (variesNegate (ltVaries right left undecided))

/- If each of two overlapping ranges ended where the other starts, both would be the same point. -/
theorem eqVaries (left : i.lo ≤ i.hi) (right : j.lo ≤ j.hi) (undecided : decidedEq i j = none) :
    Relation.eq.Varies i j := by
  have first := Int64.le_iff_toInt_le.mp left
  have second := Int64.le_iff_toInt_le.mp right
  simp only [decidedEq, Interval.isPoint, Bool.and_eq_true, decide_eq_true_eq, ← Int64.toInt_inj]
    at undecided
  split at undecided
  · cases undecided
  rename_i apart
  split at undecided
  · rename_i overlap
    constructor
    · obtain ⟨x, inLeft, inRight⟩ := Interval.overlapsShared first second overlap
      exact ⟨x, inLeft, x, inRight, holdsEqual.mpr rfl⟩
    · by_cases ends : i.lo.toInt = j.hi.toInt
      · have other : i.hi.toInt ≠ j.lo.toInt := by omega
        exact ⟨i.hi, Interval.stopMem left, j.lo, Interval.startMem right, holdsNot other⟩
      · exact ⟨i.lo, Interval.startMem left, j.hi, Interval.stopMem right, holdsNot ends⟩
  · cases undecided

theorem undecidedVaries (left : i.lo ≤ i.hi) (right : j.lo ≤ j.hi)
    (undecided : r.decided i j = none) : r.Varies i j := by
  cases r with
  | eq => exact eqVaries left right undecided
  | ne => exact variesNegate (eqVaries left right (Option.map_eq_none_iff.mp undecided))
  | lt => exact ltVaries left right undecided
  | le => exact leVaries left right undecided
  | gt => exact variesFlip.mp (ltVaries right left undecided)
  | ge => exact variesFlip.mp (leVaries right left undecided)

theorem decidedHolds (decided : r.decided i j = some b) (left : x ∈ i) (right : y ∈ j) :
    r.holds x y = b := by
  rw [Bool.eq_iff_iff, holdsWords]
  exact decidedExact decided left right

theorem decidedNone (left : i.lo ≤ i.hi) (right : j.lo ≤ j.hi) :
    r.decided i j = none ↔ r.Varies i j := by
  refine ⟨undecidedVaries left right, fun varies => ?_⟩
  obtain ⟨⟨x, inLeft, y, inRight, holds⟩, u, first, v, second, fails⟩ := varies
  cases decided : r.decided i j with
  | none => rfl
  | some b =>
    have isTrue := (decidedHolds decided inLeft inRight).symm.trans holds
    have isFalse := (decidedHolds decided first second).symm.trans fails
    exact absurd (isTrue.symm.trans isFalse) (by decide)

theorem decidedSome (left : i.lo ≤ i.hi) (right : j.lo ≤ j.hi) :
    r.decided i j = some b ↔ ∀ x ∈ i, ∀ y ∈ j, r.holds x y = b := by
  refine ⟨fun decided x inLeft y inRight => decidedHolds decided inLeft inRight, fun uniform => ?_⟩
  have first := uniform i.lo (Interval.startMem left) j.lo (Interval.startMem right)
  cases decided : r.decided i j with
  | some c =>
    have same := decidedHolds decided (Interval.startMem left) (Interval.startMem right)
    rw [← same, first]
  | none =>
    obtain ⟨⟨x, inLeft, y, inRight, holds⟩, u, begins, v, ends, fails⟩ :=
      undecidedVaries left right decided
    have isTrue := (uniform x inLeft y inRight).symm.trans holds
    have isFalse := (uniform u begins v ends).symm.trans fails
    exact absurd (isTrue.symm.trans isFalse) (by decide)

theorem rangesDecide (r : Relation) (left : i.lo ≤ i.hi) (right : j.lo ≤ j.hi) :
    (∀ b, r.decided i j = some b ↔ ∀ x ∈ i, ∀ y ∈ j, r.holds x y = b) ∧
      (r.decided i j = none ↔
        (∃ x ∈ i, ∃ y ∈ j, r.holds x y = true) ∧ ∃ x ∈ i, ∃ y ∈ j, r.holds x y = false) :=
  ⟨fun _ => decidedSome left right, decidedNone left right⟩

theorem rangesDecideOnce :
    let i : Interval := ⟨Int64.minValue, 0⟩
    let j : Interval := ⟨0, Int64.maxValue⟩
    i.lo ≤ i.hi ∧ j.lo ≤ j.hi ∧ (∀ x ∈ i, ∀ y ∈ j, Relation.gt.holds x y = false) ∧
      (∃ x ∈ i, ∃ y ∈ j, Relation.ne.holds x y = true) ∧
      ∃ x ∈ i, ∃ y ∈ j, Relation.ne.holds x y = false := by
  intro i j
  have left : i.lo ≤ i.hi := by decide
  have right : j.lo ≤ j.hi := by decide
  have decided := ((rangesDecide .gt left right).1 false).mp rfl
  exact ⟨left, right, decided, (rangesDecide .ne left right).2.mp rfl⟩

end Relation

end ConstraintAlgebra
