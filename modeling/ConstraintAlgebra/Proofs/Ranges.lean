import ConstraintAlgebra.Proofs.Bisection
import ConstraintAlgebra.Proofs.Constants

/-! Ranges against domains. The test compares end points only. For a range that holds something this is
having a value in common, but the end points of one that holds nothing enclose values all the same, and
then the test asks whether the domain has all of them. -/
namespace ConstraintAlgebra.Domain

variable {d : Domain} {lo hi : Int64}

theorem memRange {x : Int64} : x ∈ (⟨[⟨lo, hi⟩]⟩ : Domain) ↔ lo ≤ x ∧ x ≤ hi := by
  rw [memExact]
  simp only [List.mem_singleton, exists_eq_left]
  exact Iff.rfl

theorem rangeShared (canonical : d.Canonical) (proper : lo ≤ hi) :
    d.intersectsRange ⟨lo, hi⟩ = true ↔ ∃ x ∈ d, lo ≤ x ∧ x ≤ hi := by
  have tested : (⟨[⟨lo, hi⟩]⟩ : Domain).intersects d = d.intersectsRange ⟨lo, hi⟩ :=
    Bool.or_false _
  rw [← tested]
  constructor
  · intro meets
    obtain ⟨x, inside, held⟩ := intersectsShared (.single proper) canonical meets
    exact ⟨x, held, memRange.mp inside⟩
  · intro shared
    obtain ⟨x, held, inside⟩ := shared
    exact intersectsExact (memRange.mpr inside) held

theorem invertedCovered (canonical : d.Canonical) (inverted : hi ≤ lo) :
    d.intersectsRange ⟨lo, hi⟩ = true ↔ ∀ x, hi ≤ x → x ≤ lo → x ∈ d := by
  have tested : (⟨[⟨hi, lo⟩]⟩ : Domain).isSubset d = d.intersectsRange ⟨lo, hi⟩ :=
    Bool.and_true _
  rw [← tested]
  constructor
  · intro subset x above below
    exact isSubsetExact subset (memRange.mpr ⟨above, below⟩)
  · intro covered
    refine isSubsetCovered (.single inverted) canonical fun x inside => ?_
    obtain ⟨above, below⟩ := memRange.mp inside
    exact covered x above below

/-- For a range in order the test finds a common value. For an inverted one, which has no value at all,
it is true exactly if the domain holds everything between the two ends. A range of one value is the
membership test, also as bisection decides it. -/
theorem rangeDecided (built : d.Built) (lo hi : Int64) :
    (lo ≤ hi → (d.intersectsRange ⟨lo, hi⟩ = true ↔ ∃ x, d.contains x = true ∧ lo ≤ x ∧ x ≤ hi)) ∧
      (hi < lo → (d.intersectsRange ⟨lo, hi⟩ = true ↔ ∀ x, hi ≤ x → x ≤ lo → d.contains x = true)) ∧
      ∀ x, d.intersectsRange (.point x) = d.contains x ∧ d.bisects x = d.contains x := by
  have canonical := builtCanonical built
  simp only [containsExact]
  refine ⟨rangeShared canonical, fun inverted => ?_, fun x => ⟨?_, ?_⟩⟩
  · exact invertedCovered canonical (Int64.le_of_lt inverted)
  · rw [← constantIntersects]
    exact (Bool.or_false _).symm
  · rw [Bool.eq_iff_iff, bisectsExact canonical, containsExact]

theorem rangeDecidedOnce :
    let d := ofIntervals [⟨0, 2⟩, ⟨8, 9⟩]
    d.Built ∧ (3 : Int64) ≤ 7 ∧ (¬∃ x, d.contains x = true ∧ 3 ≤ x ∧ x ≤ 7) ∧
      (1 : Int64) < 8 ∧ ¬∀ x, 1 ≤ x → x ≤ 8 → d.contains x = true := by
  intro d
  have built : d.Built := .intervals _
  obtain ⟨shared, -⟩ := rangeDecided built 3 7
  obtain ⟨-, covered, -⟩ := rangeDecided built 8 1
  refine ⟨built, by decide, fun common => ?_, by decide, fun all => ?_⟩
  · exact absurd ((shared (by decide)).mpr common) (by decide)
  · exact absurd ((covered (by decide)).mpr all) (by decide)

theorem invertedMeets :
    interval 0 10 = .ok ⟨[⟨0, 10⟩]⟩ ∧ ofIntervals [⟨5, 3⟩] = empty ∧
      (⟨[⟨0, 10⟩]⟩ : Domain).intersectsRange ⟨5, 3⟩ = true ∧
      ¬∃ x, (⟨[⟨0, 10⟩]⟩ : Domain).contains x = true ∧ (5 : Int64) ≤ x ∧ x ≤ 3 := by
  refine ⟨rfl, rfl, rfl, fun common => ?_⟩
  obtain ⟨x, -, above, below⟩ := common
  exact absurd (Int64.le_trans above below) (by decide)

end ConstraintAlgebra.Domain
