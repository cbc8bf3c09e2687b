import ConstraintAlgebra.Proofs.Enumeration

/-! The questions about solutions against one another. The first solution, their number and the size
of the search space all count or pick from one list, and a model without its constraints has the whole
search space as solutions. -/
namespace ConstraintAlgebra

theorem foundLength {levels : List Level} (free : ∀ level ∈ levels, level.watched = [])
    (a : Assignment) : (found levels a).length = (levels.map (·.domain.size)).prod := by
  induction levels generalizing a with
  | nil => rfl
  | cons level deeper ih =>
    obtain ⟨first, others⟩ := List.forall_mem_cons.mp free
    have accepted : ∀ b, level.accepts b = true := fun b => by rw [Level.accepts, first]; rfl
    simp only [found, accepted, if_true, List.length_flatMap, ih others, List.map_const',
      List.sum_replicate, level.domain.valuesLength, smul_eq_mul, List.map_cons, List.prod_cons]

namespace Model

variable {m : Model} {a : Assignment}

def bare (m : Model) : Model := ⟨m.vars, []⟩

theorem bareSolution : m.bare.Solution a ↔ m.Admits a := by
  rw [solutionExact]
  simp only [bare, List.not_mem_nil, false_imp_iff, implies_true, and_true]
  rfl

theorem bareEvaluates : m.bare.Evaluates := by simp [Evaluates, bare]

theorem Proper.bare (proper : m.Proper) : m.bare.Proper :=
  ⟨proper.canonical, proper.inhabited, by simp [Model.bare]⟩

theorem searchSpaceProduct : m.searchSpace = (m.vars.map (·.domain.size)).prod :=
  (List.prod_eq_foldl ..).symm

theorem bareOutcomes : m.bare.outcomes.length = m.searchSpace := by
  have free : ∀ level ∈ m.bare.levels, level.watched = [] := by
    intro level mem
    obtain ⟨v, _, rfl⟩ := List.mem_map.mp mem
    rfl
  have sizes : m.bare.levels.map (·.domain.size) = m.vars.map (·.domain.size) := by
    rw [levels, List.map_map]
    conv_rhs => rw [← List.zipIdx_map_fst 0 m.vars, List.map_map]
    rfl
  rw [outcomes, if_pos (by simp [unconditional, bare]), foundLength free, sizes, searchSpaceProduct]

theorem searchSpaceExact (proper : m.Proper) : {a | m.Admits a}.encard = m.searchSpace := by
  rw [← bareOutcomes, ← outcomesCount bareEvaluates proper.bare]
  simp only [bareSolution]

theorem outcomesSpace (evaluates : m.Evaluates) (proper : m.Proper) :
    m.outcomes.length ≤ m.searchSpace ∧ (m.outcomes.length = m.searchSpace ↔
      ∀ a, m.Admits a → ∀ p ∈ m.constraints, p.isSatisfied a = .ok true) := by
  have solutions := outcomesCount evaluates proper
  have space := searchSpaceExact proper
  have within : {a | m.Solution a} ⊆ {a | m.Admits a} := fun a solution => (solutionExact.mp solution).1
  refine ⟨?_, fun same a admits => ?_, fun all => ?_⟩
  · have below := Set.encard_le_encard within
    rw [solutions, space] at below
    exact_mod_cast below
  · have finite : {a | m.Admits a}.Finite := Set.finite_of_encard_eq_coe space
    have equal := finite.eq_of_subset_of_encard_le' within (by rw [solutions, space, same])
    exact (solutionExact.mp (equal.ge admits)).2
  · have equal : {a | m.Solution a} = {a | m.Admits a} := within.antisymm fun a admits =>
      solutionExact.mpr ⟨admits, all a admits⟩
    rw [equal, space] at solutions
    exact_mod_cast solutions.symm

end Model

namespace Session

variable {E : Type} [Encoding E]

theorem queriesAgree (calls : List (Call E)) (built : ∀ c ∈ calls, c.Built)
    (small : (start.run calls).model.Small)
    (evaluates : ∀ a, (start.run calls).model.Admits a →
      ∀ p ∈ (start.run calls).model.constraints, p.isSatisfied a ≠ .error .overflow) :
    ∃ found first, (start.run calls).model.solutions = .ok found ∧
      (start.run calls).model.oneSolution = .ok first ∧ first = found.head? ∧
      (first = none ↔ found = []) ∧
      (start.run calls).model.solutionCount = .ok found.length ∧
      {a | (start.run calls).model.Admits a}.encard = (start.run calls).model.searchSpace ∧
      found.length ≤ (start.run calls).model.searchSpace ∧
      (found.length = (start.run calls).model.searchSpace ↔
        ∀ a, (start.run calls).model.Admits a →
          ∀ p ∈ (start.run calls).model.constraints, p.isSatisfied a = .ok true) := by
  have proper := (runSound built startSound).proper
  exact ⟨_, _, Model.solutionsOutcomes evaluates proper small,
    Model.oneSolutionOutcomes evaluates proper small, rfl, List.head?_eq_none_iff,
    Model.solutionCountOutcomes evaluates proper small, Model.searchSpaceExact proper,
    Model.outcomesSpace evaluates proper⟩

theorem queriesAgreeOnce :
    let x : Handle := ⟨1, by decide⟩
    let y : Handle := ⟨2, by decide⟩
    let calls : List (Call Dictionary) := [.model (.withDomain (.ofValues [4, 2, 0]) "x"),
      .model (.int 0 1 "y"), .model (.post (.compare x .lt (.var y)) none)]
    let m := (start.run calls).model
    m.solutions = .ok [⟨[0, 1]⟩] ∧ m.oneSolution = .ok (some ⟨[0, 1]⟩) ∧ m.solutionCount = .ok 1 ∧
      {a | m.Admits a}.encard = 6 ∧
      ¬∀ a, m.Admits a → ∀ p ∈ m.constraints, p.isSatisfied a = .ok true := by
  intro x y calls m
  have evaluates : ∀ a, m.Admits a → ∀ p ∈ m.constraints, p.isSatisfied a ≠ .error .overflow := by
    intro a admits p mem
    obtain ⟨i, j, given⟩ := List.length_eq_two.mp (Model.admitsLength admits)
    obtain ⟨values⟩ := a
    subst given
    have posted : m.constraints = [⟨.compare x .lt (.var y), none⟩] := rfl
    rw [posted, List.mem_singleton] at mem
    subst mem
    change (Constraint.compare x .lt (.var y)).holds ⟨[i, j]⟩ ≠ _
    rw [compareHolds (x := i) (y := j) rfl rfl]
    exact nofun
  obtain ⟨found, first, listed, one, picked, _, counted, space, _, whole⟩ := queriesAgree calls
    (by simpa [calls, Call.Built] using .values _) (by decide) evaluates
  have solutions : m.solutions = .ok [⟨[0, 1]⟩] := by decide +kernel
  rw [solutions] at listed
  cases listed
  subst picked
  have size : m.searchSpace = 6 := rfl
  refine ⟨solutions, one, counted, space.trans (by rw [size, Nat.cast_ofNat]), ?_⟩
  rw [← whole, size]
  decide

end Session

end ConstraintAlgebra
