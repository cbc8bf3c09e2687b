import ConstraintAlgebra.Proofs.Answers
import ConstraintAlgebra.Proofs.Enumeration

/-! Runs in which only operators post constraints. Every constraint at the end has an answer, so a
check and a search of the model end with a result, whatever the coefficients in its sums are. -/
namespace ConstraintAlgebra

section Operate

variable {E : Type} [Encoding E] {M : Model}

theorem addsPerform (proper : M.Proper) (small : M.Small) (ops : Layer) (call : OperatorCall)
    (tame : ∀ h ∈ call.handles, M.Tame h)
    (short : ∀ items, call = .sum items → items.length < 2 ^ 59) :
    Keeps (OnModels M.Adds) (call.perform ops : Operate E Reply) := by
  refine (Layer.addsKept proper small ops).perform onModelsCarries ?_
  cases call with
  | plus x y => exact Model.addsSigned proper small (.inl rfl) x y
  | minus x y => exact Model.addsSigned proper small (.inr rfl) x y
  | mult x y =>
    obtain ⟨left, right⟩ := List.forall_mem_append.mp tame
    exact Layer.addsMult proper small ops left right
  | div x y =>
    obtain ⟨left, _⟩ := List.forall_mem_append.mp tame
    exact Layer.addsDiv proper small ops left
  | sum items => exact Model.addsSum proper small (short items rfl)
  | scaledSum vars coeffs => exact Model.addsScaledSum proper small coeffs
  | extreme e items => exact Model.addsExtreme proper small e
  | increasing vars => exact Model.addsIncreasing vars tame
  | _ => trivial

end Operate

namespace Session

variable {E : Type} [Encoding E] {M : Model} {s : Session E}

/-- No constraint is posted but by an operator, which is given only tame handles and short sums. -/
def Operated (M : Model) : Call E → Prop
  | .model (.post _ _) => False
  | .operator _ call =>
    (∀ h ∈ call.handles, M.Tame h) ∧ ∀ items, call = .sum items → items.length < 2 ^ 59
  | _ => True

theorem stepAdds (proper : M.Proper) (small : M.Small) {call : Call E} (operated : Operated M call) :
    M.Adds s.model (s.step call).2.model := by
  cases call with
  | model call =>
    rw [step, buildLeaves]
    cases call with
    | post c g => exact operated.elim
    | withDomain d name =>
      exact keepsBind (Model.addsNewVariable _ _) (fun _ => keepsPure _) s.model
    | _ => exact keepsBind (Model.addsNewInt _ _ _) (fun _ => keepsPure _) s.model
  | layer settings encoder =>
    have adds : M.Adds s.model (remains (Layer.create settings s.model)) :=
      keepsBind (Model.addsNewInt _ _ _) (fun _ => keepsBind (Model.addsNewInt _ _ _) fun _ =>
        keepsPure _) s.model
    rw [step]
    rcases openLayerCases s settings encoder with ⟨ops, m, made, same⟩ | same
    · rw [made] at adds
      rw [same]
      exact adds
    · rw [same]
      exact adds
  | operator place call =>
    cases found : s.layers[place]? with
    | none =>
      simp only [step, operate, found]
      exact Std.Refl.refl s.model
    | some layer =>
      rw [step, operateLeaves found]
      exact addsPerform proper small layer.1 call operated.1 operated.2 ⟨s.model, layer.2⟩

theorem runAdds (proper : M.Proper) (small : M.Small) {calls : List (Call E)}
    (operated : ∀ call ∈ calls, Operated M call) : M.Adds s.model (s.run calls).model := by
  induction calls generalizing s with
  | nil => exact Std.Refl.refl s.model
  | cons call calls ih =>
    obtain ⟨first, rest⟩ := List.forall_mem_cons.mp operated
    exact IsTrans.trans _ _ _ (stepAdds proper small first) (ih rest)

/-- Where only operators post constraints, a check of any assignment of the right size has an answer
and so has every search, whatever the coefficients of the sums: no variable is missed, no arithmetic
leaves its width and nothing is divided by zero. -/
theorem evaluationTotal (calls : List (Call E)) (built : ∀ c ∈ calls, c.Built)
    (operators : ∀ c g, Call.model (.post c g) ∉ calls)
    (tame : ∀ place call, Call.operator place call ∈ calls →
      ∀ h ∈ call.handles, (start.run calls).model.Tame h)
    (short : ∀ place items, Call.operator place (.sum items) ∈ calls → items.length < 2 ^ 59)
    (small : (start.run calls).model.Small) :
    let m := (start.run calls).model
    (∀ a : Assignment, a.size = m.vars.length → ∃ b, m.check a = .ok b) ∧
      ∃ found, m.solutions = .ok found ∧ m.oneSolution = .ok found.head? ∧
        m.solutionCount = .ok found.length ∧ ∀ a, a ∈ found ↔ m.check a = .ok true := by
  intro m
  have proper : m.Proper := (runSound built startSound).proper
  have operated : ∀ call ∈ calls, Operated m call := by
    intro call mem
    cases call with
    | model call =>
      cases call with
      | post c g => exact operators c g mem
      | _ => trivial
    | layer settings encoder => trivial
    | operator place call =>
      exact ⟨tame place call mem, fun items same => short place items (same ▸ mem)⟩
  have evaluates : m.Evaluates := by
    intro a admits p mem failed
    rcases (runAdds proper small operated).answers (Model.leRefl m) p mem with none | answer
    · simp [start, Model.empty] at none
    · obtain ⟨b, decided⟩ := answer a admits
      simp only [failed, reduceCtorEq] at decided
  refine ⟨fun a size => Model.checkDecided evaluates proper size, m.outcomes, ?_, ?_, ?_, ?_⟩
  · exact Model.solutionsOutcomes evaluates proper small
  · exact Model.oneSolutionOutcomes evaluates proper small
  · exact Model.solutionCountOutcomes evaluates proper small
  · exact fun a => Model.outcomesExact evaluates proper

theorem evaluationTotalOnce :
    let x : Handle := ⟨3, by decide⟩
    let y : Handle := ⟨4, by decide⟩
    let calls : List (Call Dictionary) := [.layer .standard .empty, .model (.bool "x"), .model (.bool "y"),
      .operator 0 (.scaledSum [x, y] [Int64.maxValue, Int64.minValue]),
      .operator 0 (.increasing [⟨-3, by decide⟩, y, ⟨9, by decide⟩]),
      .operator 0 (.div (.var x) (.scalar (.long 0)))]
    let m := (start.run calls).model
    m.vars.length = 5 ∧ m.constraints.length = 2 ∧ m.check ⟨[1, 0, 1, 1, -1]⟩ = .ok true ∧
      (∃ b, m.check ⟨[1, 0, 0, 1, Int64.minValue]⟩ = .ok b) ∧ ∃ found, m.solutions = .ok found ∧
        m.solutionCount = .ok found.length ∧ ⟨[1, 0, 1, 1, -1]⟩ ∈ found := by
  intro x y calls m
  have solution : m.check ⟨[1, 0, 1, 1, -1]⟩ = .ok true := by decide +kernel
  have size : m.vars.length = 5 := by decide +kernel
  have tame : ∀ place call, Call.operator place call ∈ calls → ∀ h ∈ call.handles, m.Tame h := by
    intro place call mem h listed negated v found z inside
    have place : h.index = 2 := by
      simp only [calls, List.mem_cons, reduceCtorEq, Call.operator.injEq, List.not_mem_nil, false_or,
        or_false] at mem
      rcases mem with ⟨_, same⟩ | ⟨_, same⟩ | ⟨_, same⟩ <;> subst same
      · rcases List.mem_pair.mp listed with same | same <;> subst same <;> cases negated
      · simp only [OperatorCall.handles, List.mem_cons, List.not_mem_nil, or_false] at listed
        rcases listed with same | same | same <;> subst same
        · rfl
        · cases negated
        · cases negated
      · cases List.mem_singleton.mp listed
        cases negated
    rw [place] at found
    cases found
    exact Model.bitCases inside
  obtain ⟨checked, found, listed, _, counted, exact⟩ := evaluationTotal calls
    (by simp [calls, Call.Built]) (by simp [calls]) tame (by simp [calls]) (by decide)
  exact ⟨size, by decide +kernel, solution, checked _ size.symm, found, listed, counted, (exact _).mpr solution⟩

end Session

end ConstraintAlgebra
