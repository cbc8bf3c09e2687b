import ConstraintAlgebra.Proofs.Extremes
import ConstraintAlgebra.Proofs.Totals

/-! What the reply of an operator call stands for under a reading, whichever way the operator took to
it. Calls that only define their result settle it; quotients, products of two variables and sequences
constrain the model, and are exact on the solutions that are left. -/
namespace ConstraintAlgebra

namespace OperatorCall

def Means (ρ : Reading) : OperatorCall → Reply → Prop
  | encode s, .code n => n.toInt = ρ.code s
  | toConst x, .operand z => z.denote ρ = x.denote ρ
  | compare rel x y, .operand z => Marks (z.denote ρ) (rel.Between ρ x y)
  | plus x y, .operand z => z.denote ρ = x.denote ρ + y.denote ρ
  | minus x y, .operand z => z.denote ρ = x.denote ρ - y.denote ρ
  | mult x y, .operand z => z.denote ρ = x.denote ρ * y.denote ρ
  | div x y, .operand z => y.denote ρ ≠ 0 ∧ z.denote ρ = (x.denote ρ).tdiv (y.denote ρ)
  | sum items, .operand z => z.denote ρ = (items.map (·.denote ρ)).sum
  | scaledSum vars coeffs, .operand z => vars.length = coeffs.length ∧
      z.denote ρ = (List.zipWith (fun c h => c.toInt * ρ.value h) coeffs vars).sum
  | extreme e items, .operand z => e.Tops (z.denote ρ) (items.map (·.denote ρ))
  | increasing vars, .done => (vars.map ρ.value).IsChain (· ≤ ·)
  | connect c x y, .operand z => Bit (x.denote ρ) → Bit (y.denote ρ) →
      Marks (z.denote ρ) (c.Joins (x.denote ρ = 1) (y.denote ρ = 1))
  | not x, .operand z => Marks (z.denote ρ) (x.denote ρ = 0)
  | anyTrue lits, .operand z => Marks (z.denote ρ) (∃ h ∈ lits, ρ.value h = 1)
  | isIn x items, .operand z => Marks (z.denote ρ) (∃ item ∈ items, Relation.eq.Between ρ x item)
  | inIntegers h set, .operand z => Marks (z.denote ρ) (∃ n ∈ set, ρ.value h = n.toInt)
  | inStrings h set, .operand z => Marks (z.denote ρ) (∃ s ∈ set, ρ.value h = ρ.code s)
  | inVars h set, .operand z => Marks (z.denote ρ) (∃ g ∈ set, ρ.value h = ρ.value g)
  | _, _ => False

/-- Calls that constrain nothing but the variables they make. -/
def Definitional : OperatorCall → Prop
  | div _ _ => False
  | increasing _ => False
  | mult x y => ¬(x.isSymbolic = true ∧ y.isSymbolic = true)
  | sum items => items.length < 2 ^ 59
  | _ => True

variable {E : Type} [Encoding E] {w v : Workspace E} {ops : Layer} {call : OperatorCall}
  {reply : Reply} {a : Assignment} {ρ : Reading}

open Model

theorem someMapped {α β : Type} {f : α → β} {xs : List α} {P : β → Prop} :
    (∃ y ∈ xs.map f, P y) ↔ ∃ x ∈ xs, P (f x) := by
  simp only [List.mem_map, exists_exists_and_eq_and]

theorem performSettled (definitional : call.Definitional) (proper : w.model.Proper)
    (inside : ops.In w.model) (small : v.model.Small) (ok : call.perform ops w = .ok reply v) :
    w.Settled v fun ρ => call.Means ρ reply := by
  cases call with (simp only [perform, runMap] at ok; obtain ⟨z, ok, rfl⟩ := ok)
  | encode s =>
    obtain ⟨same, exact⟩ := Scalar.codeExact ok
    rw [Workspace.Settled, same]
    exact settledSame proper fun a ρ _ _ knows => exact ρ knows
  | toConst x => exact Layer.toConstSettled proper inside small ok
  | compare rel x y => exact Layer.compareSettled proper inside small ok
  | plus x y =>
    refine Workspace.settledOnModel ok fun ok => ?_
    obtain ⟨⟨left, right⟩, total⟩ := signedTotalled ok
    exact settledTotal total proper small (.inr (plainOperands (.inl rfl) (.inl rfl)))
      fun ρ => (signedExact left right).trans (addOne _ _)
  | minus x y =>
    refine Workspace.settledOnModel ok fun ok => ?_
    obtain ⟨⟨left, right⟩, total⟩ := signedTotalled ok
    exact settledTotal total proper small (.inr (plainOperands (.inl rfl) (.inr rfl)))
      fun ρ => (signedExact left right).trans (addMinusOne _ _)
  | mult x y =>
    refine Workspace.settledOnModel ok fun ok => ?_
    obtain ⟨⟨left, right⟩, total⟩ := multTotalled ok definitional
    exact settledTotal total proper small (scaledFits definitional)
      fun ρ => multExact left right definitional
  | div x y => exact definitional.elim
  | sum items =>
    refine Workspace.settledOnModel ok fun ok => ?_
    obtain ⟨numeric, total⟩ := sumTotalled ok
    exact settledTotal total proper small (.inr (plainItems definitional)) fun ρ => sumExact numeric
  | scaledSum vars coeffs =>
    refine Workspace.settledOnModel ok fun ok => ?_
    obtain ⟨same, total⟩ := scaledSumTotalled ok
    refine (totalledSettled total proper small (.inl rfl)).imp fun a ρ _ _ exact => ⟨same, ?_⟩
    rwa [add_zero, scaledSumExact] at exact
  | extreme e items => exact Workspace.settledOnModel ok (extremeSettled proper small)
  | increasing vars => exact definitional.elim
  | connect c x y =>
    exact Workspace.settledOnModel ok (Layer.connectSettled proper inside small)
  | not x => exact Workspace.settledOnModel ok (Layer.notSettled proper inside small)
  | anyTrue lits => exact Workspace.settledOnModel ok (Layer.anyTrueSettled proper inside small)
  | isIn x items => exact Layer.isInSettled proper inside small ok
  | inIntegers h set =>
    exact (Layer.memberLiteralSettled proper inside small ok).imp fun ρ => (marksCongr someMapped).mp
  | inStrings h set =>
    exact (Layer.memberLiteralSettled proper inside small ok).imp fun ρ => (marksCongr someMapped).mp
  | inVars h set =>
    exact (Layer.memberLiteralSettled proper inside small ok).imp fun ρ => (marksCongr someMapped).mp

theorem increasingExact {m n : Model} {vars : List Handle} {u : Unit}
    (ok : Model.increasing vars m = .ok u n) :
    m ≤ n ∧ ∀ (a : Assignment) (ρ : Reading), n.Solution a → ρ.Reads a →
      (vars.map ρ.value).IsChain (· ≤ ·) := by
  match vars with
  | [] =>
    obtain ⟨_, rfl⟩ := runPure.mp ok
    exact ⟨leRefl m, fun _ _ _ _ => .nil⟩
  | [h] =>
    obtain ⟨_, rfl⟩ := runPure.mp ok
    exact ⟨leRefl m, fun _ _ _ _ => .singleton _⟩
  | l :: r :: rest =>
    simp only [Model.increasing, Model.add, runBind] at ok
    obtain ⟨_, k, posted, ok⟩ := ok
    obtain ⟨rfl, _⟩ := postOk posted
    obtain ⟨le, exact⟩ := increasingExact ok
    refine ⟨⟨le.1, (List.prefix_append _ _).trans le.2⟩, fun a ρ solution reads => ?_⟩
    have satisfied := (solutionExact.mp solution).2 ⟨.compare l .le (.var r), none⟩
      (le.2.subset (by simp))
    change (Constraint.compare l .le (.var r)).holds a = .ok true at satisfied
    simp only [Constraint.holds, Assignment.term, bindOk, pureOk] at satisfied
    obtain ⟨x, left, y, right, ordered⟩ := satisfied
    refine .cons_cons ?_ (exact a ρ solution reads)
    rw [reads l x left, reads r y right]
    exact Relation.holdsWords.mp ordered

theorem divExact {m n : Model} {x y z : Operand} (ok : ops.div x y m = .ok z n)
    (solution : n.Solution a) (reads : ρ.Reads a) :
    y.denote ρ ≠ 0 ∧ z.denote ρ = (x.denote ρ).tdiv (y.denote ρ) := by
  unfold Layer.div at ok
  split at ok
  · exact absurd ok runThrow
  simp only [runBind, runLift] at ok
  obtain ⟨d, _, ⟨number, rfl⟩, ok⟩ := ok
  have divisor := Scalar.numberOk (ρ := ρ) number
  split at ok
  · exact absurd ok runThrow
  rename_i nonzero
  have nonzero : d.toInt ≠ 0 := fun zero => nonzero (Int64.toInt_inj.mp zero)
  simp only [Operand.denote, divisor]
  refine ⟨nonzero, ?_⟩
  rcases x with s | h
  · simp only [runBind, runLift] at ok
    obtain ⟨n, _, ⟨numerator, rfl⟩, ok⟩ := ok
    cases fits : toWord? (n.toInt.tdiv d.toInt) with
    | some q =>
      rw [fits] at ok
      obtain ⟨rfl, rfl⟩ := runPure.mp ok
      change q.toInt = (s.denote ρ).tdiv d.toInt
      rw [Scalar.numberOk numerator, toWordExact.mp fits]
    | none =>
      rw [fits] at ok
      exact absurd ok runThrow
  · simp only [Model.add, runBind, runPure] at ok
    obtain ⟨h, k, made, _, _, posted, rfl, rfl⟩ := ok
    exact quotientExact made posted solution reads

theorem performExact (proper : w.model.Proper) (inside : ops.In w.model) (small : v.model.Small)
    (ok : call.perform ops w = .ok reply v) (solution : v.model.Solution a) (reads : ρ.Reads a)
    (knows : ρ.Knows v.encoder) : call.Means ρ reply := by
  by_cases definitional : call.Definitional
  · exact (performSettled definitional proper inside small ok).exact a ρ solution reads knows
  cases call with (simp only [perform, runMap] at ok; obtain ⟨z, ok, rfl⟩ := ok)
  | mult x y =>
    have ran := (runOnModel.mp ok).1
    rcases x with _ | l
    · exact absurd (by simp [Definitional, Operand.isSymbolic]) definitional
    rcases y with _ | r
    · exact absurd (by simp [Definitional, Operand.isSymbolic]) definitional
    simp only [Layer.mult, Model.add, runBind, runPure] at ran
    obtain ⟨h, k, made, _, _, posted, rfl, rfl⟩ := ran
    exact productExact made posted solution reads
  | div x y => exact divExact (runOnModel.mp ok).1 solution reads
  | sum items =>
    obtain ⟨numeric, total⟩ := sumTotalled (runOnModel.mp ok).1
    exact (totalledExact total solution reads).trans (sumExact numeric)
  | increasing vars => exact (increasingExact (runOnModel.mp ok).1).2 a ρ solution reads
  | _ => exact absurd trivial definitional

end OperatorCall

end ConstraintAlgebra
