import ConstraintAlgebra.Comparison
import ConstraintAlgebra.Proofs.Variables

/-! Sequences that never descend. Only neighbours are compared, and the comparisons between all other
positions follow, since the values of an assignment are ordered and every handle has one value. -/
namespace ConstraintAlgebra

def Assignment.Ascends (a : Assignment) (l r : Handle) : Prop :=
  ∃ x y, a.value l = .ok x ∧ a.value r = .ok y ∧ x ≤ y

namespace Model

variable {m n : Model} {a : Assignment} {vars : List Handle}

def ascents : List Handle → List Posted
  | l :: r :: rest => ⟨.compare l .le (.var r), none⟩ :: ascents (r :: rest)
  | _ => []

instance (a : Assignment) : IsTrans Handle a.Ascends where
  trans l k r first second := by
    obtain ⟨x, y, left, middle, below⟩ := first
    obtain ⟨u, z, same, right, above⟩ := second
    rw [middle, Except.ok.injEq] at same
    subst same
    exact ⟨x, z, left, right, Int64.le_trans below above⟩

theorem ascentSatisfied {l r : Handle} :
    (Posted.mk (.compare l .le (.var r)) none).isSatisfied a = .ok true ↔ a.Ascends l r := by
  change (Constraint.compare l .le (.var r)).holds a = .ok true ↔ _
  simp only [Constraint.holds, Assignment.term, bindOk, pureOk, Relation.holdsWords,
    Assignment.Ascends, Relation.Holds, Int64.le_iff_toInt_le]
  constructor
  · intro held
    obtain ⟨x, left, y, right, ordered⟩ := held
    exact ⟨x, y, left, right, ordered⟩
  · intro held
    obtain ⟨x, y, left, right, ordered⟩ := held
    exact ⟨x, left, y, right, ordered⟩

theorem ascentsSatisfied (a : Assignment) (vars : List Handle) :
    (∀ p ∈ ascents vars, p.isSatisfied a = .ok true) ↔ vars.IsChain a.Ascends := by
  match vars with
  | [] => simp [ascents]
  | [h] => simp [ascents]
  | l :: r :: rest =>
    rw [ascents, List.forall_mem_cons, ascentSatisfied, ascentsSatisfied a (r :: rest),
      List.isChain_cons_cons]

theorem ascentsHandles (P : Handle → Prop) (vars : List Handle) :
    (∀ p ∈ ascents vars, ∀ h ∈ p.handles, P h) ↔ vars.length ≤ 1 ∨ ∀ h ∈ vars, P h := by
  match vars with
  | [] => simp [ascents]
  | [h] => simp [ascents]
  | [l, r] => simp [ascents, Posted.handles, Constraint.handles, Term.handles]
  | l :: r :: next :: rest =>
    have others := ascentsHandles P (r :: next :: rest)
    have long : ¬(r :: next :: rest).length ≤ 1 := by simp
    rw [or_iff_right long] at others
    rw [ascents, List.forall_mem_cons, others, or_iff_right (by simp)]
    simp only [Posted.handles, Constraint.handles, Term.handles, Option.toList_none, List.append_nil,
      List.forall_mem_cons]
    tauto

theorem addRun {c : Constraint} {u : Unit} : add c m = .ok u n ↔
    n = m.posted ⟨c, none⟩ ∧ ∀ h ∈ (Posted.mk c none).handles, m.Owns h := by
  refine ⟨postOk, fun posted => ?_⟩
  obtain ⟨rfl, owned⟩ := posted
  rw [add, postRun, recognizeOk.mpr owned]
  rfl

theorem ascentsShort (short : vars.length ≤ 1) : ascents vars = [] := by
  match vars with
  | [] | [_] => rfl
  | _ :: _ :: _ => simp at short

theorem increasingRun {m n : Model} {u : Unit} (vars : List Handle) : increasing vars m = .ok u n ↔
    n = ⟨m.vars, m.constraints ++ ascents vars⟩ ∧
      ∀ p ∈ ascents vars, ∀ h ∈ p.handles, m.Owns h := by
  match vars with
  | [] | [_] =>
    change (pure () : Build Unit) m = .ok u n ↔ n = ⟨m.vars, m.constraints ++ []⟩ ∧ ∀ p ∈ [], _
    simp only [runPure, List.append_nil, List.not_mem_nil, true_and, false_implies, implies_true,
      and_true]
    exact eq_comm
  | l :: r :: rest =>
    rw [increasing, runBind, ascents, List.forall_mem_cons]
    simp only [addRun, increasingRun (r :: rest)]
    constructor
    · intro ran
      obtain ⟨_, k, ⟨rfl, owned⟩, rfl, others⟩ := ran
      exact ⟨by simp [posted], owned, others⟩
    · intro ran
      obtain ⟨rfl, owned, others⟩ := ran
      exact ⟨(), _, ⟨rfl, owned⟩, by simp [posted], others⟩

theorem ascentsSolution : (⟨m.vars, m.constraints ++ ascents vars⟩ : Model).Solution a ↔
    m.Solution a ∧ vars.Pairwise a.Ascends := by
  simp only [solutionExact, Admits, List.forall_mem_append, ascentsSatisfied, and_assoc,
    List.isChain_iff_pairwise]

theorem sequenceOrdered (m : Model) (vars : List Handle) :
    ((∃ n, increasing vars m = .ok () n) ↔ vars.length ≤ 1 ∨ ∀ h ∈ vars, m.Owns h) ∧
      ∀ n, increasing vars m = .ok () n →
        n.vars = m.vars ∧ (vars.length ≤ 1 → n = m) ∧
        ∀ a, n.check a = .ok true ↔ m.check a = .ok true ∧
          ∀ i j (before : i < j) (inside : j < vars.length),
            ∃ x y, a.value vars[i] = .ok x ∧ a.value vars[j] = .ok y ∧ x ≤ y := by
  have accepted : ∀ n, increasing vars m = .ok () n ↔ _ := fun n => increasingRun vars
  constructor
  · simp only [accepted, exists_eq_left, ascentsHandles]
  intro n ran
  obtain ⟨rfl, -⟩ := (accepted n).mp ran
  refine ⟨rfl, fun short => ?_, fun a => ?_⟩
  · rw [ascentsShort short, List.append_nil]
  change Solution _ a ↔ m.Solution a ∧ _
  rw [ascentsSolution, List.pairwise_iff_getElem]
  refine and_congr_right' ?_
  constructor
  · intro pairs i j before inside
    exact pairs i j (before.trans inside) inside before
  · intro pairs i j _ inside before
    exact pairs i j before inside

theorem sequenceOrderedOnce :
    let x : Handle := ⟨1, by decide⟩
    let y : Handle := ⟨-2, by decide⟩
    let m : Model := ⟨[⟨⟨[⟨0, 3⟩]⟩, "x"⟩, ⟨⟨[⟨-1, 1⟩]⟩, "y"⟩], []⟩
    ∃ n, increasing [x, y, x] m = .ok () n ∧ n.vars = m.vars ∧ n.check ⟨[2, -1]⟩ = .ok true ∧
      m.check ⟨[2, 0]⟩ = .ok true ∧ ¬n.check ⟨[2, 0]⟩ = .ok true := by
  intro x y m
  obtain ⟨accepted, exact⟩ := sequenceOrdered m [x, y, x]
  have owned : ∀ h ∈ [x, y, x], m.Owns h := by
    change ∀ h ∈ [x, y, x], h.index < m.vars.length
    decide
  obtain ⟨n, ran⟩ := accepted.mpr (.inr owned)
  obtain ⟨vars, -, solutions⟩ := exact n ran
  have values : ∀ (i : Nat) (inside : i < [x, y, x].length),
      (Assignment.mk [2, -1]).value [x, y, x][i] = .ok 2
    | 0, _ | 1, _ | 2, _ => rfl
  refine ⟨n, ran, vars, (solutions _).mpr ⟨rfl, fun i j before inside => ?_⟩, rfl,
    fun solution => ?_⟩
  · exact ⟨2, 2, values i (before.trans inside), values j inside, Int64.le_refl 2⟩
  · obtain ⟨u, v, left, right, ordered⟩ := ((solutions _).mp solution).2 0 1 (by decide) (by decide)
    cases left
    cases right
    exact absurd ordered (by decide)

end Model

end ConstraintAlgebra
