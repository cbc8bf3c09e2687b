import ConstraintAlgebra.Proofs.Runs

/-! Quotients, and products of two variables. The range of the result is the one in the settings,
whatever the operands are, so a solution is kept exactly when its exact result lies in that range. -/
namespace ConstraintAlgebra

namespace OperatorCall

def Unbounded : OperatorCall → Prop
  | div (.var _) (.scalar _) => True
  | mult (.var _) (.var _) => True
  | _ => False

def Yields (a : Assignment) (q : Int) : OperatorCall → Prop
  | div (.var h) (.scalar s) =>
    ∃ x d, a.value h = .ok x ∧ s.number? = some d ∧ q = x.toInt.tdiv d.toInt
  | mult (.var l) (.var r) =>
    ∃ x y, a.value l = .ok x ∧ a.value r = .ok y ∧ q = x.toInt * y.toInt
  | _ => False

end OperatorCall

theorem Scalar.numberFound {s : Scalar} {op : Operation} {n : Int64} :
    s.number op = .ok n ↔ s.number? = some n := by
  unfold Scalar.number
  cases s.number? <;> simp

namespace Model

variable {m n : Model} {a b : Assignment} {h g l r : Handle} {t x y d lo hi : Int64} {q : Int}

theorem productHolds (target : a.value h = .ok t) (left : a.value l = .ok x)
    (right : a.value r = .ok y) :
    (Constraint.product h l r).holds a = .ok (t.toInt == x.toInt * y.toInt) := by
  simp [Constraint.holds, target, left, right, bind, Except.bind, pure, Except.pure]

/- No word denotes the quotient of the least word by -1, so no value of the target does. -/
theorem quotientHolds (nonzero : d ≠ 0) (target : a.value h = .ok t) (numerator : a.value g = .ok x) :
    (Constraint.quotient h g (.const d)).holds a = .ok (t.toInt == x.toInt.tdiv d.toInt) := by
  have same : (toWord? (x.toInt.tdiv d.toInt) == some t) = (t.toInt == x.toInt.tdiv d.toInt) := by
    rw [Bool.eq_iff_iff, beq_iff_eq, beq_iff_eq, toWordExact]
  simp [Constraint.holds, Assignment.term, nonzero, target, numerator, same, bind, Except.bind,
    pure, Except.pure]

theorem targetExtension {c : Constraint} (proper : m.Proper) (next : m.Next h) (solution : m.Solution a)
    (defined : ∀ t, (a.push t).value h = .ok t → c.holds (a.push t) = .ok (t.toInt == q)) :
    (m.extended ⟨⟨[⟨lo, hi⟩]⟩, ""⟩ [⟨c, none⟩]).Solution b ∧ b.restrict m.vars.length = a ↔
      ∃ t : Int64, t.toInt = q ∧ lo.toInt ≤ q ∧ q ≤ hi.toInt ∧ b = a.push t := by
  have length := admitsLength (solutionExact.mp solution).1
  -- The target is the only new variable, so what extends a solution is one value.
  have pushed : ∀ t, (m.extended ⟨⟨[⟨lo, hi⟩]⟩, ""⟩ [⟨c, none⟩]).Solution (a.push t) ↔
      t.toInt = q ∧ lo.toInt ≤ q ∧ q ≤ hi.toInt := by
    intro t
    have posted : (Posted.mk c none).isSatisfied (a.push t) = .ok (t.toInt == q) :=
      defined t (freshValue (next.place.trans length.symm) next.sign)
    have inside : t ∈ Domain.mk [⟨lo, hi⟩] ↔ lo.toInt ≤ t.toInt ∧ t.toInt ≤ hi.toInt := by
      simp only [Domain.memExact, List.mem_singleton, exists_eq_left, Interval.memExact]
    rw [extendedSolution proper length, List.forall_mem_singleton, posted, inside, Except.ok.injEq,
      beq_iff_eq]
    constructor
    · intro ⟨_, range, same⟩
      exact ⟨same, same ▸ range⟩
    · intro ⟨same, range⟩
      exact ⟨solution, same ▸ range, same⟩
  constructor
  · intro ⟨extension, same⟩
    obtain ⟨c, t, split, size⟩ := splitLast (solutionExact.mp extension).1
    subst split
    rw [← size, restrictPush] at same
    subst same
    obtain ⟨exact, range⟩ := (pushed t).mp extension
    exact ⟨t, exact, range.1, range.2, rfl⟩
  · intro ⟨t, exact, lower, upper, same⟩
    subst same
    refine ⟨(pushed t).mpr ⟨exact, lower, upper⟩, ?_⟩
    rw [← length, restrictPush]

end Model

namespace Layer

variable {ops : Layer} {m n : Model} {z : Operand} {call : OperatorCall} {reply : Reply}

open Model

theorem quotientOk {g : Handle} {s : Scalar} (ok : ops.div (.var g) (.scalar s) m = .ok z n) :
    ∃ h d, z = .var h ∧ s.number? = some d ∧ d ≠ 0 ∧ (n.Small → m.Next h) ∧
      n = m.extended ⟨⟨[ops.settings.unbounded]⟩, ""⟩ [⟨.quotient h g (.const d), none⟩] := by
  simp only [div, runBind, runLift, Scalar.numberFound] at ok
  obtain ⟨d, _, ⟨number, same⟩, ok⟩ := ok
  subst same
  split at ok
  · exact absurd ok runThrow
  · rename_i nonzero
    simp only [add, runBind, runPure] at ok
    obtain ⟨h, k, made, u, _, posted, result, last⟩ := ok
    subst last
    obtain ⟨_, extended, _, next⟩ := targetOk made posted
    exact ⟨h, d, result.symm, number, nonzero, next, extended⟩

theorem productOk {l r : Handle} (ok : ops.mult (.var l) (.var r) m = .ok z n) :
    ∃ h, z = .var h ∧ (n.Small → m.Next h) ∧
      n = m.extended ⟨⟨[ops.settings.unbounded]⟩, ""⟩ [⟨.product h l r, none⟩] := by
  simp only [mult, add, runBind, runPure] at ok
  obtain ⟨h, k, made, u, _, posted, result, last⟩ := ok
  subst last
  obtain ⟨_, extended, _, next⟩ := targetOk made posted
  exact ⟨h, result.symm, next, extended⟩

theorem unboundedOk {E : Type} [Encoding E] {w v : Workspace E} (unbounded : call.Unbounded)
    (ok : call.perform ops w = .ok reply v) :
    ∃ h c, reply = .var h ∧ (v.model.Small → w.model.Next h) ∧
      v.model = w.model.extended ⟨⟨[ops.settings.unbounded]⟩, ""⟩ [⟨c, none⟩] ∧
      ∀ a q, call.Yields a q → ∀ t, (a.push t).value h = .ok t →
        c.holds (a.push t) = .ok (t.toInt == q) := by
  unfold OperatorCall.Unbounded at unbounded
  split at unbounded
  · rename_i g s
    simp only [OperatorCall.perform, runMap] at ok
    obtain ⟨z, ok, result⟩ := ok
    obtain ⟨h, d, handle, number, nonzero, next, extended⟩ := quotientOk (runOnModel.mp ok).1
    subst handle
    refine ⟨h, .quotient h g (.const d), result.symm, next, extended, ?_⟩
    intro a q yields t target
    obtain ⟨x, e, numerator, divisor, exact⟩ := yields
    rw [number, Option.some.injEq] at divisor
    rw [exact, ← divisor]
    exact quotientHolds nonzero target (pushValue numerator)
  · rename_i l r
    simp only [OperatorCall.perform, runMap] at ok
    obtain ⟨z, ok, result⟩ := ok
    obtain ⟨h, handle, next, extended⟩ := productOk (runOnModel.mp ok).1
    subst handle
    refine ⟨h, .product h l r, result.symm, next, extended, ?_⟩
    intro a q yields t target
    obtain ⟨x, y, left, right, exact⟩ := yields
    rw [exact]
    exact productHolds target (pushValue left) (pushValue right)
  · exact unbounded.elim

end Layer

namespace Session

variable {E : Type} [Encoding E] {t : Session E} {ops : Layer} {e : E}

/-- A quotient or product of variables keeps the solutions whose exact result can be represented, each
with that result as the value of the new variable, and no others. -/
theorem representableKept (calls : List (Call E)) (place : Nat) (call : OperatorCall) {reply : Reply}
    (built : ∀ c ∈ calls, c.Built) (found : (start.run calls).layers[place]? = some (ops, e))
    (unbounded : call.Unbounded)
    (replied : (start.run calls).step (.operator place call) = (.ok reply, t))
    (small : t.model.Small) :
    let m := (start.run calls).model
    let Extends (a b : Assignment) := t.model.check b = .ok true ∧ b.restrict m.vars.length = a
    ∃ h, reply = .var h ∧
      (∀ b, t.model.check b = .ok true → m.check (b.restrict m.vars.length) = .ok true) ∧
      ∀ a q, m.check a = .ok true → call.Yields a q →
        ((∃ b, Extends a b) ↔
          ops.settings.unbounded.lo.toInt ≤ q ∧ q ≤ ops.settings.unbounded.hi.toInt) ∧
        ∀ b, Extends a b → (∃ x, b.value h = .ok x ∧ x.toInt = q) ∧ ∀ c, Extends a c → c = b := by
  intro m Extends
  have proper := (runSound built startSound).proper
  obtain ⟨w, ran, left⟩ := operateOk found replied
  subst left
  obtain ⟨h, c, result, next, extended, defined⟩ := Layer.unboundedOk unbounded ran
  have next := next small
  have le : m ≤ w.model := extended ▸ Model.leExtended m _ _
  refine ⟨h, result, fun b => Model.Solution.restrict proper le, fun a q solution yields => ?_⟩
  have extension : ∀ b, Extends a b ↔ ∃ t : Int64, t.toInt = q ∧
      ops.settings.unbounded.lo.toInt ≤ q ∧ q ≤ ops.settings.unbounded.hi.toInt ∧ b = a.push t := by
    intro b
    change w.model.Solution b ∧ _ ↔ _
    rw [extended]
    exact Model.targetExtension proper next solution (defined a q yields)
  refine ⟨⟨fun ⟨b, extends'⟩ => ?_, fun ⟨lower, upper⟩ => ?_⟩, fun b extends' => ?_⟩
  · obtain ⟨t, _, lower, upper, _⟩ := (extension b).mp extends'
    exact ⟨lower, upper⟩
  · obtain ⟨t, exact⟩ := wordBetween lower upper
    exact ⟨a.push t, (extension _).mpr ⟨t, exact, lower, upper, rfl⟩⟩
  · obtain ⟨t, exact, _, _, same⟩ := (extension b).mp extends'
    subst same
    have length := Model.admitsLength (Model.solutionExact.mp solution).1
    refine ⟨⟨t, freshValue (next.place.trans length.symm) next.sign, exact⟩, fun c other => ?_⟩
    obtain ⟨u, again, _, _, same⟩ := (extension c).mp other
    rw [same, Int64.toInt_inj.mp (again.trans exact.symm)]

theorem representableKeptOnce :
    let calls : List (Call Dictionary) := [.layer ⟨true, ⟨-7, Int64.maxValue⟩⟩ .empty,
      .model (.withDomain (.ofValues [7, Int64.minValue]) "x")]
    let call : OperatorCall := .div (.var ⟨3, by decide⟩) (.scalar (.int (-1)))
    let t := ((start.run calls).step (.operator 0 call)).2
    t.model.Small ∧ call.Unbounded ∧ call.Yields ⟨[1, 0, 7]⟩ (-7) ∧
      call.Yields ⟨[1, 0, Int64.minValue]⟩ (2 ^ 63) ∧
      (∃ b, t.model.check b = .ok true ∧ b.restrict 3 = ⟨[1, 0, 7]⟩) ∧
      ¬∃ b, t.model.check b = .ok true ∧ b.restrict 3 = ⟨[1, 0, Int64.minValue]⟩ := by
  intro calls call t
  have fits : call.Yields ⟨[1, 0, 7]⟩ (-7) := ⟨7, -1, rfl, rfl, by decide⟩
  have exceeds : call.Yields ⟨[1, 0, Int64.minValue]⟩ (2 ^ 63) :=
    ⟨Int64.minValue, -1, rfl, rfl, by decide⟩
  obtain ⟨h, _, _, kept⟩ := representableKept calls 0 call
    (by simpa [calls, Call.Built] using .values _) rfl trivial rfl (by decide)
  refine ⟨by decide, trivial, fits, exceeds, ?_, ?_⟩
  · exact (kept ⟨[1, 0, 7]⟩ (-7) rfl fits).1.mpr (by decide)
  · intro extension
    have range := (kept ⟨[1, 0, Int64.minValue]⟩ (2 ^ 63) rfl exceeds).1.mp extension
    exact absurd range (by decide)

end Session

end ConstraintAlgebra
