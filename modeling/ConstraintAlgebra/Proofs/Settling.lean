import ConstraintAlgebra.Connective
import ConstraintAlgebra.Proofs.Variables

/-! Calls that settle a value: the new variables are determined by the old ones, so no solution is
lost, added or duplicated, and every solution gives the result its exact value. -/
namespace ConstraintAlgebra

def Marks (v : Int) (p : Prop) : Prop := v = 1 ∧ p ∨ v = 0 ∧ ¬p

theorem marksCongr {v : Int} {p q : Prop} (same : p ↔ q) : Marks v p ↔ Marks v q := by
  rw [Marks, Marks, same]

theorem marksTruth {b : Bool} {p : Prop} (same : p ↔ b = true) : Marks (Relation.truth b) p := by
  cases b
  · exact .inr ⟨rfl, fun h => Bool.false_ne_true (same.mp h)⟩
  · exact .inl ⟨rfl, same.mpr rfl⟩

theorem marksOne {v : Int} {p : Prop} (marks : Marks v p) : v = 1 ↔ p := by
  rcases marks with ⟨rfl, holds⟩ | ⟨rfl, fails⟩
  · exact iff_of_true rfl holds
  · exact iff_of_false (by decide) fails

namespace Model

structure Settled (m n : Model) (Q : Reading → Prop) : Prop where
  proper : n.Proper
  evaluates : m.Evaluates → n.Evaluates
  conservative : m.Conservative n
  exact : ∀ a ρ, n.Solution a → ρ.Reads a → Q ρ

variable {m n k : Model} {a : Assignment} {ρ : Reading} {h l r b : Handle} {x y : Int64}
  {P Q R : Reading → Prop}

theorem settledSame (proper : m.Proper) (exact : ∀ a ρ, m.Solution a → ρ.Reads a → Q ρ) :
    Settled m m Q := ⟨proper, id, conservativeRefl m, exact⟩

theorem Settled.imp (first : Settled m n Q)
    (imp : ∀ a ρ, n.Solution a → ρ.Reads a → Q ρ → R ρ) : Settled m n R :=
  ⟨first.proper, first.evaluates, first.conservative, fun a ρ solution reads =>
    imp a ρ solution reads (first.exact a ρ solution reads)⟩

theorem Settled.le (first : Settled m n Q) : m ≤ n := first.conservative.le

theorem Settled.trans (first : Settled m n Q) (second : Settled n k R) :
    Settled m k fun ρ => Q ρ ∧ R ρ where
  proper := second.proper
  evaluates := second.evaluates ∘ first.evaluates
  conservative := first.conservative.trans first.proper second.conservative
  exact a ρ solution reads := ⟨first.exact _ ρ (solution.restrict first.proper second.le)
    (reads.restrict _), second.exact a ρ solution reads⟩

theorem properExtended (proper : m.Proper) {v : Variable} {ps : List Posted}
    (canonical : v.domain.Canonical) (inhabited : v.domain.intervals ≠ [])
    (owned : ∀ p ∈ ps, ∀ h ∈ p.handles, (m.extended v ps).Owns h) : (m.extended v ps).Proper where
  canonical := List.forall_mem_append.mpr ⟨proper.canonical, by simpa using canonical⟩
  inhabited := List.forall_mem_append.mpr ⟨proper.inhabited, by simpa using inhabited⟩
  owned := List.forall_mem_append.mpr ⟨fun p hp h hh =>
    (proper.owned p hp h hh).trans_le (leVars (leExtended m v ps)), owned⟩

theorem settledExtended {v : Variable} {ps : List Posted} (proper : m.Proper)
    (properNext : (m.extended v ps).Proper)
    (decided : ∀ a x, m.Admits a → x ∈ v.domain →
      ∀ p ∈ ps, ∃ b, p.isSatisfied (a.push x) = .ok b)
    (define : ∀ a, m.Admits a → ∃ x ∈ v.domain,
      (∀ p ∈ ps, p.isSatisfied (a.push x) = .ok true) ∧
      (∀ y ∈ v.domain, (∀ p ∈ ps, p.isSatisfied (a.push y) = .ok true) → y = x) ∧
      ∀ ρ : Reading, ρ.Reads (a.push x) → Q ρ) : Settled m (m.extended v ps) Q where
  proper := properNext
  evaluates evaluates := extendedEvaluates proper evaluates decided
  conservative := by
    refine extendedRefined proper (fun a solution _ => ?_) (fun _ _ _ _ _ => trivial) ?_
    · obtain ⟨x, mem, satisfied, _⟩ := define a (solutionExact.mp solution).1
      exact ⟨x, mem, satisfied⟩
    · intro a x y solution left first right second
      obtain ⟨z, _, _, forced, _⟩ := define a (solutionExact.mp solution).1
      rw [forced x left first, forced y right second]
  exact a ρ solution reads := by
    obtain ⟨b, y, rfl, length⟩ := splitLast (solutionExact.mp solution).1
    obtain ⟨old, mem, satisfied⟩ := (extendedSolution proper length).mp solution
    obtain ⟨x, _, _, forced, exact⟩ := define b (solutionExact.mp old).1
    cases forced y mem satisfied
    exact exact ρ reads

theorem targetSettled {lo hi : Int64} {c : Constraint} (proper : m.Proper) (le : lo ≤ hi)
    (owned : ∀ g ∈ (Posted.mk c none).handles,
      (m.extended ⟨⟨[⟨lo, hi⟩]⟩, ""⟩ [⟨c, none⟩]).Owns g) (next : m.Next h)
    (define : ∀ a, m.Admits a → ∃ x, (lo.toInt ≤ x.toInt ∧ x.toInt ≤ hi.toInt) ∧
      (∀ y, (a.push y).value h = .ok y → c.holds (a.push y) = .ok (y == x)) ∧
      ∀ ρ : Reading, ρ.Reads a → ρ.value h = x.toInt → Q ρ) :
    Settled m (m.extended ⟨⟨[⟨lo, hi⟩]⟩, ""⟩ [⟨c, none⟩]) Q := by
  have value : ∀ a, m.Admits a → ∀ y, (a.push y).value h = .ok y := fun a admits y =>
    freshValue (next.place.trans (admitsLength admits).symm) next.sign
  refine settledExtended proper (properExtended proper (.single le) (by simp)
    (List.forall_mem_singleton.mpr owned)) ?_ ?_
  · intro a y admits _
    obtain ⟨x, _, holds, _⟩ := define a admits
    exact List.forall_mem_singleton.mpr ⟨_, holds y (value a admits y)⟩
  intro a admits
  obtain ⟨x, between, holds, exact⟩ := define a admits
  have posted : ∀ y, (∀ p ∈ [Posted.mk c none], p.isSatisfied (a.push y) = .ok true) ↔ y = x := by
    intro y
    rw [List.forall_mem_singleton]
    change c.holds (a.push y) = _ ↔ _
    rw [holds y (value a admits y), Except.ok.injEq, beq_iff_eq]
  exact ⟨x, ⟨_, List.mem_singleton_self _, Interval.memExact.mpr between⟩, (posted x).mpr rfl,
    fun y _ => (posted y).mp, fun ρ reads => exact ρ reads.ofPush (reads h x (value a admits x))⟩

theorem reifyOk {holds fails : Constraint} (ok : reify holds fails m = .ok b n) :
    ∃ c, b.negate = .ok c ∧
      n = m.extended ⟨⟨[⟨0, 1⟩]⟩, ""⟩ [⟨holds, some b⟩, ⟨fails, some c⟩] ∧
      (∀ p ∈ [Posted.mk holds (some b), ⟨fails, some c⟩], ∀ h ∈ p.handles, n.Owns h) ∧
      (n.Small → m.Next b) := by
  simp only [reify, newBool, addIf, runBind, runLift, runPure] at ok
  obtain ⟨_, _, made, _, _, first, c, _, ⟨negated, rfl⟩, _, _, second, rfl, rfl⟩ := ok
  obtain ⟨_, rfl, latest⟩ := newIntOk made
  obtain ⟨rfl, firstOwned⟩ := postOk first
  obtain ⟨rfl, secondOwned⟩ := postOk second
  refine ⟨c, negated, by simp [extended], by simpa using ⟨firstOwned, secondOwned⟩, latest⟩

theorem bitCases (mem : x ∈ Domain.mk [⟨0, 1⟩]) : x = 0 ∨ x = 1 := by
  simp only [Domain.memExact, List.mem_singleton, exists_eq_left, Interval.memExact] at mem
  simp only [← Int64.toInt_inj]
  have := Int64.toInt_zero
  have := Int64.toInt_one
  omega

theorem reifiedSatisfied {a : Assignment} {holds fails : Constraint} {b c : Handle} {y : Int64}
    {t : Bool} (negated : b.negate = .ok c) (value : a.value b = .ok y) (bit : y = 0 ∨ y = 1)
    (hold : holds.holds a = .ok t) (fail : fails.holds a = .ok (!t)) :
    (Posted.mk holds (some b)).isSatisfied a = .ok (y == 0 || t) ∧
      (Posted.mk fails (some c)).isSatisfied a = .ok (y == 1 || !t) := by
  have opposite : a.value c = .ok (if y = 1 then 0 else 1) :=
    (negateValue negated value).mpr (by rcases bit with rfl | rfl <;> rfl)
  simp only [Posted.isSatisfied, isTrueOk value, isTrueOk opposite, hold, fail, bind, Except.bind,
    pure, Except.pure]
  rcases bit with rfl | rfl <;> exact ⟨rfl, rfl⟩

theorem reifySettled {holds fails : Constraint} (proper : m.Proper) (small : n.Small)
    (ok : reify holds fails m = .ok b n)
    (decides : ∀ a, m.Admits a → ∃ t : Bool, (∀ x, holds.holds (a.push x) = .ok t) ∧
      (∀ x, fails.holds (a.push x) = .ok (!t)) ∧ ∀ ρ : Reading, ρ.Reads a → (P ρ ↔ t = true)) :
    Settled m n fun ρ => Marks (ρ.value b) (P ρ) := by
  obtain ⟨c, negated, rfl, owned, next⟩ := reifyOk ok
  have value : ∀ a, m.Admits a → ∀ y, (a.push y).value b = .ok y := fun a admits y =>
    freshValue ((next small).place.trans (admitsLength admits).symm) (next small).sign
  refine settledExtended proper (properExtended proper (.single (by decide)) (by simp) owned) ?_ ?_
  · intro a y admits mem
    obtain ⟨t, hold, fail, _⟩ := decides a admits
    obtain ⟨first, second⟩ :=
      reifiedSatisfied negated (value a admits y) (bitCases mem) (hold y) (fail y)
    exact List.forall_mem_cons.mpr ⟨⟨_, first⟩, List.forall_mem_singleton.mpr ⟨_, second⟩⟩
  intro a admits
  obtain ⟨t, hold, fail, states⟩ := decides a admits
  -- The bit that agrees with the relation satisfies both constraints, the other one does not.
  have satisfied : ∀ y, (y = 0 ∨ y = 1) → ((∀ p ∈ [Posted.mk holds (some b), ⟨fails, some c⟩],
      p.isSatisfied (a.push y) = .ok true) ↔ y = if t then 1 else 0) := by
    intro y bit
    obtain ⟨first, second⟩ := reifiedSatisfied negated (value a admits y) bit (hold y) (fail y)
    rw [List.forall_mem_cons, List.forall_mem_singleton, first, second]
    rcases bit with rfl | rfl <;> cases t <;> simp
  have bit : (if t then 1 else 0 : Int64) = 0 ∨ (if t then 1 else 0 : Int64) = 1 := by
    cases t <;> simp
  refine ⟨if t then 1 else 0, Domain.containsExact.mp (by cases t <;> rfl),
    (satisfied _ bit).mpr rfl, fun y mem all => (satisfied y (bitCases mem)).mp all, ?_⟩
  intro ρ reads
  rw [reads b _ (value a admits _)]
  have states := states ρ reads.ofPush
  cases t
  · exact marksTruth (b := false) states
  · exact marksTruth (b := true) states

theorem newConstantSettled (proper : m.Proper) (small : n.Small)
    (ok : newConstant x m = .ok h n) : Settled m n fun ρ => ρ.value h = x.toInt := by
  obtain ⟨le, rfl, next⟩ := newIntOk ok
  have properNext : (m.extended ⟨⟨[⟨x, x⟩]⟩, ""⟩ []).Proper :=
    properExtended proper (.single le) (by simp) (by simp)
  refine settledExtended proper properNext (by simp) fun a admits => ⟨x, ?_, by simp, ?_, ?_⟩
  · exact Domain.constantExact.mpr rfl
  · exact fun y mem _ => Domain.constantExact.mp mem
  · intro ρ reads
    have place := (next small).place.trans (admitsLength admits).symm
    exact reads h x (freshValue place (next small).sign)

def Constant (m : Model) (h : Handle) (x : Int64) : Prop :=
  h.isNegated = false ∧ ∃ name, m.vars[h.index]? = some ⟨.constant x, name⟩

theorem Constant.later (constant : m.Constant h x) (le : m ≤ n) : n.Constant h x := by
  obtain ⟨sign, name, found⟩ := constant
  exact ⟨sign, name, varOfLe le found⟩

theorem Constant.value (constant : m.Constant h x) (admits : m.Admits a) : a.value h = .ok x := by
  obtain ⟨sign, name, found⟩ := constant
  obtain ⟨y, value, mem⟩ := admittedAt admits found
  exact valueOk.mpr ⟨y, value, by simpa [sign] using (Domain.constantExact.mp mem).symm⟩

end Model

namespace Layer

variable {ops : Layer} {m n : Model} {a : Assignment} {ρ : Reading} {h l r b : Handle} {c x : Int64}

structure In (ops : Layer) (m : Model) : Prop where
  isTrue : m.Constant ops.trueVar 1
  isFalse : m.Constant ops.falseVar 0

theorem In.later (inside : ops.In m) (le : m ≤ n) : ops.In n :=
  ⟨inside.isTrue.later le, inside.isFalse.later le⟩

theorem In.value (inside : ops.In m) (solution : m.Solution a) (reads : ρ.Reads a) (b : Bool) :
    ρ.value (ops.constant b) = Relation.truth b := by
  have admits := (Model.solutionExact.mp solution).1
  cases b
  · exact reads _ _ (inside.isFalse.value admits)
  · exact reads _ _ (inside.isTrue.value admits)

theorem In.marks (inside : ops.In m) (solution : m.Solution a) (reads : ρ.Reads a) {b : Bool}
    {p : Prop} (same : p ↔ b = true) : Marks (ρ.value (ops.constant b)) p := by
  rw [inside.value solution reads]
  exact marksTruth same

open Model

theorem In.settled (inside : ops.In m) (proper : m.Proper) {t : Bool} {P : Reading → Prop}
    (same : ∀ a ρ, m.Admits a → ρ.Reads a → (P ρ ↔ t = true)) :
    Settled m m fun ρ => Marks (ρ.value (ops.constant t)) (P ρ) :=
  settledSame proper fun a ρ solution reads =>
    inside.marks solution reads (same a ρ (solutionExact.mp solution).1 reads)

theorem compareConstCases {rel : Relation} (ok : ops.compareConst rel h c m = .ok b n) :
    ∃ range, m.bounds h = .ok range ∧
      ((∃ t, rel.decided range (.point c) = some t ∧ b = ops.constant t ∧ m = n) ∨
        rel.decided range (.point c) = none ∧
          reify (.compare h rel (.const c)) (.compare h rel.negate (.const c)) m = .ok b n) := by
  simp only [compareConst, runBind, runAsk] at ok
  obtain ⟨range, _, ⟨known, rfl⟩, ok⟩ := ok
  refine ⟨range, known, ?_⟩
  cases decided : rel.decided range (.point c) with
  | some t =>
    rw [decided] at ok
    obtain ⟨rfl, rfl⟩ := runPure.mp ok
    exact .inl ⟨t, rfl, rfl, rfl⟩
  | none =>
    rw [decided] at ok
    exact .inr ⟨rfl, ok⟩

theorem compareConstSettled {rel : Relation} (proper : m.Proper) (inside : ops.In m)
    (small : n.Small) (ok : ops.compareConst rel h c m = .ok b n) :
    Settled m n fun ρ => Marks (ρ.value b) (rel.Holds (ρ.value h) c.toInt) := by
  obtain ⟨range, known, ⟨t, decided, rfl, rfl⟩ | ⟨_, ok⟩⟩ := compareConstCases ok
  · refine inside.settled proper fun a ρ admits reads => ?_
    obtain ⟨x, value, mem⟩ := boundsExact proper admits known
    rw [reads h x value]
    exact Relation.decidedExact decided mem (Interval.memPoint.mpr rfl)
  · refine reifySettled proper small ok fun a admits => ?_
    obtain ⟨x, value, _⟩ := boundsExact proper admits known
    refine ⟨rel.holds x c, fun y => compareHolds (pushValue value) rfl, fun y => ?_,
      fun ρ reads => ?_⟩
    · rw [compareHolds (pushValue value) rfl, Relation.holdsNegate]
    · rw [reads h x value, Relation.holdsWords]

theorem compareVarsCases {rel : Relation} (ok : ops.compareVars rel l r m = .ok b n) :
    (l = r ∧ b = ops.constant (rel.accepts .eq) ∧ m = n) ∨
      l ≠ r ∧ ∃ left right, m.bounds l = .ok left ∧ m.bounds r = .ok right ∧
        ((∃ t, rel.decided left right = some t ∧ b = ops.constant t ∧ m = n) ∨
          rel.decided left right = none ∧
            reify (.compare l rel (.var r)) (.compare l rel.negate (.var r)) m = .ok b n) := by
  rw [compareVars] at ok
  split at ok
  · obtain ⟨rfl, rfl⟩ := runPure.mp ok
    exact .inl ⟨by assumption, rfl, rfl⟩
  rename_i different
  simp only [runBind, runAsk] at ok
  obtain ⟨left, _, ⟨knownLeft, rfl⟩, right, _, ⟨knownRight, rfl⟩, ok⟩ := ok
  refine .inr ⟨different, left, right, knownLeft, knownRight, ?_⟩
  cases decided : rel.decided left right with
  | some t =>
    rw [decided] at ok
    obtain ⟨rfl, rfl⟩ := runPure.mp ok
    exact .inl ⟨t, rfl, rfl, rfl⟩
  | none =>
    rw [decided] at ok
    exact .inr ⟨rfl, ok⟩

theorem compareVarsSettled {rel : Relation} (proper : m.Proper) (inside : ops.In m)
    (small : n.Small) (ok : ops.compareVars rel l r m = .ok b n) :
    Settled m n fun ρ => Marks (ρ.value b) (rel.Holds (ρ.value l) (ρ.value r)) := by
  obtain ⟨rfl, rfl, rfl⟩ | ⟨_, left, right, knownLeft, knownRight, decided | ⟨_, ok⟩⟩ :=
    compareVarsCases ok
  · refine inside.settled proper fun a ρ _ _ => ?_
    rw [← Relation.acceptsInt, compare_eq_iff_eq.mpr rfl]
  · obtain ⟨t, decided, rfl, rfl⟩ := decided
    refine inside.settled proper fun a ρ admits reads => ?_
    obtain ⟨x, hx, memX⟩ := boundsExact proper admits knownLeft
    obtain ⟨y, hy, memY⟩ := boundsExact proper admits knownRight
    rw [reads l x hx, reads r y hy]
    exact Relation.decidedExact decided memX memY
  · refine reifySettled proper small ok fun a admits => ?_
    obtain ⟨x, hx, _⟩ := boundsExact proper admits knownLeft
    obtain ⟨y, hy, _⟩ := boundsExact proper admits knownRight
    have term : ∀ z, (a.push z).term (.var r) = .ok y := fun z => pushValue hy
    refine ⟨rel.holds x y, fun z => compareHolds (pushValue hx) (term z), fun z => ?_,
      fun ρ reads => ?_⟩
    · rw [compareHolds (pushValue hx) (term z), Relation.holdsNegate]
    · rw [reads l x hx, reads r y hy, Relation.holdsWords]

end Layer

end ConstraintAlgebra
