import ConstraintAlgebra.Model
import ConstraintAlgebra.Proofs.Evaluation
import ConstraintAlgebra.Proofs.Outcomes

/-! Models that grow. A later model keeps every variable and constraint of an earlier one, so its
solutions restrict to solutions; it refines the earlier one when the solutions with some property
extend, each in one way, and no others do. -/
namespace ConstraintAlgebra

def Assignment.restrict (a : Assignment) (n : Nat) : Assignment := ⟨a.values.take n⟩

namespace Model

instance : LE Model := ⟨fun m n => m.vars <+: n.vars ∧ m.constraints <+: n.constraints⟩

def Small (m : Model) : Prop := m.vars.length < 2 ^ 31

instance (m : Model) : Decidable m.Small := inferInstanceAs (Decidable (_ < _))

def Owns (m : Model) (h : Handle) : Prop := h.index < m.vars.length

structure Proper (m : Model) : Prop where
  canonical : ∀ v ∈ m.vars, v.domain.Canonical
  inhabited : ∀ v ∈ m.vars, v.domain.intervals ≠ []
  owned : ∀ p ∈ m.constraints, ∀ h ∈ p.handles, m.Owns h

def Admits (m : Model) (a : Assignment) : Prop :=
  List.Forall₂ (fun v x => x ∈ v.domain) m.vars a.values

def Solution (m : Model) (a : Assignment) : Prop := m.check a = .ok true

def Evaluates (m : Model) : Prop :=
  ∀ a, m.Admits a → ∀ p ∈ m.constraints, p.isSatisfied a ≠ .error .overflow

variable {m n k : Model} {a b : Assignment} {h : Handle} {x y : Int64}

theorem leRefl (m : Model) : m ≤ m := ⟨List.prefix_rfl, List.prefix_rfl⟩

theorem leTrans (first : m ≤ n) (second : n ≤ k) : m ≤ k :=
  ⟨first.1.trans second.1, first.2.trans second.2⟩

theorem leVars (le : m ≤ n) : m.vars.length ≤ n.vars.length := le.1.length_le

theorem smallOfLe (le : m ≤ n) (small : n.Small) : m.Small := (leVars le).trans_lt small

theorem varOfLe (le : m ≤ n) {i : Nat} {v : Variable} (found : m.vars[i]? = some v) :
    n.vars[i]? = some v := by
  obtain ⟨rest, same⟩ := le.1
  rw [← same, List.getElem?_append_left (List.getElem?_eq_some_iff.mp found).1, found]

theorem solutionExact :
    m.Solution a ↔ m.Admits a ∧ ∀ p ∈ m.constraints, p.isSatisfied a = .ok true := by
  rw [Solution, check, Admits, List.forall₂_iff_zip]
  by_cases size : a.size = m.vars.length
  · rw [if_neg (not_not.mpr size)]
    split
    next all =>
      simp only [List.all_eq_true, Domain.containsExact, Prod.forall] at all
      rw [allMOk]
      exact ⟨fun sat => ⟨⟨size.symm, all _ _⟩, sat⟩, fun sat => sat.2⟩
    next outside =>
      simp only [List.all_eq_true, Domain.containsExact, Prod.forall] at outside
      exact iff_of_false (by simp) fun sat => outside fun _ _ => sat.1.2
  · rw [if_pos size]
    exact iff_of_false (by simp) fun sat => size sat.1.1.symm

theorem admitsLength (admits : m.Admits a) : a.values.length = m.vars.length :=
  admits.length_eq.symm

end Model

section Restrict

variable {a : Assignment} {h : Handle} {x y : Int64} {ρ : Reading}

theorem restrictValue {n : Nat} (inside : h.index < n) : (a.restrict n).value h = a.value h :=
  valueCongr (List.getElem?_take_of_lt inside)

theorem valueOfRestrict {n : Nat} (value : (a.restrict n).value h = .ok x) : a.value h = .ok x := by
  obtain ⟨v, found, rest⟩ := valueOk.mp value
  simp only [Assignment.restrict, List.getElem?_take, Option.ite_none_right_eq_some] at found
  exact valueOk.mpr ⟨v, found.2, rest⟩

theorem Reading.Reads.restrict (reads : ρ.Reads a) (n : Nat) : ρ.Reads (a.restrict n) :=
  fun h x value => reads h x (valueOfRestrict value)

theorem restrictPush : (a.push x).restrict a.values.length = a := by
  simp [Assignment.push, Assignment.restrict]

theorem pushValue (value : a.value h = .ok x) : (a.push y).value h = .ok x := by
  rw [← restrictPush (a := a) (x := y)] at value
  exact valueOfRestrict value

theorem freshValue (place : h.index = a.values.length) (sign : h.isNegated = false) :
    (a.push x).value h = .ok x :=
  valueOk.mpr ⟨x, by simp [Assignment.push, place], by simp [sign]⟩

theorem Reading.Reads.ofPush (reads : ρ.Reads (a.push x)) : ρ.Reads a :=
  fun h y value => reads h y (pushValue value)

end Restrict

namespace Model

variable {m n k : Model} {a b : Assignment} {P Q : Assignment → Prop}

theorem admitsAppend {vs : List Variable} {xs ys : List Int64} (length : xs.length = m.vars.length) :
    List.Forall₂ (fun (v : Variable) x => x ∈ v.domain) (m.vars ++ vs) (xs ++ ys) ↔
      m.Admits ⟨xs⟩ ∧ List.Forall₂ (fun (v : Variable) x => x ∈ v.domain) vs ys := by
  constructor
  · intro both
    have first := List.forall₂_take_append _ xs ys both
    have second := List.forall₂_drop_append _ xs ys both
    rw [length, List.take_left] at first
    rw [length, List.drop_left] at second
    exact ⟨first, second⟩
  · exact fun both => List.rel_append both.1 both.2

theorem Admits.restrict (le : m ≤ n) (admits : n.Admits a) : m.Admits (a.restrict m.vars.length) := by
  obtain ⟨rest, same⟩ := le.1
  rw [Admits, ← same] at admits
  have length := admits.length_eq
  rw [← List.take_append_drop m.vars.length a.values] at admits
  refine ((admitsAppend ?_).mp admits).1
  simp only [List.length_append] at length
  rw [List.length_take]
  omega

theorem Solution.restrict (proper : m.Proper) (le : m ≤ n) (solution : n.Solution a) :
    m.Solution (a.restrict m.vars.length) := by
  obtain ⟨admits, satisfied⟩ := solutionExact.mp solution
  refine solutionExact.mpr ⟨admits.restrict le, fun p hp => ?_⟩
  rw [isSatisfiedCongr fun h hh => restrictValue (proper.owned p hp h hh)]
  exact satisfied p (le.2.subset hp)

/-- The solutions of the later model are the solutions of the earlier one that have the property,
each with exactly one choice of the new values. -/
structure Refined (m n : Model) (P : Assignment → Prop) : Prop where
  le : m ≤ n
  sound : ∀ a, n.Solution a → P (a.restrict m.vars.length)
  complete : ∀ a, m.Solution a → P a → ∃ b, n.Solution b ∧ b.restrict m.vars.length = a
  unique : ∀ a b, n.Solution a → n.Solution b →
    a.restrict m.vars.length = b.restrict m.vars.length → a = b

def Conservative (m n : Model) : Prop := m.Refined n fun _ => True

theorem restrictAll (solution : m.Solution a) : a.restrict m.vars.length = a := by
  rw [Assignment.restrict, ← admitsLength (solutionExact.mp solution).1, List.take_length]

theorem conservativeRefl (m : Model) : m.Conservative m :=
  ⟨leRefl m, fun _ _ => trivial, fun a solution _ => ⟨a, solution, restrictAll solution⟩,
    fun a b ha hb same => by rwa [restrictAll ha, restrictAll hb] at same⟩

theorem restrictRestrict (le : m ≤ n) :
    (a.restrict n.vars.length).restrict m.vars.length = a.restrict m.vars.length := by
  simp only [Assignment.restrict, List.take_take, min_eq_left (leVars le)]

theorem Refined.trans (proper : n.Proper) (first : m.Refined n P) (second : n.Refined k Q)
    {R : Assignment → Prop}
    (joint : ∀ a, n.Solution a → (R (a.restrict m.vars.length) ↔
      P (a.restrict m.vars.length) ∧ Q a))
    (only : ∀ a, m.Solution a → R a → P a) : m.Refined k R where
  le := leTrans first.le second.le
  sound a solution := by
    have middle := solution.restrict proper second.le
    rw [← restrictRestrict first.le]
    exact (joint _ middle).mpr ⟨first.sound _ middle, second.sound a solution⟩
  complete a solution hR := by
    obtain ⟨b, hb, rfl⟩ := first.complete a solution (only a solution hR)
    obtain ⟨c, hc, rfl⟩ := second.complete b hb ((joint b hb).mp hR).2
    exact ⟨c, hc, (restrictRestrict first.le).symm⟩
  unique a b ha hb same := by
    refine second.unique a b ha hb (first.unique _ _ (ha.restrict proper second.le)
      (hb.restrict proper second.le) ?_)
    rwa [restrictRestrict first.le, restrictRestrict first.le]

theorem Conservative.trans (proper : n.Proper) (first : m.Conservative n)
    (second : n.Conservative k) : m.Conservative k :=
  Refined.trans proper first second (by simp) (by simp)

theorem Refined.restricted (refined : m.Refined n P) (proper : m.Proper) :
    (·.restrict m.vars.length) '' {b | n.Solution b} = {a | m.Solution a ∧ P a} := by
  ext a
  constructor
  · rintro ⟨b, solution, rfl⟩
    exact ⟨Solution.restrict proper refined.le solution, refined.sound b solution⟩
  · exact fun ⟨solution, holds⟩ => refined.complete a solution holds

theorem Refined.count (refined : m.Refined n P) (proper : m.Proper) :
    {b | n.Solution b}.encard = {a | m.Solution a ∧ P a}.encard := by
  rw [← refined.restricted proper]
  exact (Set.InjOn.encard_image fun a ha b hb same => refined.unique a b ha hb same).symm

theorem Conservative.extends (conservative : m.Conservative n) (solution : m.Solution a) :
    ∃! b, n.Solution b ∧ b.restrict m.vars.length = a := by
  obtain ⟨b, extension, same⟩ := conservative.complete a solution trivial
  refine ⟨b, ⟨extension, same⟩, fun c other => ?_⟩
  exact conservative.unique c b other.1 extension (other.2.trans same.symm)

def extended (m : Model) (v : Variable) (ps : List Posted) : Model :=
  ⟨m.vars ++ [v], m.constraints ++ ps⟩

theorem leExtended (m : Model) (v : Variable) (ps : List Posted) : m ≤ m.extended v ps :=
  ⟨List.prefix_append _ _, List.prefix_append _ _⟩

theorem splitLast {v : Variable} {ps : List Posted} (admits : (m.extended v ps).Admits a) :
    ∃ (b : Assignment) (x : Int64), a = b.push x ∧ b.values.length = m.vars.length := by
  have length := admitsLength admits
  simp only [extended, List.length_append, List.length_singleton] at length
  obtain ⟨xs⟩ := a
  rcases List.eq_nil_or_concat xs with rfl | ⟨xs, x, rfl⟩
  · simp at length
  · refine ⟨Assignment.mk xs, x, ?_, by simpa using length⟩
    rw [Assignment.push, List.concat_eq_append]

theorem extendedAdmits {v : Variable} {ps : List Posted} {x : Int64}
    (length : a.values.length = m.vars.length) :
    (m.extended v ps).Admits (a.push x) ↔ m.Admits a ∧ x ∈ v.domain := by
  rw [Admits, extended, Assignment.push, admitsAppend length, List.forall₂_cons,
    List.forall₂_nil_right_iff]
  simp only [and_true]

theorem pushSatisfied (proper : m.Proper) (length : a.values.length = m.vars.length) {x : Int64}
    {p : Posted} (mem : p ∈ m.constraints) : p.isSatisfied (a.push x) = p.isSatisfied a :=
  isSatisfiedCongr fun h hh => valueCongr <|
    List.getElem?_append_left (length ▸ proper.owned p mem h hh)

theorem extendedSolution (proper : m.Proper) {v : Variable} {ps : List Posted} {x : Int64}
    (length : a.values.length = m.vars.length) : (m.extended v ps).Solution (a.push x) ↔
      m.Solution a ∧ x ∈ v.domain ∧ ∀ p ∈ ps, p.isSatisfied (a.push x) = .ok true := by
  rw [solutionExact, extendedAdmits length, solutionExact]
  simp only [extended, List.forall_mem_append]
  have old : (∀ p ∈ m.constraints, p.isSatisfied (a.push x) = .ok true) ↔
      ∀ p ∈ m.constraints, p.isSatisfied a = .ok true :=
    forall₂_congr fun p mem => by rw [pushSatisfied proper length mem]
  rw [old]
  tauto

theorem extendedEvaluates (proper : m.Proper) (evaluates : m.Evaluates) {v : Variable}
    {ps : List Posted} (new : ∀ a x, m.Admits a → x ∈ v.domain →
      ∀ p ∈ ps, ∃ b, p.isSatisfied (a.push x) = .ok b) : (m.extended v ps).Evaluates := by
  intro a admits p mem
  obtain ⟨b, x, rfl, length⟩ := splitLast admits
  obtain ⟨old, inside⟩ := (extendedAdmits length).mp admits
  rcases List.mem_append.mp mem with before | added
  · rw [pushSatisfied proper length before]
    exact evaluates b old p before
  · obtain ⟨t, decided⟩ := new b x old inside p added
    rw [decided]
    exact nofun

theorem extendedRefined (proper : m.Proper) {v : Variable} {ps : List Posted}
    (existence : ∀ a, m.Solution a → P a →
      ∃ x ∈ v.domain, ∀ p ∈ ps, p.isSatisfied (a.push x) = .ok true)
    (only : ∀ a x, m.Solution a → x ∈ v.domain →
      (∀ p ∈ ps, p.isSatisfied (a.push x) = .ok true) → P a)
    (unique : ∀ a x y, m.Solution a → x ∈ v.domain →
      (∀ p ∈ ps, p.isSatisfied (a.push x) = .ok true) → y ∈ v.domain →
      (∀ p ∈ ps, p.isSatisfied (a.push y) = .ok true) → x = y) : m.Refined (m.extended v ps) P where
  le := leExtended m v ps
  sound a solution := by
    obtain ⟨b, x, rfl, length⟩ := splitLast (solutionExact.mp solution).1
    obtain ⟨old, mem, new⟩ := (extendedSolution proper length).mp solution
    rw [← length, restrictPush]
    exact only b x old mem new
  complete a solution hP := by
    have length := admitsLength (solutionExact.mp solution).1
    obtain ⟨x, mem, new⟩ := existence a solution hP
    refine ⟨a.push x, (extendedSolution proper length).mpr ⟨solution, mem, new⟩, ?_⟩
    rw [← length, restrictPush]
  unique a b ha hb same := by
    obtain ⟨a, x, rfl, length⟩ := splitLast (solutionExact.mp ha).1
    obtain ⟨b, y, rfl, other⟩ := splitLast (solutionExact.mp hb).1
    rw [← length, restrictPush, length, ← other, restrictPush] at same
    subst same
    obtain ⟨old, left, satisfied⟩ := (extendedSolution proper length).mp ha
    obtain ⟨_, right, others⟩ := (extendedSolution proper length).mp hb
    rw [unique a x y old left satisfied right others]

def posted (m : Model) (q : Posted) : Model := ⟨m.vars, m.constraints ++ [q]⟩

theorem lePosted (m : Model) (q : Posted) : m ≤ m.posted q :=
  ⟨List.prefix_rfl, List.prefix_append _ _⟩

theorem postedSolution {q : Posted} :
    (m.posted q).Solution a ↔ m.Solution a ∧ q.isSatisfied a = .ok true := by
  simp only [solutionExact, posted, Admits, List.forall_mem_append, List.forall_mem_singleton,
    and_assoc]

theorem postedRefined (m : Model) (q : Posted) :
    m.Refined (m.posted q) fun a => q.isSatisfied a = .ok true where
  le := lePosted m q
  sound a solution := by
    obtain ⟨old, satisfied⟩ := postedSolution.mp solution
    rwa [restrictAll old]
  complete a solution satisfied :=
    ⟨a, postedSolution.mpr ⟨solution, satisfied⟩, restrictAll solution⟩
  unique a b ha hb same := by
    rwa [restrictAll (postedSolution.mp ha).1, restrictAll (postedSolution.mp hb).1] at same

theorem postedProper (proper : m.Proper) {q : Posted} (owned : ∀ h ∈ q.handles, m.Owns h) :
    (m.posted q).Proper :=
  ⟨proper.canonical, proper.inhabited,
    List.forall_mem_append.mpr ⟨proper.owned, List.forall_mem_singleton.mpr owned⟩⟩

theorem postedEvaluates (evaluates : m.Evaluates) {q : Posted}
    (decided : ∀ a, m.Admits a → ∃ t, q.isSatisfied a = .ok t) : (m.posted q).Evaluates := by
  intro a admits p mem
  rcases List.mem_append.mp mem with before | added
  · exact evaluates a admits p before
  · obtain ⟨t, satisfied⟩ := decided a admits
    rw [List.mem_singleton.mp added, satisfied]
    exact nofun

end Model

end ConstraintAlgebra
