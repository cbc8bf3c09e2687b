import ConstraintAlgebra.Layer
import ConstraintAlgebra.Proofs.Extension

/-! Variables of a model: the values that their handles can take, new variables, constraints posted
on them and what these read, and the constants of a layer. -/
namespace ConstraintAlgebra.Model

variable {m n : Model} {a : Assignment} {ρ : Reading} {h : Handle} {x : Int64}

theorem lookupOk {v : VarId} {found : Variable} :
    m.lookup v = .ok found ↔ m.vars[v.index]? = some found := by
  rw [lookup]
  cases m.vars[v.index]? <;> simp

theorem variableDomainOk {d : Domain} : m.variableDomain h = .ok d ↔
    ∃ v, m.vars[h.index]? = some v ∧ v.domain = d := by
  simp only [variableDomain, bindOk, pureOk, lookupOk]
  rfl

theorem ownsOfFound {v : Variable} (found : m.vars[h.index]? = some v) : m.Owns h :=
  (List.getElem?_eq_some_iff.mp found).1

theorem Proper.valued (proper : m.Proper) {v : Variable} (mem : v ∈ m.vars) : ∃ x, x ∈ v.domain :=
  Domain.memberExists (proper.canonical v mem) (proper.inhabited v mem)

theorem admittedAt (admits : m.Admits a) {i : Nat} {v : Variable} (found : m.vars[i]? = some v) :
    ∃ x, a.values[i]? = some x ∧ x ∈ v.domain := relatedAt admits found

theorem boundsOk {range : Interval} : m.bounds h = .ok range ↔
    ∃ v lo hi, m.vars[h.index]? = some v ∧ v.domain.min = .ok lo ∧ v.domain.max = .ok hi ∧
      if h.isNegated then range.lo.toInt = 1 - hi.toInt ∧ range.hi.toInt = 1 - lo.toInt
      else range = ⟨lo, hi⟩ := by
  simp only [bounds, bindOk, variableDomainOk]
  split
  · simp only [bindOk, pureOk, complementExact]
    constructor
    · rintro ⟨_, ⟨v, found, rfl⟩, hi, most, lo', below, lo, least, hi', above, rfl⟩
      exact ⟨v, lo, hi, found, least, most, below, above⟩
    · rintro ⟨v, lo, hi, found, least, most, below, above⟩
      exact ⟨_, ⟨v, found, rfl⟩, hi, most, _, below, lo, least, _, above, rfl⟩
  · simp only [bindOk, pureOk]
    constructor
    · rintro ⟨_, ⟨v, found, rfl⟩, lo, least, hi, most, rfl⟩
      exact ⟨v, lo, hi, found, least, most, rfl⟩
    · rintro ⟨v, lo, hi, found, least, most, rfl⟩
      exact ⟨_, ⟨v, found, rfl⟩, lo, least, hi, most, rfl⟩

theorem boundsOwned {range : Interval} (ok : m.bounds h = .ok range) : m.Owns h := by
  obtain ⟨v, _, _, found, _⟩ := boundsOk.mp ok
  exact ownsOfFound found

theorem boundsExact (proper : m.Proper) (admits : m.Admits a) {range : Interval}
    (ok : m.bounds h = .ok range) : ∃ x, a.value h = .ok x ∧ x ∈ range := by
  obtain ⟨v, lo, hi, found, least, most, ends⟩ := boundsOk.mp ok
  have canonical := proper.canonical v (List.mem_of_getElem? found)
  obtain ⟨y, value, mem⟩ := admittedAt admits found
  have below := (Domain.minExact canonical least).2 y mem
  have above := (Domain.maxExact canonical most).2 y mem
  simp only [valueOk, value, Option.some.injEq, exists_eq_left']
  split at ends
  · rename_i negated
    obtain ⟨x, image⟩ := wordBetween (show range.lo.toInt ≤ 1 - y.toInt by omega)
      (show 1 - y.toInt ≤ range.hi.toInt by omega)
    exact ⟨x, by simpa [negated] using image, Interval.memExact.mpr ⟨by omega, by omega⟩⟩
  · rename_i positive
    subst ends
    exact ⟨y, by simp [positive], Interval.memExact.mpr ⟨below, above⟩⟩

theorem domainOk {d : Domain} : m.domain h = .ok d ↔ ∃ v, m.vars[h.index]? = some v ∧
    if h.isNegated then v.domain.negateBoolean = .ok d else v.domain = d := by
  simp only [domain, bindOk, variableDomainOk]
  split
  · constructor
    · rintro ⟨_, ⟨v, found, rfl⟩, negated⟩
      exact ⟨v, found, negated⟩
    · rintro ⟨v, found, negated⟩
      exact ⟨_, ⟨v, found, rfl⟩, negated⟩
  · constructor
    · rintro ⟨_, ⟨v, found, rfl⟩, same⟩
      exact ⟨v, found, pureOk.mp same⟩
    · rintro ⟨v, found, same⟩
      exact ⟨_, ⟨v, found, rfl⟩, pureOk.mpr same⟩

theorem domainOwned {d : Domain} (ok : m.domain h = .ok d) : m.Owns h := by
  obtain ⟨v, found, _⟩ := domainOk.mp ok
  exact ownsOfFound found

theorem domainValues {d : Domain} (ok : m.domain h = .ok d) : ∃ v, m.vars[h.index]? = some v ∧
    (∀ y ∈ v.domain, ∃ x ∈ d, if h.isNegated then x.toInt = 1 - y.toInt else x = y) ∧
      ∀ x ∈ d, ∃ y ∈ v.domain, if h.isNegated then x.toInt = 1 - y.toInt else x = y := by
  obtain ⟨v, found, values⟩ := domainOk.mp ok
  refine ⟨v, found, ?_⟩
  split at values
  case isTrue negated =>
    simp only [if_pos negated]
    refine ⟨fun y mem => ?_, fun x mem => (Domain.negateBooleanExact values).mp mem⟩
    obtain ⟨x, image⟩ := Domain.negateBooleanTotal values mem
    have exact := complementExact.mp image
    exact ⟨x, (Domain.negateBooleanExact values).mpr ⟨y, mem, exact⟩, exact⟩
  case isFalse positive =>
    simp only [if_neg positive, ← values]
    exact ⟨fun y mem => ⟨y, mem, rfl⟩, fun x mem => ⟨x, mem, rfl⟩⟩

theorem domainExact (admits : m.Admits a) {d : Domain} (ok : m.domain h = .ok d) :
    ∃ x, a.value h = .ok x ∧ x ∈ d := by
  obtain ⟨v, found, images, _⟩ := domainValues ok
  obtain ⟨y, value, mem⟩ := admittedAt admits found
  obtain ⟨x, inside, image⟩ := images y mem
  exact ⟨x, valueOk.mpr ⟨y, value, image⟩, inside⟩

theorem domainCanonical (proper : m.Proper) {d : Domain} (ok : m.domain h = .ok d) :
    d.Canonical := by
  obtain ⟨v, found, values⟩ := domainOk.mp ok
  split at values
  · exact Domain.negateBooleanCanonical values
  · exact values ▸ proper.canonical v (List.mem_of_getElem? found)

theorem domainInhabited (proper : m.Proper) {d : Domain} (ok : m.domain h = .ok d) : ∃ x, x ∈ d := by
  obtain ⟨v, found, images, _⟩ := domainValues ok
  obtain ⟨y, mem⟩ := proper.valued (List.mem_of_getElem? found)
  obtain ⟨x, inside, _⟩ := images y mem
  exact ⟨x, inside⟩

theorem boundsDomain (proper : m.Proper) {range : Interval} (ok : m.bounds h = .ok range) :
    ∃ d, m.domain h = .ok d ∧ range.lo ∈ d ∧ range.hi ∈ d ∧ ∀ x ∈ d, x ∈ range := by
  obtain ⟨v, lo, hi, found, least, most, ends⟩ := boundsOk.mp ok
  have canonical := proper.canonical v (List.mem_of_getElem? found)
  obtain ⟨first, below⟩ := Domain.minExact canonical least
  obtain ⟨last, above⟩ := Domain.maxExact canonical most
  cases sign : h.isNegated with
  | false =>
    rw [sign] at ends
    cases ends
    exact ⟨v.domain, domainOk.mpr ⟨v, found, by simp [sign]⟩, first, last,
      fun x mem => Interval.memExact.mpr ⟨below x mem, above x mem⟩⟩
  | true =>
    simp only [sign, if_true] at ends
    -- The range exists, so the images of the two ends are words, and with them all between.
    have image : ∀ y ∈ v.domain, ∃ x, complementWord y = .ok x := fun y mem => by
      obtain ⟨x, exact⟩ := wordBetween (show range.lo.toInt ≤ 1 - y.toInt by
        have := above y mem; omega) (show 1 - y.toInt ≤ range.hi.toInt by
        have := below y mem; omega)
      exact ⟨x, complementExact.mpr exact⟩
    obtain ⟨d, negated⟩ := Domain.negateBooleanExists (d := v.domain) fun i mem => by
      have ordered := canonical.proper mem
      exact ⟨image i.hi ⟨i, mem, Interval.memExact.mpr ⟨ordered, le_rfl⟩⟩,
        image i.lo ⟨i, mem, Interval.memExact.mpr ⟨le_rfl, ordered⟩⟩⟩
    have exact : ∀ x, x ∈ d ↔ ∃ y ∈ v.domain, x.toInt = 1 - y.toInt := fun x =>
      Domain.negateBooleanExact negated
    have known : m.domain h = .ok d := domainOk.mpr ⟨v, found, by simpa [sign] using negated⟩
    refine ⟨d, known, (exact _).mpr ⟨hi, last, ends.1⟩, (exact _).mpr ⟨lo, first, ends.2⟩,
      fun x mem => ?_⟩
    obtain ⟨y, mem, same⟩ := (exact x).mp mem
    have lower := below y mem
    have upper := above y mem
    exact Interval.memExact.mpr (by omega)

structure Next (m : Model) (h : Handle) : Prop where
  place : h.index = m.vars.length
  sign : h.isNegated = false

theorem newVariableOk {d : Domain} {name : String} (ok : newVariable d name m = .ok h n) :
    d.intervals ≠ [] ∧ n = m.extended ⟨d, name⟩ [] ∧ (n.Small → m.Next h) := by
  rw [newVariable] at ok
  split at ok
  · exact absurd ok runThrow
  · rename_i inhabited
    simp only [runBind, runLift, runPure, runGet, runModify] at ok
    obtain ⟨_, _, rfl, _, _, ⟨rfl, rfl⟩, v, _, ⟨named, rfl⟩, rfl, rfl⟩ := ok
    simp only [List.length_append, List.length_singleton, Nat.add_sub_cancel] at named
    refine ⟨by simpa [Domain.isEmpty] using inhabited, by simp [extended], fun small => ?_⟩
    simp only [Small, List.length_append, List.length_singleton] at small
    obtain ⟨sign, place, -⟩ := Handle.lowRecovered small named
    exact ⟨place, sign⟩

theorem newIntOk {lo hi : Int64} {name : String} (ok : newInt lo hi name m = .ok h n) :
    lo ≤ hi ∧ n = m.extended ⟨⟨[⟨lo, hi⟩]⟩, name⟩ [] ∧ (n.Small → m.Next h) := by
  simp only [newInt, runBind, runLift] at ok
  obtain ⟨d, _, ⟨made, rfl⟩, ok⟩ := ok
  obtain ⟨le, rfl⟩ := Domain.intervalExact made
  exact ⟨le, (newVariableOk ok).2⟩

theorem recognizeOk {p : Posted} : m.recognize p = .ok () ↔ ∀ h ∈ p.handles, m.Owns h := by
  rw [recognize, forMOk]
  refine forall₂_congr fun h _ => ?_
  simp only [bindOk, lookupOk, pureOk, and_true]
  exact ⟨fun ⟨_, found⟩ => ownsOfFound found, fun owns => ⟨_, List.getElem?_eq_getElem owns⟩⟩

theorem postOk {c : Constraint} {g : Option Handle} {u : Unit} (ok : post c g m = .ok u n) :
    n = ⟨m.vars, m.constraints ++ [⟨c, g⟩]⟩ ∧ ∀ h ∈ (Posted.mk c g).handles, m.Owns h := by
  rw [postRun] at ok
  split at ok
  · rename_i recognized
    cases ok
    exact ⟨rfl, recognizeOk.mp recognized⟩
  · contradiction

theorem targetOk {k : Model} {lo hi : Int64} {name : String} {c : Constraint} {u : Unit}
    (made : newInt lo hi name m = .ok h k) (posted : post c none k = .ok u n) :
    lo ≤ hi ∧ n = m.extended ⟨⟨[⟨lo, hi⟩]⟩, name⟩ [⟨c, none⟩] ∧
      (∀ g ∈ (Posted.mk c none).handles, n.Owns g) ∧ (n.Small → m.Next h) := by
  obtain ⟨le, rfl, next⟩ := newIntOk made
  obtain ⟨rfl, owned⟩ := postOk posted
  exact ⟨le, by simp [extended], owned, next⟩

def AgreeOn (hs : List Handle) (a b : Assignment) : Prop :=
  ∀ h ∈ hs, a.values[h.index]? = b.values[h.index]?

theorem evaluationLocal (p : Posted) :
    (∀ a b : Assignment, AgreeOn p.handles a b → p.isSatisfied a = p.isSatisfied b) ∧
      ∀ (m n k : Model) (u : Unit), post p.constraint p.guard m = .ok u n → n ≤ k →
        ∀ a : Assignment, a.size = k.vars.length → ∀ e, p.isSatisfied a = .error e →
          e = .overflow := by
  refine ⟨fun a b agree => isSatisfiedCongr fun h mem => valueCongr (agree h mem), ?_⟩
  intro m n k u posted later a size e failed
  obtain ⟨rfl, owned⟩ := postOk posted
  have wider := leVars later
  have covers : a.Covers p.handles := fun h mem =>
    ((owned h mem).trans_le wider).trans_eq size.symm
  exact isSatisfiedFails covers failed

theorem evaluationLocalOnce :
    let x : Handle := ⟨1, by decide⟩
    let y : Handle := ⟨-2, by decide⟩
    let p : Posted := ⟨.compare x .le (.var y), some x⟩
    let m : Model := ⟨[⟨⟨[⟨0, 1⟩]⟩, "x"⟩, ⟨⟨[⟨Int64.minValue, 0⟩]⟩, "y"⟩], []⟩
    let a : Assignment := ⟨[1, 0]⟩
    let b : Assignment := ⟨[1, 0, 7]⟩
    let c : Assignment := ⟨[1, Int64.minValue]⟩
    AgreeOn p.handles a b ∧ p.isSatisfied a = p.isSatisfied b ∧
      post p.constraint p.guard m = .ok () (m.posted p) ∧ c.size = m.vars.length ∧
      p.isSatisfied c = .error .overflow ∧ ∀ e, p.isSatisfied c = .error e → e = .overflow := by
  intro x y p m a b c
  obtain ⟨same, complete⟩ := evaluationLocal p
  have agree : AgreeOn p.handles a b := by
    intro h mem
    rcases mem with _ | ⟨_, _ | ⟨_, _ | ⟨_, ⟨⟩⟩⟩⟩ <;> rfl
  have posted : post p.constraint p.guard m = .ok () (m.posted p) := rfl
  exact ⟨agree, same a b agree, posted, rfl, rfl,
    complete m (m.posted p) (m.posted p) () posted (leRefl _) c rfl⟩

end ConstraintAlgebra.Model
