import ConstraintAlgebra.Proofs.DomainForms
import ConstraintAlgebra.Proofs.Extents
import ConstraintAlgebra.Proofs.Refusals

/-! What a model says about a handle: its range and its domain, against the values that it takes under
assignments. The image of a domain under `1 - x` exists unless its least value is one of the two least
words, which only a complement can meet. -/
namespace ConstraintAlgebra

theorem complementFits {x : Int64} :
    (∃ y, complementWord x = .ok y) ↔ Int64.minValue.toInt + 2 ≤ x.toInt := by
  have least := Int64.toInt_minValue
  have greatest := Int64.toInt_maxValue
  constructor
  · intro held
    obtain ⟨y, image⟩ := held
    have exact := complementExact.mp image
    have most := y.toInt_le
    omega
  · intro above
    have most := x.toInt_le
    obtain ⟨y, exact⟩ := wordBetween (show Int64.minValue.toInt ≤ 1 - x.toInt by omega)
      (show 1 - x.toInt ≤ Int64.maxValue.toInt by omega)
    exact ⟨y, complementExact.mpr exact⟩

namespace Domain

variable {d e : Domain} {lo hi x : Int64}

theorem minIs (canonical : d.Canonical) (mem : lo ∈ d) (least : ∀ x ∈ d, lo.toInt ≤ x.toInt) :
    d.min = .ok lo := by
  have inhabited : d.intervals ≠ [] := fun empty => by simp [memExact, empty] at mem
  obtain ⟨k, found⟩ := minExists inhabited
  obtain ⟨first, below⟩ := minExact canonical found
  rw [found, Int64.toInt_inj.mp (Int.le_antisymm (below lo mem) (least k first))]

theorem maxIs (canonical : d.Canonical) (mem : hi ∈ d) (most : ∀ x ∈ d, x.toInt ≤ hi.toInt) :
    d.max = .ok hi := by
  have inhabited : d.intervals ≠ [] := fun empty => by simp [memExact, empty] at mem
  obtain ⟨k, found⟩ := maxExists inhabited
  obtain ⟨last, above⟩ := maxExact canonical found
  rw [found, Int64.toInt_inj.mp (Int.le_antisymm (most k last) (above hi mem))]

theorem negateBooleanFails {f : Failure} (failed : d.negateBoolean = .error f) : f = .overflow := by
  simp only [negateBoolean, mapError] at failed
  obtain ⟨i, _, failed⟩ := mapMError failed
  simp only [↓mapError, bindError] at failed
  rcases failed with failed | ⟨_, _, failed⟩
  · exact complementFails failed
  · exact complementFails failed

theorem negateBooleanReaches (canonical : d.Canonical)
    (above : ∀ x ∈ d, Int64.minValue.toInt + 2 ≤ x.toInt) : ∃ e, d.negateBoolean = .ok e := by
  refine negateBooleanExists fun i mem => ?_
  have proper := canonical.proper mem
  have start := above i.lo ⟨i, mem, Interval.memExact.mpr ⟨le_rfl, proper⟩⟩
  exact ⟨complementFits.mpr (by omega), complementFits.mpr start⟩

theorem negateBooleanFits (canonical : d.Canonical) (least : d.min = .ok lo) :
    (∃ e, d.negateBoolean = .ok e) ↔ Int64.minValue.toInt + 2 ≤ lo.toInt := by
  obtain ⟨first, below⟩ := minExact canonical least
  constructor
  · intro held
    obtain ⟨e, ok⟩ := held
    exact complementFits.mp (negateBooleanTotal ok first)
  · intro above
    exact negateBooleanReaches canonical fun x mem => above.trans (below x mem)

theorem negateBooleanTwice (canonical : d.Canonical) (ok : d.negateBoolean = .ok e) :
    e.negateBoolean = .ok d := by
  have images : ∀ x, x ∈ e ↔ ∃ y ∈ d, x.toInt = 1 - y.toInt := fun x => negateBooleanExact ok
  have again : ∃ f, e.negateBoolean = .ok f := by
    refine negateBooleanReaches (negateBooleanCanonical ok) fun x inside => ?_
    obtain ⟨y, _, image⟩ := (images x).mp inside
    have most := y.toInt_le
    have least := Int64.toInt_minValue
    have greatest := Int64.toInt_maxValue
    omega
  obtain ⟨f, negated⟩ := again
  rw [negated]
  refine congrArg Except.ok (canonicalUnique (negateBooleanCanonical negated) canonical fun x => ?_)
  rw [negateBooleanExact negated]
  constructor
  · intro held
    obtain ⟨y, inside, image⟩ := held
    obtain ⟨z, mem, same⟩ := (images y).mp inside
    have back : x = z := Int64.toInt_inj.mp (by omega)
    rwa [back]
  · intro mem
    obtain ⟨y, image⟩ := negateBooleanTotal ok mem
    have exact := ConstraintAlgebra.complementExact.mp image
    exact ⟨y, (images y).mpr ⟨x, mem, exact⟩, by omega⟩

end Domain

namespace Model

variable {m : Model} {a : Assignment} {h : Handle} {v : Variable} {d : Domain} {lo x : Int64}

theorem domainRun (found : m.vars[h.index]? = some v) :
    m.domain h = if h.isNegated then v.domain.negateBoolean else .ok v.domain := by
  have known : m.variableDomain h = .ok v.domain := variableDomainOk.mpr ⟨v, found, rfl⟩
  rw [domain, known]
  rfl

theorem rangedFits (proper : m.Proper) (found : m.vars[h.index]? = some v)
    (least : v.domain.min = .ok lo)
    (fits : h.isNegated = true → Int64.minValue.toInt + 2 ≤ lo.toInt) : m.Ranged h := by
  have mem := List.mem_of_getElem? found
  have canonical := proper.canonical v mem
  obtain ⟨hi, most⟩ := Domain.maxExists (proper.inhabited v mem)
  by_cases sign : h.isNegated = true
  · have start := fits sign
    have ordered := (Domain.maxExact canonical most).2 lo (Domain.minExact canonical least).1
    obtain ⟨first, low⟩ := complementFits.mpr (show Int64.minValue.toInt + 2 ≤ hi.toInt by omega)
    obtain ⟨last, high⟩ := complementFits.mpr start
    refine ⟨⟨first, last⟩, boundsOk.mpr ⟨v, lo, hi, found, least, most, ?_⟩⟩
    rw [if_pos sign]
    exact ⟨complementExact.mp low, complementExact.mp high⟩
  · exact ⟨⟨lo, hi⟩, boundsOk.mpr ⟨v, lo, hi, found, least, most, by rw [if_neg sign]⟩⟩

theorem handleLost (proper : m.Proper) (found : m.vars[h.index]? = some v)
    (least : v.domain.min = .ok lo) (sign : h.isNegated = true)
    (lost : lo.toInt < Int64.minValue.toInt + 2) :
    m.bounds h = .error .overflow ∧ m.domain h = .error .overflow := by
  have canonical := proper.canonical v (List.mem_of_getElem? found)
  have missing : ∀ d, m.domain h ≠ .ok d := fun d known => by
    rw [domainRun found, if_pos sign] at known
    have above := (Domain.negateBooleanFits canonical least).mp ⟨d, known⟩
    omega
  constructor
  · refine (boundsDecided proper (ownsOfFound found)).resolve_left fun ⟨range, known⟩ => ?_
    obtain ⟨d, domain, _⟩ := boundsDomain proper known
    exact missing d domain
  · cases ran : m.domain h with
    | ok d => exact absurd ran (missing d)
    | error f =>
      rw [domainRun found, if_pos sign] at ran
      rw [Domain.negateBooleanFails ran]

theorem domainEnds (proper : m.Proper) {range : Interval} (ok : m.bounds h = .ok range)
    (known : m.domain h = .ok d) : d.min = .ok range.lo ∧ d.max = .ok range.hi := by
  have canonical := domainCanonical proper known
  obtain ⟨e, same, first, last, inside⟩ := boundsDomain proper ok
  rw [known] at same
  cases same
  exact ⟨Domain.minIs canonical first fun x mem => (Interval.memExact.mp (inside x mem)).1,
    Domain.maxIs canonical last fun x mem => (Interval.memExact.mp (inside x mem)).2⟩

theorem isFixedExact (proper : m.Proper) (known : m.domain h = .ok d) {b : Bool}
    (ok : m.isFixed h = .ok b) : b = true ↔ ∃! x, x ∈ d := by
  simp only [isFixed, bindOk, pureOk] at ok
  obtain ⟨range, bounded, rfl⟩ := ok
  have canonical := domainCanonical proper known
  obtain ⟨least, most⟩ := domainEnds proper bounded known
  obtain ⟨first, below⟩ := Domain.minExact canonical least
  obtain ⟨last, above⟩ := Domain.maxExact canonical most
  rw [Interval.isPoint, decide_eq_true_eq]
  constructor
  · intro point
    refine ⟨range.lo, first, fun x mem => Int64.toInt_inj.mp (Int.le_antisymm ?_ (below x mem))⟩
    exact point ▸ above x mem
  · intro single
    exact single.unique first last

theorem overlapsExact (proper : m.Proper) {l r : Handle} {i j : Interval} (left : m.bounds l = .ok i)
    (right : m.bounds r = .ok j) {b : Bool} (ok : m.overlaps l r = .ok b) :
    b = true ↔ ∃ x ∈ i, x ∈ j := by
  simp only [overlaps, left, right, bindOk, pureOk, Except.ok.injEq, exists_eq_left'] at ok
  subst ok
  constructor
  · exact Interval.overlapsShared (boundsOrdered proper left) (boundsOrdered proper right)
  · rintro ⟨x, first, second⟩
    exact Interval.overlapsMet first second

theorem domainTakes (found : m.vars[h.index]? = some v) (known : m.domain h = .ok d)
    (given : a.get h.id = .ok x) (mem : x ∈ v.domain) : ∃ y, a.value h = .ok y ∧ y ∈ d := by
  obtain ⟨w, same, images, _⟩ := domainValues known
  rw [found] at same
  cases same
  obtain ⟨y, inside, image⟩ := images x mem
  exact ⟨y, valueOk.mpr ⟨x, getOk.mp given, image⟩, inside⟩

theorem domainTaken (proper : m.Proper) (known : m.domain h = .ok d) (mem : x ∈ d) :
    ∃ a, m.Admits a ∧ a.value h = .ok x := by
  obtain ⟨a, admits⟩ := admittedExists proper
  obtain ⟨y, admitted, value⟩ := settingValue admits known mem
  exact ⟨_, admitted, value⟩

end Model

namespace Session

variable {E : Type} [Encoding E]

/-- The range and the domain of a handle exist together, and only a complement has none, when one of
the two least words is the least value of its variable. The domain has exactly the values that the
handle takes, the range has its ends, and the image under `1 - x` of an image is the domain again. -/
theorem handlesExact (calls : List (Call E)) (built : ∀ c ∈ calls, c.Built) {h : Handle} {v : Variable}
    (found : (start.run calls).model.vars[h.index]? = some v) :
    let m := (start.run calls).model
    ∃ lo, v.domain.min = .ok lo ∧
      (h.isNegated = true ∧ lo.toInt < Int64.minValue.toInt + 2 →
        m.bounds h = .error .overflow ∧ m.domain h = .error .overflow) ∧
      (¬(h.isNegated = true ∧ lo.toInt < Int64.minValue.toInt + 2) →
        ∃ d range, m.domain h = .ok d ∧ m.bounds h = .ok range ∧ d.Canonical ∧
          d.min = .ok range.lo ∧ d.max = .ok range.hi ∧
          (∀ (a : Assignment) x, a.get h.id = .ok x → v.domain.contains x = true →
            ∃ y, a.value h = .ok y ∧ d.contains y = true) ∧
          ∀ y, d.contains y = true → ∃ a, m.Admits a ∧ a.value h = .ok y) ∧
      (Int64.minValue.toInt + 2 ≤ lo.toInt →
        ∃ e, v.domain.negateBoolean = .ok e ∧ e.negateBoolean = .ok v.domain) := by
  intro m
  have proper : m.Proper := (runSound built startSound).proper
  have mem := List.mem_of_getElem? found
  have canonical := proper.canonical v mem
  obtain ⟨lo, least⟩ := Domain.minExists (proper.inhabited v mem)
  refine ⟨lo, least, fun lost => Model.handleLost proper found least lost.1 lost.2, ?_, ?_⟩
  · intro kept
    have fits : h.isNegated = true → Int64.minValue.toInt + 2 ≤ lo.toInt := fun sign => by
      by_contra lost
      exact kept ⟨sign, by omega⟩
    obtain ⟨range, ok⟩ := Model.rangedFits proper found least fits
    obtain ⟨d, known, _⟩ := Model.boundsDomain proper ok
    obtain ⟨low, high⟩ := Model.domainEnds proper ok known
    simp only [Domain.containsExact]
    exact ⟨d, range, known, ok, Model.domainCanonical proper known, low, high,
      fun a x => Model.domainTakes found known, fun y => Model.domainTaken proper known⟩
  · intro above
    obtain ⟨e, ok⟩ := (Domain.negateBooleanFits canonical least).mpr above
    exact ⟨e, ok, Domain.negateBooleanTwice canonical ok⟩

theorem handlesExactOnce :
    let x : Handle := ⟨-1, by decide⟩
    let y : Handle := ⟨-2, by decide⟩
    let d : Domain := .ofIntervals [⟨3, 3⟩, ⟨-4, -1⟩]
    let calls : List (Call Dictionary) := [.model (.withDomain d "x"),
      .model (.int (Int64.minValue + 1) 0 "y")]
    let m := (start.run calls).model
    m.vars[x.index]? = some ⟨d, "x"⟩ ∧ m.domain x = .ok ⟨[⟨-2, -2⟩, ⟨2, 5⟩]⟩ ∧
      (∃ a, m.Admits a ∧ a.value x = .ok 4) ∧
      m.bounds y = .error .overflow ∧ m.domain y = .error .overflow := by
  intro x y d calls m
  have built : ∀ c ∈ calls, c.Built := by simpa [calls, Call.Built] using .intervals _
  have found : m.vars[x.index]? = some ⟨d, "x"⟩ := rfl
  have domain : m.domain x = .ok ⟨[⟨-2, -2⟩, ⟨2, 5⟩]⟩ := rfl
  obtain ⟨lo, least, _, kept, _⟩ := handlesExact calls built found
  cases least
  obtain ⟨image, _, known, _, _, _, _, _, taken⟩ := kept (by decide)
  cases domain.symm.trans known
  obtain ⟨low, first, lost, _⟩ := handlesExact calls built (h := y) rfl
  cases first
  exact ⟨found, domain, taken 4 (by decide), lost (by decide)⟩

end Session

end ConstraintAlgebra
