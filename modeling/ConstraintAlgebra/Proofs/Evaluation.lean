import ConstraintAlgebra.Assignment
import ConstraintAlgebra.Proofs.HandleCodes
import ConstraintAlgebra.Proofs.RelationMeaning

/-! Evaluation of constraints under an assignment: what the value of a handle is, which values a
constraint depends on, and what its truth says about them. -/
namespace ConstraintAlgebra

structure Reading where
  value : Handle → Int
  code : String → Int

/-- A reading may give any number to a handle that has no value. -/
def Reading.Reads (ρ : Reading) (a : Assignment) : Prop :=
  ∀ h x, a.value h = .ok x → ρ.value h = x.toInt

section Values

variable {a b : Assignment} {h n : Handle} {x y : Int64}

theorem getOk {v : VarId} : a.get v = .ok x ↔ a.values[v.index]? = some x := by
  rw [Assignment.get]
  cases a.values[v.index]? <;> simp

theorem valueOk : a.value h = .ok x ↔ ∃ v, a.values[h.index]? = some v ∧
    if h.isNegated then x.toInt = 1 - v.toInt else x = v := by
  rw [Assignment.value, bindOk]
  refine exists_congr fun v => and_congr getOk ?_
  split
  · exact complementExact
  · exact pureOk.trans eq_comm

theorem valueCongr (same : a.values[h.index]? = b.values[h.index]?) : a.value h = b.value h := by
  have found : a.get h.id = b.get h.id := by
    change a.values[h.id.index]? = b.values[h.id.index]? at same
    rw [Assignment.get, same, ← Assignment.get]
  rw [Assignment.value, found, ← Assignment.value]

theorem negateSource (ok : h.negate = .ok n) :
    n.index = h.index ∧ n.isNegated = !h.isNegated := by
  have opposite := Handle.negateOk.mp ok
  have place := h.indexCode
  have other := n.indexCode
  refine ⟨by omega, ?_⟩
  rw [Bool.eq_not, Ne, Bool.eq_iff_iff, Handle.negatedCode, Handle.negatedCode]
  omega

theorem negateValue (ok : h.negate = .ok n) (hx : a.value h = .ok x) :
    a.value n = .ok y ↔ y.toInt = 1 - x.toInt := by
  obtain ⟨place, sign⟩ := negateSource ok
  obtain ⟨v, found, value⟩ := valueOk.mp hx
  simp only [valueOk, place, found, sign, Option.some.injEq, exists_eq_left']
  cases negated : h.isNegated <;> simp only [negated, Bool.not_true, Bool.not_false, if_true,
    Bool.false_eq_true, if_false] at value ⊢
  · rw [value]
  · rw [← Int64.toInt_inj]
    omega

theorem isTrueOk (hx : a.value h = .ok x) : a.isTrue h = .ok (x == 1) := by
  simp [Assignment.isTrue, hx, bind, Except.bind, pure, Except.pure]

end Values

def Assignment.reading (a : Assignment) (code : String → Int) (other : Handle → Int) : Reading where
  value h := match a.value h with
    | .ok x => x.toInt
    | .error _ => other h
  code := code

theorem readingReads (a : Assignment) (code : String → Int) (other : Handle → Int) :
    (a.reading code other).Reads a := by
  intro h x value
  simp only [Assignment.reading, value]

section Locality

variable {a b : Assignment}

theorem isTrueCongr {h : Handle} (same : a.value h = b.value h) : a.isTrue h = b.isTrue h := by
  rw [Assignment.isTrue, Assignment.isTrue, same]

theorem termCongr {t : Term} (same : ∀ h ∈ t.handles, a.value h = b.value h) :
    a.term t = b.term t := by
  cases t with
  | var h => exact same h (by simp [Term.handles])
  | const c => rfl

theorem totalCongr {terms : List Summand} (same : ∀ h ∈ terms.map (·.2), a.value h = b.value h)
    (sum : Int) : a.total terms sum = b.total terms sum := by
  induction terms generalizing sum with
  | nil => rfl
  | cons s rest ih =>
    obtain ⟨c, h⟩ := s
    simp only [List.map_cons, List.forall_mem_cons] at same
    simp only [Assignment.total, same.1, ih same.2]

theorem valuesCongr {hs : List Handle} (same : ∀ h ∈ hs, a.value h = b.value h) :
    hs.mapM a.value = hs.mapM b.value := by
  induction hs with
  | nil => rfl
  | cons h hs ih =>
    simp only [List.forall_mem_cons] at same
    rw [List.mapM_cons, List.mapM_cons, same.1, ih same.2]

theorem literalsCongr {hs : List Handle} (same : ∀ h ∈ hs, a.value h = b.value h) :
    hs.anyM a.isTrue = hs.anyM b.isTrue ∧ hs.allM a.isTrue = hs.allM b.isTrue := by
  induction hs with
  | nil => exact ⟨rfl, rfl⟩
  | cons h hs ih =>
    simp only [List.forall_mem_cons] at same
    obtain ⟨any, all⟩ := ih same.2
    simp only [List.anyM, List.allM, isTrueCongr same.1, any, all, and_self]

theorem holdsCongr {c : Constraint} (same : ∀ h ∈ c.handles, a.value h = b.value h) :
    c.holds a = c.holds b := by
  cases c with
  | compare l r t =>
    simp only [Constraint.handles, List.forall_mem_cons] at same
    simp only [Constraint.holds, same.1, termCongr same.2]
  | linear t ts o =>
    simp only [Constraint.handles, List.forall_mem_cons] at same
    simp only [Constraint.holds, same.1, totalCongr same.2]
  | greatest t vs =>
    simp only [Constraint.handles, List.forall_mem_cons] at same
    simp only [Constraint.holds, same.1, valuesCongr same.2]
  | least t vs =>
    simp only [Constraint.handles, List.forall_mem_cons] at same
    simp only [Constraint.holds, same.1, valuesCongr same.2]
  | product t l r =>
    simp only [Constraint.handles, List.forall_mem_cons] at same
    simp only [Constraint.holds, same.1, same.2.1, same.2.2.1]
  | quotient t n d =>
    simp only [Constraint.handles, List.forall_mem_cons] at same
    simp only [Constraint.holds, same.1, same.2.1, termCongr same.2.2]
  | anyTrue ls => exact (literalsCongr same).1
  | allTrue ls => exact (literalsCongr same).2
  | inside v d =>
    simp only [Constraint.handles, List.forall_mem_cons] at same
    simp only [Constraint.holds, same.1]

theorem isSatisfiedCongr {p : Posted} (same : ∀ h ∈ p.handles, a.value h = b.value h) :
    p.isSatisfied a = p.isSatisfied b := by
  obtain ⟨c, g⟩ := p
  simp only [Posted.handles, List.forall_mem_append] at same
  cases g with
  | none => exact holdsCongr same.1
  | some g =>
    simp only [Option.toList_some, List.forall_mem_singleton] at same
    simp only [Posted.isSatisfied, isTrueCongr same.2, holdsCongr same.1]

end Locality

section Failing

variable {a : Assignment} {h : Handle} {e : Failure}

def Assignment.Covers (a : Assignment) (hs : List Handle) : Prop :=
  ∀ h ∈ hs, h.index < a.values.length

theorem complementFails {x : Int64} (failed : complementWord x = .error e) : e = .overflow := by
  simp only [complementWord, word] at failed
  split at failed <;> cases failed
  rfl

theorem valueFails (inside : h.index < a.values.length) (failed : a.value h = .error e) :
    e = .overflow := by
  have found : a.get h.id = .ok a.values[h.index] := by
    change h.id.index < a.values.length at inside
    rw [Assignment.get, List.getElem?_eq_getElem inside]
    rfl
  simp only [Assignment.value, found, bindError, reduceCtorEq, false_or] at failed
  obtain ⟨x, _, failed⟩ := failed
  split at failed
  · exact complementFails failed
  · exact absurd failed pureError

theorem wideFails {n : Int} (failed : wide n = .error e) : e = .overflow := by
  rw [wide] at failed
  split at failed <;> cases failed
  rfl

theorem isTrueFails (inside : h.index < a.values.length) (failed : a.isTrue h = .error e) :
    e = .overflow := by
  simp only [Assignment.isTrue, mapError] at failed
  exact valueFails inside failed

theorem termFails {t : Term} (covers : a.Covers t.handles) (failed : a.term t = .error e) :
    e = .overflow := by
  cases t with
  | var h => exact valueFails (covers h (by simp [Term.handles])) failed
  | const c => contradiction

theorem totalFails {terms : List Summand} (covers : a.Covers (terms.map (·.2))) {sum : Int}
    (failed : a.total terms sum = .error e) : e = .overflow := by
  induction terms generalizing sum with
  | nil => contradiction
  | cons s rest ih =>
    obtain ⟨first, others⟩ := List.forall_mem_cons.mp covers
    simp only [Assignment.total, bindError] at failed
    rcases failed with failed | ⟨x, _, failed | ⟨_, _, failed⟩⟩
    · exact valueFails first failed
    · exact wideFails failed
    · exact ih others failed

theorem valuesFail {hs : List Handle} (covers : a.Covers hs) (failed : hs.mapM a.value = .error e) :
    e = .overflow := by
  obtain ⟨h, mem, failed⟩ := mapMError failed
  exact valueFails (covers h mem) failed

theorem holdsFails {c : Constraint} (covers : a.Covers c.handles) (failed : c.holds a = .error e) :
    e = .overflow := by
  cases c with
  | compare l r t =>
    obtain ⟨left, right⟩ := List.forall_mem_cons.mp covers
    simp only [Constraint.holds, ↓mapError, bindError] at failed
    rcases failed with failed | ⟨_, _, failed⟩
    · exact valueFails left failed
    · exact termFails right failed
  | linear t ts o =>
    obtain ⟨target, terms⟩ := List.forall_mem_cons.mp covers
    simp only [Constraint.holds, ↓mapError, bindError] at failed
    rcases failed with failed | ⟨_, _, failed | ⟨_, _, failed⟩⟩
    · exact totalFails terms failed
    · exact wideFails failed
    · exact valueFails target failed
  | greatest t vs =>
    obtain ⟨target, vars⟩ := List.forall_mem_cons.mp covers
    simp only [Constraint.holds, ↓mapError, bindError] at failed
    rcases failed with failed | ⟨_, _, failed⟩
    · exact valuesFail vars failed
    · exact valueFails target failed
  | least t vs =>
    obtain ⟨target, vars⟩ := List.forall_mem_cons.mp covers
    simp only [Constraint.holds, ↓mapError, bindError] at failed
    rcases failed with failed | ⟨_, _, failed⟩
    · exact valuesFail vars failed
    · exact valueFails target failed
  | product t l r =>
    simp only [Assignment.Covers, Constraint.handles, List.forall_mem_cons] at covers
    simp only [Constraint.holds, ↓mapError, bindError] at failed
    rcases failed with failed | ⟨_, _, failed | ⟨_, _, failed⟩⟩
    · exact valueFails covers.1 failed
    · exact valueFails covers.2.1 failed
    · exact valueFails covers.2.2.1 failed
  | quotient t n d =>
    simp only [Assignment.Covers, Constraint.handles, List.forall_mem_cons] at covers
    simp only [Constraint.holds, bindError] at failed
    rcases failed with failed | ⟨x, _, failed⟩
    · exact termFails covers.2.2 failed
    split at failed
    · exact absurd failed pureError
    simp only [↓mapError, bindError] at failed
    rcases failed with failed | ⟨_, _, failed⟩
    · exact valueFails covers.2.1 failed
    · exact valueFails covers.1 failed
  | anyTrue ls =>
    obtain ⟨h, mem, failed⟩ := anyMError failed
    exact isTrueFails (covers h mem) failed
  | allTrue ls =>
    obtain ⟨h, mem, failed⟩ := allMError failed
    exact isTrueFails (covers h mem) failed
  | inside v d =>
    simp only [Constraint.holds, mapError] at failed
    exact valueFails (covers v (by simp [Constraint.handles])) failed

theorem isSatisfiedFails {p : Posted} (covers : a.Covers p.handles)
    (failed : p.isSatisfied a = .error e) : e = .overflow := by
  obtain ⟨c, g⟩ := p
  obtain ⟨inside, guarded⟩ := List.forall_mem_append.mp covers
  cases g with
  | none => exact holdsFails inside failed
  | some g =>
    simp only [Posted.isSatisfied, bindError] at failed
    rcases failed with failed | ⟨active, _, failed⟩
    · exact isTrueFails (guarded g (by simp)) failed
    split at failed
    · exact holdsFails inside failed
    · exact absurd failed pureError

end Failing

section Truth

variable {a : Assignment} {ρ : Reading} {h l : Handle} {x y : Int64}

theorem compareHolds {rel : Relation} {t : Term} (left : a.value l = .ok x)
    (right : a.term t = .ok y) : (Constraint.compare l rel t).holds a = .ok (rel.holds x y) := by
  simp [Constraint.holds, left, right, bind, Except.bind, pure, Except.pure]

theorem insideHolds {d : Domain} (value : a.value h = .ok x) :
    (Constraint.inside h d).holds a = .ok (d.contains x) := by
  simp [Constraint.holds, value, bind, Except.bind, pure, Except.pure]

def sumOf (value : Handle → Int) (terms : List Summand) : Int :=
  (terms.map fun s => s.1.toInt * value s.2).sum

@[simp] theorem sumOfNil (value : Handle → Int) : sumOf value [] = 0 := rfl

@[simp] theorem sumOfCons (value : Handle → Int) (c : Int64) (h : Handle) (rest : List Summand) :
    sumOf value ((c, h) :: rest) = c.toInt * value h + sumOf value rest := rfl

theorem totalExact {terms : List Summand} {start sum : Int} (reads : ρ.Reads a)
    (ok : a.total terms start = .ok sum) : sum = start + sumOf ρ.value terms := by
  induction terms generalizing start with
  | nil =>
    cases ok
    simp
  | cons s rest ih =>
    obtain ⟨c, h⟩ := s
    simp only [Assignment.total, bindOk, wideExact] at ok
    obtain ⟨x, value, next, ⟨rfl, _⟩, tail⟩ := ok
    rw [ih tail, sumOfCons, reads h x value]
    ring

end Truth

end ConstraintAlgebra
