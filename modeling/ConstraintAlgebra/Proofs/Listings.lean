import ConstraintAlgebra.Proofs.Bisection
import ConstraintAlgebra.Proofs.HandleDomains

/-! The values of a domain one by one. Listing them steps through each interval in turn, counting them
takes only the ends of the intervals, and searching for one looks at a single interval; the three give
the same set. Neither a step nor a count ever leaves its fixed width. -/
namespace ConstraintAlgebra

namespace Interval

variable {i : Interval} {lo hi : Int64} {m n : Nat}

def steps (lo hi : Int64) : List Int64 :=
  if lo < hi then lo :: steps (lo + 1) hi
  else if lo = hi then [lo]
  else []
termination_by (hi.toInt - lo.toInt).toNat
decreasing_by
  rename_i before
  have ordered := Int64.lt_iff_toInt_lt.mp before
  have next := succToInt (x := lo) (by have := hi.toInt_le; omega)
  omega

/-- Counts the values with signed intermediate results of 128 bits, and reads the count without its
sign. -/
def count (i : Interval) : Except Failure Nat := do
  let distance ← wide (i.hi.toInt - i.lo.toInt)
  let number ← wide (distance + 1)
  return (number % 2 ^ 128).toNat

theorem sizeNext (below : lo.toInt < hi.toInt) :
    (⟨lo, hi⟩ : Interval).size = (⟨lo + 1, hi⟩ : Interval).size + 1 := by
  have next := succToInt (x := lo) (by have := hi.toInt_le; omega)
  simp only [size, next]
  omega

theorem stepsExact (lo hi : Int64) : steps lo hi = (⟨lo, hi⟩ : Interval).values := by
  fun_induction steps lo hi with
  | case1 lo before ih =>
    rw [values, sizeNext (Int64.lt_iff_toInt_lt.mp before), run, ih]
    rfl
  | case2 =>
    have single : (⟨hi, hi⟩ : Interval).size = 1 := by
      simp only [size]
      omega
    rw [values, single, run, run]
  | case3 lo after other =>
    rw [Int64.lt_iff_toInt_lt] at after
    rw [← Int64.toInt_inj] at other
    have none : (⟨lo, hi⟩ : Interval).size = 0 := by
      simp only [size]
      omega
    rw [values, none, run]

theorem countExact (proper : i.lo.toInt ≤ i.hi.toInt) : i.count = .ok i.size := by
  have low := i.lo.le_toInt
  have high := i.hi.toInt_lt
  simp only [count, bindOk, wideExact, pureOk]
  refine ⟨_, ⟨rfl, by omega, by omega⟩, _, ⟨rfl, by omega, by omega⟩, ?_⟩
  rw [size, Int.emod_eq_of_lt (by omega) (by omega)]
  omega

theorem runTake {x : Int64} : (run m x).take n = run (n.min m) x := by
  induction m generalizing n x with
  | zero => simp [run]
  | succ m ih =>
    cases n with
    | zero => simp [run]
    | succ n => simp [run, ih]

end Interval

namespace Domain

variable {d : Domain} {is : List Interval} {i : Interval} {x lo hi : Int64} {start : Int}

def stepped (d : Domain) : List Int64 := d.intervals.flatMap fun i => Interval.steps i.lo i.hi

def tallied (total : Nat) : List Interval → Except Failure Nat
  | [] => .ok total
  | i :: is => do
    let number ← i.count
    if total + number < 2 ^ 128 then tallied (total + number) is
    else .error .overflow

def tally (d : Domain) : Except Failure Nat := tallied 0 d.intervals

theorem sizeCons : size ⟨i :: is⟩ = i.size + size ⟨is⟩ := rfl

theorem steppedExact (d : Domain) : d.stepped = d.values :=
  List.flatMap_congr fun i _ => Interval.stepsExact i.lo i.hi

theorem firstValuesExact (n : Nat) (d : Domain) : d.firstValues n = d.values.take n := by
  rw [firstValues, values]
  induction d.intervals generalizing n with
  | nil => simp [firstValues.go]
  | cons i is ih =>
    rw [firstValues.go, ih, List.flatMap_cons, List.take_append, i.valuesLength, Interval.values,
      Interval.runTake]

theorem sizeFits (separated : Separated is) (within : start ≤ 2 ^ 63)
    (above : ∀ i ∈ is, start ≤ i.lo.toInt) : start + size ⟨is⟩ ≤ 2 ^ 63 := by
  induction is generalizing start with
  | nil => simpa [size] using within
  | cons i is ih =>
    have first := above i (by simp)
    have proper := separated.proper (i := i) (by simp)
    have most := i.hi.toInt_lt
    have rest : i.hi.toInt + 1 + size ⟨is⟩ ≤ 2 ^ 63 :=
      ih separated.tail (by omega) fun j later => (separated.apart later).le
    have one : (i.size : Int) = i.hi.toInt + 1 - i.lo.toInt := by
      rw [Interval.size]
      omega
    rw [sizeCons, Nat.cast_add, one]
    omega

theorem talliedExact {total : Nat} (proper : ∀ i ∈ is, i.lo.toInt ≤ i.hi.toInt)
    (fits : total + size ⟨is⟩ < 2 ^ 128) : tallied total is = .ok (total + size ⟨is⟩) := by
  induction is generalizing total with
  | nil => rfl
  | cons i is ih =>
    obtain ⟨first, others⟩ := List.forall_mem_cons.mp proper
    rw [sizeCons, ← Nat.add_assoc] at fits ⊢
    rw [tallied, Interval.countExact first]
    exact (if_pos (by omega)).trans (ih others fits)

theorem tallyExact (canonical : d.Canonical) : d.tally = .ok d.size := by
  have least : ∀ i ∈ d.intervals, -2 ^ 63 ≤ i.lo.toInt := fun i _ => i.lo.le_toInt
  have bounded := sizeFits canonical (by omega) least
  have counted : d.tally = .ok (0 + d.size) :=
    talliedExact (separatedPairwise.mp canonical).2 (by omega)
  rwa [Nat.zero_add] at counted

theorem valuesCount (canonical : d.Canonical) :
    d.values.count x = if d.contains x then 1 else 0 := by
  have nodup : d.values.Nodup := (valuesAscend canonical).imp Int64.ne_of_lt
  simp only [containsExact, ← memValues]
  split
  · rename_i listed
    exact List.count_eq_one_of_mem nodup listed
  · rename_i missing
    exact List.count_eq_zero_of_not_mem missing

theorem emptyExact (canonical : d.Canonical) : d.isEmpty = true ↔ ∀ x, x ∉ d := by
  rw [isEmpty, List.isEmpty_iff]
  constructor
  · intro empty x mem
    simp [memExact, empty] at mem
  · intro none
    by_contra inhabited
    obtain ⟨x, mem⟩ := memberExists canonical inhabited
    exact none x mem

theorem minUnique (canonical : d.Canonical) :
    d.min = .ok lo ↔ lo ∈ d ∧ ∀ x ∈ d, lo ≤ x := by
  simp only [Int64.le_iff_toInt_le]
  exact ⟨minExact canonical, fun held => minIs canonical held.1 held.2⟩

theorem maxUnique (canonical : d.Canonical) :
    d.max = .ok hi ↔ hi ∈ d ∧ ∀ x ∈ d, x ≤ hi := by
  simp only [Int64.le_iff_toInt_le]
  exact ⟨maxExact canonical, fun held => maxIs canonical held.1 held.2⟩

theorem fixedExact (canonical : d.Canonical) : d.isFixed = true ↔ ∃! x, x ∈ d := by
  obtain ⟨is⟩ := d
  cases is with
  | nil => simp [isFixed, memExact, ExistsUnique]
  | cons i is =>
    have first : i.lo ∈ (⟨i :: is⟩ : Domain) := canonical.starts
    have last : i.hi ∈ (⟨i :: is⟩ : Domain) :=
      ⟨i, by simp, Interval.memExact.mpr ⟨canonical.proper (by simp), le_rfl⟩⟩
    cases is with
    | nil =>
      change decide (i.lo = i.hi) = true ↔ _
      rw [decide_eq_true_eq]
      constructor
      · intro point
        refine ⟨i.lo, first, fun x mem => ?_⟩
        obtain ⟨k, single, inside⟩ := mem
        cases List.mem_singleton.mp single
        have held := Interval.memExact.mp inside
        rw [← point] at held
        exact Int64.toInt_inj.mp (Int.le_antisymm held.2 held.1)
      · intro single
        exact single.unique first last
    | cons j is =>
      refine iff_of_false Bool.false_ne_true fun single => ?_
      have second : j.lo ∈ (⟨i :: j :: is⟩ : Domain) :=
        (List.exists_mem_cons_iff _ _ _).mpr (.inr canonical.tail.starts)
      have gap := canonical.apart (j := j) (by simp)
      rw [← single.unique last second] at gap
      omega

/-- The values of a domain ascend without repetition and are the contained ones, whether they are stepped
through or only the first of them are taken. Their number is the size, counted without overflow. Unless the
domain is empty it has a least and a greatest value, and it is fixed if it has just one. -/
theorem valuesListed (built : d.Built) :
    (d.values.Pairwise (· < ·) ∧
        ∀ x, d.values.count x = (if d.contains x then 1 else 0) ∧ d.bisects x = d.contains x) ∧
      (d.stepped = d.values ∧ ∀ n, d.firstValues n = d.values.take n) ∧
      (d.size = d.values.length ∧ d.tally = .ok d.size) ∧
      (d.isEmpty = true ↔ ∀ x, d.contains x = false) ∧
      (d.isEmpty = false → ∃ lo hi, d.min = .ok lo ∧ d.max = .ok hi) ∧
      (∀ lo, d.min = .ok lo ↔ d.contains lo = true ∧ ∀ x, d.contains x = true → lo ≤ x) ∧
      (∀ hi, d.max = .ok hi ↔ d.contains hi = true ∧ ∀ x, d.contains x = true → x ≤ hi) ∧
      (d.isFixed = true ↔ ∃! x, d.contains x = true) := by
  have canonical := builtCanonical built
  simp only [← Bool.not_eq_true, containsExact]
  refine ⟨⟨valuesAscend canonical, fun x => ⟨valuesCount canonical, ?_⟩⟩,
    ⟨steppedExact d, fun n => firstValuesExact n d⟩, ⟨(valuesLength d).symm, tallyExact canonical⟩,
    emptyExact canonical, fun inhabited => ?_, fun lo => minUnique canonical,
    fun hi => maxUnique canonical, fixedExact canonical⟩
  · rw [Bool.eq_iff_iff, bisectsExact canonical, containsExact]
  · rw [isEmpty, List.isEmpty_iff] at inhabited
    obtain ⟨lo, least⟩ := minExists inhabited
    obtain ⟨hi, greatest⟩ := maxExists inhabited
    exact ⟨lo, hi, least, greatest⟩

theorem valuesListedOnce :
    let d := empty.complement
    d.Built ∧ d.tally = .ok (2 ^ 64) ∧ d.values.length = 2 ^ 64 ∧
      d.values.count Int64.maxValue = 1 ∧ (∃ lo hi, d.min = .ok lo ∧ d.max = .ok hi) ∧
      (∀ x, d.contains x = true → Int64.minValue ≤ x) ∧ ¬∃! x, d.contains x = true := by
  intro d
  have built : d.Built := .complement .empty
  obtain ⟨⟨-, counted⟩, -, ⟨length, tallied⟩, -, ends, least, -, fixed⟩ := valuesListed built
  have size : d.size = 2 ^ 64 := by decide
  rw [size] at length tallied
  exact ⟨built, tallied, length.symm, (counted _).1, ends (by decide),
    ((least Int64.minValue).mp (by decide)).2, mt fixed.mpr (by decide)⟩

end Domain

end ConstraintAlgebra
