import ConstraintAlgebra.Proofs.Outcomes
import Mathlib

/-! Domains as sets of integers. Every construction of a domain yields the canonical form of the set
it describes, and the tests that look at end points only are right about canonical domains. -/
namespace ConstraintAlgebra

theorem Interval.memExact {x : Int64} {i : Interval} :
    x ∈ i ↔ i.lo.toInt ≤ x.toInt ∧ x.toInt ≤ i.hi.toInt := by
  change i.lo ≤ x ∧ x ≤ i.hi ↔ _
  rw [Int64.le_iff_toInt_le, Int64.le_iff_toInt_le]

theorem Interval.memPoint {x y : Int64} : x ∈ point y ↔ x = y := by
  rw [memExact, ← Int64.toInt_inj]
  exact ⟨fun h => Int.le_antisymm h.2 h.1, fun h => ⟨h.ge, h.le⟩⟩

namespace Domain

theorem containsExact {d : Domain} {x : Int64} : d.contains x = true ↔ x ∈ d := by
  simp only [contains, List.any_eq_true, decide_eq_true_eq]
  rfl

theorem memExact {d : Domain} {x : Int64} : x ∈ d ↔ ∃ i ∈ d.intervals, x ∈ i := Iff.rfl

theorem separatedPairwise {is : List Interval} : Separated is ↔
    is.Pairwise (fun i j => i.hi.toInt + 1 < j.lo.toInt) ∧ ∀ i ∈ is, i.lo.toInt ≤ i.hi.toInt := by
  constructor
  · intro h
    induction h with
    | nil => simp
    | single proper => simpa using Int64.le_iff_toInt_le.mp proper
    | @cons i j rest proper gap tail ih =>
      have first := Int64.le_iff_toInt_le.mp proper
      have next := ih.2 j (by simp)
      refine ⟨List.pairwise_cons.mpr ⟨?_, ih.1⟩, by simpa using ⟨first, ih.2 j (by simp),
        fun k hk => ih.2 k (List.mem_cons_of_mem _ hk)⟩⟩
      intro k hk
      rcases List.mem_cons.mp hk with rfl | later
      · exact gap
      · have := List.rel_of_pairwise_cons ih.1 later
        omega
  · rintro ⟨apart, proper⟩
    induction is with
    | nil => exact .nil
    | cons i rest ih =>
      have first := Int64.le_iff_toInt_le.mpr (proper i (by simp))
      have tail := ih apart.of_cons fun k hk => proper k (List.mem_cons_of_mem _ hk)
      cases rest with
      | nil => exact .single first
      | cons j rest => exact .cons first (List.rel_of_pairwise_cons apart (by simp)) tail

theorem Separated.proper {is : List Interval} (h : Separated is) {i : Interval} (mem : i ∈ is) :
    i.lo.toInt ≤ i.hi.toInt := (separatedPairwise.mp h).2 i mem

theorem Separated.tail {i : Interval} {is : List Interval} (h : Separated (i :: is)) :
    Separated is := by
  have pairs := separatedPairwise.mp h
  exact separatedPairwise.mpr ⟨pairs.1.of_cons, fun k hk => pairs.2 k (List.mem_cons_of_mem _ hk)⟩

theorem Separated.apart {i j : Interval} {is : List Interval} (h : Separated (i :: is))
    (mem : j ∈ is) : i.hi.toInt + 1 < j.lo.toInt :=
  List.rel_of_pairwise_cons (separatedPairwise.mp h).1 mem

theorem Separated.pairwise {is : List Interval} (h : Separated is) {i j : Interval} (left : i ∈ is)
    (right : j ∈ is) :
    i = j ∨ i.hi.toInt + 1 < j.lo.toInt ∨ j.hi.toInt + 1 < i.lo.toInt := by
  induction is with
  | nil => simp at left
  | cons k is ih =>
    rcases List.mem_cons.mp left with rfl | first
    · rcases List.mem_cons.mp right with rfl | second
      · exact .inl rfl
      · exact .inr (.inl (h.apart second))
    · rcases List.mem_cons.mp right with rfl | second
      · exact .inr (.inr (h.apart first))
      · exact ih h.tail first second

theorem Separated.prepend {i : Interval} {is : List Interval} (proper : i.lo.toInt ≤ i.hi.toInt)
    (apart : ∀ j ∈ is, i.hi.toInt + 1 < j.lo.toInt) (h : Separated is) : Separated (i :: is) := by
  have pairs := separatedPairwise.mp h
  exact separatedPairwise.mpr ⟨List.pairwise_cons.mpr ⟨apart, pairs.1⟩,
    List.forall_mem_cons.mpr ⟨proper, pairs.2⟩⟩

end Domain

theorem minToInt (x y : Int64) : (min x y).toInt = min x.toInt y.toInt := by
  change (if x ≤ y then x else y).toInt = _
  simp only [Int64.le_iff_toInt_le]
  split <;> omega

theorem maxToInt (x y : Int64) : (max x y).toInt = max x.toInt y.toInt := by
  change (if x ≤ y then y else x).toInt = _
  simp only [Int64.le_iff_toInt_le]
  split <;> omega

theorem wordBetween {n : Int} {lo hi : Int64} (below : lo.toInt ≤ n) (above : n ≤ hi.toInt) :
    ∃ x : Int64, x.toInt = n := by
  have least := lo.le_toInt
  have most := hi.toInt_lt
  exact ⟨.ofInt n, Int64.toInt_ofInt_of_le (by omega) (by omega)⟩

theorem Interval.memHull {i j : Interval} (_ : i.lo.toInt ≤ i.hi.toInt)
    (_ : j.lo.toInt ≤ j.hi.toInt) (below : j.lo.toInt ≤ i.hi.toInt + 1)
    (above : i.lo.toInt ≤ j.hi.toInt + 1) {x : Int64} :
    x ∈ Interval.mk (min i.lo j.lo) (max i.hi j.hi) ↔ x ∈ i ∨ x ∈ j := by
  simp only [memExact, minToInt, maxToInt]
  omega

theorem Interval.overlapsMet {i j : Interval} {x : Int64} (left : x ∈ i) (right : x ∈ j) :
    i.overlaps j = true := by
  simp only [memExact] at left right
  simp only [overlaps, Bool.and_eq_true, decide_eq_true_eq, Int64.le_iff_toInt_le]
  omega

theorem Interval.overlapsShared {i j : Interval} (left : i.lo.toInt ≤ i.hi.toInt)
    (right : j.lo.toInt ≤ j.hi.toInt) (ok : i.overlaps j = true) : ∃ x ∈ i, x ∈ j := by
  simp only [overlaps, Bool.and_eq_true, decide_eq_true_eq, Int64.le_iff_toInt_le] at ok
  -- The greater of the two starts lies in both.
  refine ⟨max i.lo j.lo, ?_, ?_⟩
  · rw [memExact, maxToInt]
    omega
  · rw [memExact, maxToInt]
    omega

theorem predToInt {x : Int64} (above : Int64.minValue.toInt < x.toInt) :
    (x - 1).toInt = x.toInt - 1 := by
  rw [Int64.toInt_sub, Int64.toInt_one]
  have := x.toInt_lt
  have := Int64.toInt_minValue
  exact Int.bmod_eq_of_le (by omega) (by omega)

theorem succToInt {x : Int64} (below : x.toInt < Int64.maxValue.toInt) :
    (x + 1).toInt = x.toInt + 1 := by
  rw [Int64.toInt_add, Int64.toInt_one]
  have := x.le_toInt
  have := Int64.toInt_maxValue
  exact Int.bmod_eq_of_le (by omega) (by omega)

namespace Interval

theorem memRun {n : Nat} {x y : Int64} (fits : x.toInt + n ≤ 2 ^ 63) :
    y ∈ run n x ↔ x.toInt ≤ y.toInt ∧ y.toInt < x.toInt + n := by
  induction n generalizing x with
  | zero =>
    simp only [run, List.not_mem_nil, false_iff]
    omega
  | succ n ih =>
    rw [run, List.mem_cons, ← Int64.toInt_inj]
    cases n with
    | zero =>
      simp only [run, List.not_mem_nil, or_false]
      omega
    | succ n =>
      have next := succToInt (x := x) (by have := Int64.toInt_maxValue; omega)
      rw [ih (by omega), next]
      omega

theorem runAscends {n : Nat} {x : Int64} (fits : x.toInt + n ≤ 2 ^ 63) :
    (run n x).Pairwise (· < ·) := by
  induction n generalizing x with
  | zero => exact .nil
  | succ n ih =>
    rw [run, List.pairwise_cons]
    cases n with
    | zero => exact ⟨by simp [run], .nil⟩
    | succ n =>
      have next := succToInt (x := x) (by have := Int64.toInt_maxValue; omega)
      refine ⟨fun y mem => ?_, ih (by omega)⟩
      have := (memRun (by omega)).mp mem
      rw [Int64.lt_iff_toInt_lt]
      omega

theorem sizeFits (i : Interval) : i.lo.toInt + i.size ≤ 2 ^ 63 := by
  have := i.hi.toInt_lt
  have := i.lo.toInt_lt
  rw [size]
  omega

theorem memValues {i : Interval} {x : Int64} : x ∈ i.values ↔ x ∈ i := by
  rw [values, memRun i.sizeFits, memExact, size]
  omega

theorem valuesAscend (i : Interval) : i.values.Pairwise (· < ·) := runAscends i.sizeFits

theorem runLength {n : Nat} {x : Int64} : (run n x).length = n := by
  induction n generalizing x with
  | zero => rfl
  | succ n ih => rw [run, List.length_cons, ih]

theorem valuesLength (i : Interval) : i.values.length = i.size := runLength

end Interval

namespace Domain

theorem absorbAbove {n : Int} {i : Interval} {is : List Interval} (first : n < i.lo.toInt)
    (rest : ∀ j ∈ is, n < j.lo.toInt) : ∀ k ∈ absorb i is, n < k.lo.toInt := by
  induction is generalizing i with
  | nil => simpa [absorb] using first
  | cons j js ih =>
    have next := rest j (by simp)
    have later : ∀ k ∈ js, n < k.lo.toInt := fun k hk => rest k (List.mem_cons_of_mem _ hk)
    rw [absorb]
    split
    · exact List.forall_mem_cons.mpr ⟨first, rest⟩
    · split
      · exact List.forall_mem_cons.mpr ⟨next, ih first later⟩
      · exact ih (by rw [minToInt]; omega) later

theorem absorbSeparated {i : Interval} {is : List Interval} (proper : i.lo.toInt ≤ i.hi.toInt)
    (h : Separated is) : Separated (absorb i is) := by
  induction is generalizing i with
  | nil => exact .single (Int64.le_iff_toInt_le.mpr proper)
  | cons j js ih =>
    have second := h.proper (i := j) (by simp)
    rw [absorb]
    split
    · exact .cons (Int64.le_iff_toInt_le.mpr proper) (by assumption) h
    · split
      · exact .prepend second (absorbAbove (by assumption) fun k => h.apart) (ih proper h.tail)
      · exact ih (by simp only [minToInt, maxToInt]; omega) h.tail

theorem absorbExact {i : Interval} {is : List Interval} (proper : i.lo.toInt ≤ i.hi.toInt)
    (h : Separated is) {x : Int64} :
    (∃ k ∈ absorb i is, x ∈ k) ↔ x ∈ i ∨ ∃ k ∈ is, x ∈ k := by
  induction is generalizing i with
  | nil => simp [absorb]
  | cons j js ih =>
    have second := h.proper (i := j) (by simp)
    rw [absorb]
    split
    · simp
    · split
      · simp only [List.mem_cons, exists_eq_or_imp, ih proper h.tail]
        tauto
      · rw [ih (by simp only [minToInt, maxToInt]; omega) h.tail,
          Interval.memHull proper second (by omega) (by omega), or_assoc]
        simp only [List.mem_cons, exists_eq_or_imp]

theorem ofIntervalsCanonical (is : List Interval) : (ofIntervals is).Canonical := by
  induction is with
  | nil => exact .nil
  | cons i is ih =>
    by_cases proper : i.lo ≤ i.hi
    · simp only [Canonical, ofIntervals, List.filter_cons, decide_eq_true proper, if_true,
        List.foldr_cons]
      exact absorbSeparated (Int64.le_iff_toInt_le.mp proper) ih
    · simpa only [Canonical, ofIntervals, List.filter_cons, decide_eq_true_eq, if_neg proper]
        using ih

theorem ofIntervalsExact {is : List Interval} {x : Int64} :
    x ∈ ofIntervals is ↔ ∃ i ∈ is, x ∈ i := by
  induction is with
  | nil => simp [ofIntervals, memExact]
  | cons i is ih =>
    by_cases proper : i.lo ≤ i.hi
    · have known := Int64.le_iff_toInt_le.mp proper
      simp only [List.mem_cons, exists_eq_or_imp, ← ih]
      simpa only [memExact, ofIntervals, List.filter_cons, decide_eq_true proper, if_true,
        List.foldr_cons] using absorbExact known (ofIntervalsCanonical is)
    · have inside : ¬ x ∈ i := by
        rw [Interval.memExact]
        rw [Int64.le_iff_toInt_le] at proper
        omega
      simpa only [memExact, ofIntervals, List.filter_cons, decide_eq_true_eq, if_neg proper,
        List.mem_cons, exists_eq_or_imp, inside, false_or] using ih

theorem ofValuesExact {xs : List Int64} {x : Int64} : x ∈ ofValues xs ↔ x ∈ xs := by
  simp [ofValues, ofIntervalsExact, Interval.memPoint]

theorem gapsExact {start : Int} {is : List Interval} (h : Separated is)
    (least : Int64.minValue.toInt ≤ start) (below : ∀ i ∈ is, start ≤ i.lo.toInt) {x : Int64} :
    (∃ k ∈ gaps start is, x ∈ k) ↔ start ≤ x.toInt ∧ ∀ i ∈ is, x ∉ i := by
  have greatest := x.toInt_le
  have top := Int64.toInt_maxValue
  have bottom := Int64.toInt_minValue
  induction is generalizing start with
  | nil =>
    rw [gaps]
    split
    · have exact := Int64.toInt_ofInt_of_le (n := start) (by omega) (by omega)
      simp [Interval.memExact, exact, greatest]
    · simp only [List.not_mem_nil, false_and, exists_false, false_iff]
      omega
  | cons i is ih =>
    have first := below i (by simp)
    have proper := h.proper (i := i) (by simp)
    have next : ∀ j ∈ is, i.hi.toInt + 1 ≤ j.lo.toInt := fun j hj => (h.apart hj).le
    have rest := ih h.tail (by omega) next
    -- A value up to the end of the first interval is in none of the later ones.
    have beyond : (∀ j ∈ is, x ∉ j) ∨ i.hi.toInt + 1 ≤ x.toInt := by
      by_contra other
      simp only [not_or, not_forall, not_not] at other
      obtain ⟨⟨j, hj, inside⟩, _⟩ := other
      have := h.apart hj
      have := Interval.memExact.mp inside
      omega
    rw [gaps]
    split
    · have exact := Int64.toInt_ofInt_of_le (n := start) (by omega) (by have := i.lo.toInt_lt; omega)
      have pred := predToInt (x := i.lo) (by omega)
      simp only [List.mem_cons, exists_eq_or_imp, forall_eq_or_imp, rest]
      rw [Interval.memExact, Interval.memExact, exact, pred]
      by_cases free : ∀ j ∈ is, x ∉ j
      · simp only [eq_true free, and_true]
        omega
      · have := beyond.resolve_left free
        simp only [free, and_false, or_false, iff_false]
        omega
    · have same : start = i.lo.toInt := by omega
      simp only [List.mem_cons, forall_eq_or_imp, rest]
      rw [Interval.memExact]
      by_cases free : ∀ j ∈ is, x ∉ j
      · simp only [eq_true free, and_true]
        omega
      · simp only [free, and_false]

theorem gapsAbove {start : Int} {is : List Interval} (h : Separated is)
    (least : Int64.minValue.toInt ≤ start) (below : ∀ i ∈ is, start ≤ i.lo.toInt) :
    ∀ k ∈ gaps start is, start ≤ k.lo.toInt := by
  have top := Int64.toInt_maxValue
  have bottom := Int64.toInt_minValue
  induction is generalizing start with
  | nil =>
    rw [gaps]
    split
    · simpa using (Int64.toInt_ofInt_of_le (n := start) (by omega) (by omega)).ge
    · simp
  | cons i is ih =>
    have first := below i (by simp)
    have proper := h.proper (i := i) (by simp)
    have later : ∀ k ∈ gaps (i.hi.toInt + 1) is, start ≤ k.lo.toInt := fun k hk => by
      have := ih h.tail (by omega) (fun j hj => (h.apart hj).le) k hk
      omega
    rw [gaps]
    split
    · have exact := Int64.toInt_ofInt_of_le (n := start) (by omega) (by have := i.lo.toInt_lt; omega)
      exact List.forall_mem_cons.mpr ⟨exact.ge, later⟩
    · exact later

theorem gapsSeparated {start : Int} {is : List Interval} (h : Separated is)
    (least : Int64.minValue.toInt ≤ start) (below : ∀ i ∈ is, start ≤ i.lo.toInt) :
    Separated (gaps start is) := by
  have top := Int64.toInt_maxValue
  have bottom := Int64.toInt_minValue
  induction is generalizing start with
  | nil =>
    rw [gaps]
    split
    · have exact := Int64.toInt_ofInt_of_le (n := start) (by omega) (by omega)
      exact .single (Int64.le_iff_toInt_le.mpr (by rw [exact]; omega))
    · exact .nil
  | cons i is ih =>
    have first := below i (by simp)
    have proper := h.proper (i := i) (by simp)
    have next : ∀ j ∈ is, i.hi.toInt + 1 ≤ j.lo.toInt := fun j hj => (h.apart hj).le
    have rest := ih h.tail (by omega) next
    rw [gaps]
    split
    · have exact := Int64.toInt_ofInt_of_le (n := start) (by omega) (by have := i.lo.toInt_lt; omega)
      have pred := predToInt (x := i.lo) (by omega)
      refine .prepend (by rw [exact, pred]; omega) (fun k hk => ?_) rest
      have := gapsAbove h.tail (by omega) next k hk
      rw [pred]
      omega
    · exact rest

theorem complementExact {d : Domain} (canonical : d.Canonical) {x : Int64} :
    x ∈ d.complement ↔ x ∉ d := by
  have least := gapsExact canonical le_rfl (fun i _ => i.lo.minValue_le_toInt) (x := x)
  simp only [complement, memExact, least, x.minValue_le_toInt, true_and, not_exists, not_and]

theorem complementCanonical {d : Domain} (canonical : d.Canonical) : d.complement.Canonical :=
  gapsSeparated canonical le_rfl fun i _ => i.lo.minValue_le_toInt

theorem imageExact {i k : Interval} (lo : k.lo.toInt = 1 - i.hi.toInt)
    (hi : k.hi.toInt = 1 - i.lo.toInt) {x : Int64} :
    x ∈ k ↔ ∃ y ∈ i, x.toInt = 1 - y.toInt := by
  simp only [Interval.memExact]
  constructor
  · intro inside
    have least := i.lo.le_toInt
    have greatest := i.hi.toInt_lt
    have exact := Int64.toInt_ofInt_of_le (n := 1 - x.toInt) (by omega) (by omega)
    exact ⟨.ofInt (1 - x.toInt), by omega, by omega⟩
  · rintro ⟨y, inside, image⟩
    omega

theorem negateBooleanExact {d e : Domain} (ok : d.negateBoolean = .ok e) {x : Int64} :
    x ∈ e ↔ ∃ y ∈ d, x.toInt = 1 - y.toInt := by
  simp only [negateBoolean, bindOk, pureOk, mapMOk, ConstraintAlgebra.complementExact] at ok
  obtain ⟨images, mapped, rfl⟩ := ok
  rw [ofIntervalsExact]
  simp only [memExact]
  generalize d.intervals = is at mapped
  induction mapped with
  | nil => simp
  | cons image rest ih =>
    obtain ⟨lo, hlo, hi, hhi, rfl⟩ := image
    have first := imageExact (k := ⟨lo, hi⟩) hlo hhi (x := x)
    simp only [List.mem_cons, or_and_right, exists_or, exists_eq_left, ih, first]

theorem negateBooleanTotal {d e : Domain} (ok : d.negateBoolean = .ok e) {y : Int64} (mem : y ∈ d) :
    ∃ x, complementWord y = .ok x := by
  simp only [negateBoolean, bindOk, pureOk, mapMOk, ConstraintAlgebra.complementExact] at ok
  obtain ⟨images, mapped, _⟩ := ok
  obtain ⟨i, hi, inside⟩ := mem
  obtain ⟨_, _, lo, hlo, hi, hhi, rfl⟩ := relatedTo mapped hi
  have ends := Interval.memExact.mp inside
  obtain ⟨x, image⟩ := wordBetween (show lo.toInt ≤ 1 - y.toInt by omega)
    (show 1 - y.toInt ≤ hi.toInt by omega)
  exact ⟨x, ConstraintAlgebra.complementExact.mpr image⟩

theorem negateBooleanExists {d : Domain} (images : ∀ i ∈ d.intervals,
    (∃ x, complementWord i.hi = .ok x) ∧ ∃ y, complementWord i.lo = .ok y) :
    ∃ e, d.negateBoolean = .ok e := by
  have each : ∀ i ∈ d.intervals, ∃ k, (do
      return Interval.mk (← complementWord i.hi) (← complementWord i.lo)) = Except.ok k := by
    intro i mem
    obtain ⟨⟨x, first⟩, y, last⟩ := images i mem
    exact ⟨⟨x, y⟩, by rw [first, last]; rfl⟩
  obtain ⟨ks, mapped⟩ := relate each
  exact ⟨ofIntervals ks, bindOk.mpr ⟨ks, mapMOk.mpr mapped, rfl⟩⟩

theorem negateBooleanCanonical {d e : Domain} (ok : d.negateBoolean = .ok e) : e.Canonical := by
  simp only [negateBoolean, bindOk, pureOk] at ok
  obtain ⟨images, _, rfl⟩ := ok
  exact ofIntervalsCanonical images

theorem intervalExact {lo hi : Int64} {d : Domain} (ok : interval lo hi = .ok d) :
    lo ≤ hi ∧ d = ⟨[⟨lo, hi⟩]⟩ := by
  rw [interval] at ok
  split at ok
  · cases ok; exact ⟨by assumption, rfl⟩
  · contradiction

theorem constantExact {x y : Int64} : y ∈ constant x ↔ y = x := by
  simp [constant, memExact, Interval.memPoint]

theorem minExact {d : Domain} (canonical : d.Canonical) {lo : Int64} (ok : d.min = .ok lo) :
    lo ∈ d ∧ ∀ x ∈ d, lo.toInt ≤ x.toInt := by
  obtain ⟨is⟩ := d
  cases is with
  | nil => simp [min] at ok
  | cons i is =>
    cases ok
    refine ⟨⟨i, by simp, Interval.memExact.mpr ⟨le_rfl, canonical.proper (by simp)⟩⟩, ?_⟩
    rintro x ⟨j, hj, inside⟩
    have lower := (Interval.memExact.mp inside).1
    have first := canonical.proper (i := i) (by simp)
    rcases List.mem_cons.mp hj with rfl | later
    · exact lower
    · have := canonical.apart later
      omega

theorem maxExact {d : Domain} (canonical : d.Canonical) {hi : Int64} (ok : d.max = .ok hi) :
    hi ∈ d ∧ ∀ x ∈ d, x.toInt ≤ hi.toInt := by
  obtain ⟨is⟩ := d
  rcases List.eq_nil_or_concat is with rfl | ⟨is, i, rfl⟩
  · simp [max] at ok
  · have pairs := separatedPairwise.mp canonical
    simp only [max, List.concat_eq_append, List.getLast?_append, List.getLast?_singleton,
      Option.some_or, Except.ok.injEq] at ok
    subst ok
    refine ⟨⟨i, by simp, Interval.memExact.mpr ⟨canonical.proper (by simp), le_rfl⟩⟩, ?_⟩
    rintro x ⟨j, hj, inside⟩
    have upper := (Interval.memExact.mp inside).2
    simp only [List.concat_eq_append, List.mem_append, List.mem_singleton] at hj
    rcases hj with before | rfl
    · simp only [List.concat_eq_append, List.pairwise_append] at pairs
      have gap := pairs.1.2.2 j before i (by simp)
      have last := pairs.2 i (by simp)
      omega
    · exact upper

theorem minExists {d : Domain} (inhabited : d.intervals ≠ []) : ∃ lo, d.min = .ok lo := by
  obtain ⟨is⟩ := d
  cases is with
  | nil => exact absurd rfl inhabited
  | cons i is => exact ⟨i.lo, rfl⟩

theorem maxExists {d : Domain} (inhabited : d.intervals ≠ []) : ∃ hi, d.max = .ok hi := by
  rw [max, List.getLast?_eq_some_getLast inhabited]
  exact ⟨_, rfl⟩

theorem memberExists {d : Domain} (canonical : d.Canonical) (inhabited : d.intervals ≠ []) :
    ∃ x, x ∈ d := by
  obtain ⟨lo, least⟩ := minExists inhabited
  exact ⟨lo, (minExact canonical least).1⟩

theorem memValues {d : Domain} {x : Int64} : x ∈ d.values ↔ x ∈ d := by
  simp only [values, List.mem_flatMap, Interval.memValues]
  rfl

theorem valuesAscend {d : Domain} (canonical : d.Canonical) : d.values.Pairwise (· < ·) := by
  rw [values, List.pairwise_flatMap]
  refine ⟨fun i _ => i.valuesAscend, (separatedPairwise.mp canonical).1.imp fun apart x left y right => ?_⟩
  have := (Interval.memExact.mp (Interval.memValues.mp left)).2
  have := (Interval.memExact.mp (Interval.memValues.mp right)).1
  rw [Int64.lt_iff_toInt_lt]
  omega

theorem valuesLength (d : Domain) : d.values.length = d.size := by
  rw [values, size]
  induction d.intervals with
  | nil => rfl
  | cons i is ih =>
    rw [List.flatMap_cons, List.length_append, i.valuesLength, ih, List.foldr_cons]

theorem intersectsExact {d e : Domain} {x : Int64} (left : x ∈ d) (right : x ∈ e) :
    d.intersects e = true := by
  obtain ⟨i, hi, inLeft⟩ := left
  obtain ⟨j, hj, inRight⟩ := right
  simp only [intersects, intersectsRange, List.any_eq_true]
  exact ⟨i, hi, j, hj, Interval.overlapsMet inRight inLeft⟩

theorem isSubsetExact {d e : Domain} (ok : d.isSubset e = true) {x : Int64} (mem : x ∈ d) :
    x ∈ e := by
  obtain ⟨i, hi, inside⟩ := mem
  simp only [isSubset, List.all_eq_true, List.any_eq_true] at ok
  obtain ⟨j, hj, within⟩ := ok i hi
  simp only [Interval.within, Bool.and_eq_true, decide_eq_true_eq, Int64.le_iff_toInt_le] at within
  simp only [Interval.memExact] at inside
  exact ⟨j, hj, Interval.memExact.mpr (by omega)⟩

theorem intersectsShared {d e : Domain} (left : d.Canonical) (right : e.Canonical)
    (ok : d.intersects e = true) : ∃ x ∈ d, x ∈ e := by
  simp only [intersects, intersectsRange, List.any_eq_true] at ok
  obtain ⟨i, hi, j, hj, overlap⟩ := ok
  obtain ⟨x, second, first⟩ := Interval.overlapsShared (right.proper hj) (left.proper hi) overlap
  exact ⟨x, ⟨i, hi, first⟩, j, hj, second⟩

/- Past the end of a covering interval the next one would have to follow without a gap. -/
theorem isSubsetCovered {d e : Domain} (left : d.Canonical) (right : e.Canonical)
    (covered : ∀ x ∈ d, x ∈ e) : d.isSubset e = true := by
  simp only [isSubset, List.all_eq_true, List.any_eq_true]
  intro i hi
  have proper := left.proper hi
  obtain ⟨j, hj, start⟩ := covered i.lo ⟨i, hi, Interval.memExact.mpr ⟨le_rfl, proper⟩⟩
  have start := Interval.memExact.mp start
  refine ⟨j, hj, ?_⟩
  simp only [Interval.within, Bool.and_eq_true, decide_eq_true_eq, Int64.le_iff_toInt_le]
  by_contra short
  have next := succToInt (x := j.hi) (by have := i.hi.toInt_le; omega)
  obtain ⟨k, hk, beyond⟩ := covered (j.hi + 1) ⟨i, hi, Interval.memExact.mpr (by omega)⟩
  have beyond := Interval.memExact.mp beyond
  rcases right.pairwise hj hk with rfl | later | earlier <;> omega

inductive Built : Domain → Prop where
  | empty : Built empty
  | interval {lo hi d} (ok : interval lo hi = .ok d) : Built d
  | constant (x) : Built (constant x)
  | values (xs) : Built (ofValues xs)
  | intervals (is) : Built (ofIntervals is)
  | complement {d} (built : Built d) : Built d.complement
  | negation {d e} (built : Built d) (ok : d.negateBoolean = .ok e) : Built e

theorem builtCanonical {d : Domain} (built : d.Built) : d.Canonical := by
  induction built with
  | empty => exact .nil
  | interval ok =>
    obtain ⟨le, rfl⟩ := intervalExact ok
    exact .single le
  | constant x => exact .single (Int64.le_refl x)
  | values xs => exact ofIntervalsCanonical _
  | intervals is => exact ofIntervalsCanonical is
  | complement _ canonical => exact complementCanonical canonical
  | negation _ ok => exact negateBooleanCanonical ok

end Domain

end ConstraintAlgebra
