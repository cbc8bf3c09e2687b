import ConstraintAlgebra.Proofs.DomainSets

/-! Searching separated intervals by halving. A question about one value, or about one interval, needs
no look at all the others: the ends ascend, so the only interval that can answer it is found by
bisection. The answers are those of the plain tests, and these decide the relations of sets. -/
namespace ConstraintAlgebra

section Halving

variable {α : Type} {p : α → Bool}

def bisect (p : α → Bool) (xs : List α) (lo hi : Nat) : Nat :=
  if lo < hi then
    let mid := lo + (hi - lo) / 2
    match xs[mid]? with
    | some x => if p x then bisect p xs (mid + 1) hi else bisect p xs lo mid
    | none => lo
  else lo
termination_by hi - lo

def partitionPoint (p : α → Bool) (xs : List α) : Nat := bisect p xs 0 xs.length

theorem bisectExact {left right : List α} (holds : ∀ x ∈ left, p x = true)
    (fails : ∀ x ∈ right, p x = false) {lo hi : Nat} (below : lo ≤ left.length)
    (above : left.length ≤ hi) (inside : hi ≤ (left ++ right).length) :
    bisect p (left ++ right) lo hi = left.length := by
  fun_induction bisect p (left ++ right) lo hi with
  -- A midpoint that passes is on the left, and one that fails on the right.
  | case1 lo hi more mid x found passed ih =>
    refine ih ?_ above inside
    by_contra short
    rw [List.getElem?_append_right (by omega)] at found
    have failed := fails x (List.mem_of_getElem? found)
    rw [passed] at failed
    contradiction
  | case2 lo hi more mid x found failed ih =>
    refine ih below ?_ (by omega)
    by_contra long
    rw [List.getElem?_append_left (by omega)] at found
    exact failed (holds x (List.mem_of_getElem? found))
  | case3 lo hi more mid missing =>
    have outside := List.getElem?_eq_none_iff.mp missing
    omega
  | case4 lo hi stopped => omega

theorem partitioned {xs : List α} (ordered : xs.Pairwise fun x y => p y = true → p x = true) :
    ∃ left right, xs = left ++ right ∧ partitionPoint p xs = left.length ∧
      (∀ x ∈ left, p x = true) ∧ ∀ x ∈ right, p x = false := by
  suffices split : ∃ left right, xs = left ++ right ∧
      (∀ x ∈ left, p x = true) ∧ ∀ x ∈ right, p x = false by
    obtain ⟨left, right, rfl, holds, fails⟩ := split
    have found := bisectExact holds fails (Nat.zero_le _) (by simp) le_rfl
    exact ⟨left, right, rfl, found, holds, fails⟩
  induction xs with
  | nil => exact ⟨[], [], rfl, by simp, by simp⟩
  | cons x xs ih =>
    obtain ⟨first, rest⟩ := List.pairwise_cons.mp ordered
    by_cases passed : p x = true
    · obtain ⟨left, right, rfl, holds, fails⟩ := ih rest
      exact ⟨x :: left, right, rfl, List.forall_mem_cons.mpr ⟨passed, holds⟩, fails⟩
    · have failed := Bool.eq_false_of_not_eq_true passed
      refine ⟨[], x :: xs, rfl, by simp, List.forall_mem_cons.mpr ⟨failed, fun y mem => ?_⟩⟩
      exact Bool.eq_false_of_not_eq_true fun later => passed (first y mem later)

end Halving

namespace Domain

variable {d e : Domain} {i : Interval} {x : Int64}

def reaching (d : Domain) (x : Int64) : Option Interval :=
  d.intervals[partitionPoint (fun i => i.hi < x) d.intervals]?

def startingBy (d : Domain) (x : Int64) : Option Interval :=
  match partitionPoint (fun i => i.lo ≤ x) d.intervals with
  | 0 => none
  | n + 1 => d.intervals[n]?

def bisects (d : Domain) (x : Int64) : Bool := (d.reaching x).any fun i => i.lo ≤ x

def fits (d e : Domain) : Bool :=
  d.intervals.all fun i => (e.startingBy i.lo).any fun j => i.hi ≤ j.hi

theorem endsAscend (canonical : d.Canonical) :
    d.intervals.Pairwise fun i j => decide (j.hi < x) = true → decide (i.hi < x) = true := by
  obtain ⟨apart, proper⟩ := separatedPairwise.mp canonical
  refine apart.imp_of_mem fun {i j} _ mem gap => ?_
  have ordered := proper j mem
  simp only [decide_eq_true_eq, Int64.lt_iff_toInt_lt]
  omega

theorem startsAscend (canonical : d.Canonical) :
    d.intervals.Pairwise fun i j => decide (j.lo ≤ x) = true → decide (i.lo ≤ x) = true := by
  obtain ⟨apart, proper⟩ := separatedPairwise.mp canonical
  refine apart.imp_of_mem fun {i j} mem _ gap => ?_
  have ordered := proper i mem
  simp only [decide_eq_true_eq, Int64.le_iff_toInt_le]
  omega

theorem reachingNone (canonical : d.Canonical) (missing : d.reaching x = none) :
    ∀ i ∈ d.intervals, i.hi.toInt < x.toInt := by
  obtain ⟨left, right, same, place, ended, _⟩ := partitioned (endsAscend (x := x) canonical)
  simp only [decide_eq_true_eq, Int64.lt_iff_toInt_lt] at ended
  rw [reaching, place, same, List.getElem?_eq_none_iff, List.length_append] at missing
  have empty : right = [] := List.length_eq_zero_iff.mp (by omega)
  rw [same, empty, List.append_nil]
  exact ended

theorem reachingSome (canonical : d.Canonical) (found : d.reaching x = some i) :
    i ∈ d.intervals ∧ x.toInt ≤ i.hi.toInt ∧
      ∀ k ∈ d.intervals, x.toInt ≤ k.hi.toInt → k = i ∨ i.hi.toInt + 1 < k.lo.toInt := by
  obtain ⟨left, right, same, place, ended, reached⟩ := partitioned (endsAscend (x := x) canonical)
  simp only [decide_eq_true_eq, decide_eq_false_iff_not, Int64.lt_iff_toInt_lt] at ended reached
  rw [reaching, place, same, List.getElem?_append_right le_rfl, Nat.sub_self] at found
  have separated : Separated (left ++ right) := same ▸ canonical
  cases right with
  | nil => contradiction
  | cons j rest =>
    cases found
    refine ⟨by simp [same], Int.not_lt.mp (reached i (by simp)), fun k mem reaches => ?_⟩
    rw [same] at mem
    rcases List.mem_append.mp mem with before | after
    · have short := ended k before
      omega
    · have pairs := (List.pairwise_append.mp (separatedPairwise.mp separated).1).2.1
      exact (List.mem_cons.mp after).imp_right (List.rel_of_pairwise_cons pairs)

theorem startingByNone (canonical : d.Canonical) (missing : d.startingBy x = none) :
    ∀ i ∈ d.intervals, x.toInt < i.lo.toInt := by
  obtain ⟨left, right, same, place, _, later⟩ := partitioned (startsAscend (x := x) canonical)
  simp only [decide_eq_false_iff_not, Int64.le_iff_toInt_le] at later
  rw [startingBy, place, same] at missing
  cases left with
  | nil =>
    rw [same]
    exact fun i mem => Int.not_le.mp (later i mem)
  | cons j rest =>
    simp only [List.length_cons, List.getElem?_eq_none_iff, List.length_append] at missing
    omega

theorem startingBySome (canonical : d.Canonical) (found : d.startingBy x = some i) :
    i ∈ d.intervals ∧ i.lo.toInt ≤ x.toInt ∧
      ∀ k ∈ d.intervals, k.lo.toInt ≤ x.toInt → k = i ∨ k.hi.toInt + 1 < i.lo.toInt := by
  obtain ⟨left, right, same, place, started, later⟩ := partitioned (startsAscend (x := x) canonical)
  simp only [decide_eq_true_eq, decide_eq_false_iff_not, Int64.le_iff_toInt_le] at started later
  rw [startingBy, place, same] at found
  have separated : Separated (left ++ right) := same ▸ canonical
  rcases List.eq_nil_or_concat left with rfl | ⟨before, j, rfl⟩
  · contradiction
  · simp only [List.concat_eq_append, List.length_append, List.length_singleton,
      List.append_assoc, List.singleton_append, List.getElem?_append_right le_rfl, Nat.sub_self,
      List.getElem?_cons_zero] at found started separated same
    cases found
    refine ⟨by simp [same], started i (by simp), fun k mem starts => ?_⟩
    rw [same] at mem
    have pairs := (List.pairwise_append.mp (separatedPairwise.mp separated).1).2.2
    rcases List.mem_append.mp mem with earlier | after
    · exact .inr (pairs k earlier i (by simp))
    · exact .inl ((List.mem_cons.mp after).resolve_right fun beyond => later k beyond starts)

theorem bisectsExact (canonical : d.Canonical) : d.bisects x = true ↔ x ∈ d := by
  rw [bisects, memExact]
  cases found : d.reaching x with
  | none =>
    have short := reachingNone canonical found
    simp only [Option.any_none, Bool.false_eq_true, false_iff]
    intro held
    obtain ⟨i, mem, inside⟩ := held
    have ended := short i mem
    have reached := (Interval.memExact.mp inside).2
    omega
  | some i =>
    obtain ⟨mem, reaches, others⟩ := reachingSome canonical found
    rw [Option.any_some, decide_eq_true_eq, Int64.le_iff_toInt_le]
    constructor
    · intro starts
      exact ⟨i, mem, Interval.memExact.mpr ⟨starts, reaches⟩⟩
    · intro held
      obtain ⟨k, hk, inside⟩ := held
      obtain ⟨below, above⟩ := Interval.memExact.mp inside
      rcases others k hk above with same | beyond
      · rwa [← same]
      · omega

theorem fitsExact (left : d.Canonical) (right : e.Canonical) : d.fits e = d.isSubset e := by
  rw [fits, isSubset, Bool.eq_iff_iff, List.all_eq_true, List.all_eq_true]
  refine forall₂_congr fun i mem => ?_
  have proper := left.proper mem
  simp only [List.any_eq_true, Interval.within, Bool.and_eq_true, decide_eq_true_eq,
    Int64.le_iff_toInt_le]
  cases found : e.startingBy i.lo with
  | none =>
    have later := startingByNone right found
    simp only [Option.any_none, Bool.false_eq_true, false_iff]
    intro held
    obtain ⟨j, hj, starts, _⟩ := held
    have beyond := later j hj
    omega
  | some j =>
    obtain ⟨hj, starts, others⟩ := startingBySome right found
    rw [Option.any_some, decide_eq_true_eq]
    constructor
    · intro ends
      exact ⟨j, hj, starts, ends⟩
    · intro held
      obtain ⟨k, hk, begins, ends⟩ := held
      rcases others k hk begins with same | before
      · rwa [← same]
      · omega

theorem relationsExact (built : d.Built) (other : e.Built) :
    (d.isSubset e = true ↔ ∀ x, d.contains x = true → e.contains x = true) ∧
      (d.intersects e = true ↔ ∃ x, d.contains x = true ∧ e.contains x = true) ∧
      d.fits e = d.isSubset e := by
  have left := builtCanonical built
  have right := builtCanonical other
  simp only [containsExact]
  refine ⟨?_, ?_, fitsExact left right⟩
  · exact ⟨fun subset x => isSubsetExact subset, isSubsetCovered left right⟩
  · constructor
    · exact intersectsShared left right
    · intro held
      obtain ⟨x, inLeft, inRight⟩ := held
      exact intersectsExact inLeft inRight

theorem relationsExactOnce :
    let d := ofIntervals [⟨9, 9⟩, ⟨1, 3⟩]
    let e := ofIntervals [⟨2, Int64.maxValue⟩, ⟨0, 1⟩]
    d.Built ∧ e.Built ∧ (∀ x, d.contains x = true → e.contains x = true) ∧
      ¬∃ x, d.contains x = true ∧ e.complement.contains x = true := by
  intro d e
  have built : d.Built := .intervals _
  have other : e.Built := .intervals _
  have subset := (relationsExact built other).1.mp (by decide)
  have apart := (relationsExact built other.complement).2.1
  exact ⟨built, other, subset, fun common => absurd (apart.mpr common) (by decide)⟩

end Domain

end ConstraintAlgebra
