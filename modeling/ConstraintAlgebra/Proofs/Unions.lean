import ConstraintAlgebra.Proofs.Bisection
import ConstraintAlgebra.Proofs.DomainForms

/-! Unions of intervals. Taking the intervals in one by one, in any order, gives the same domain as
sorting them and sweeping over them once: both have the values of the list, and a set has one form. -/
namespace ConstraintAlgebra

def Interval.precedes (i j : Interval) : Bool := i.lo < j.lo || i.lo == j.lo && i.hi ≤ j.hi

def saturatingNext (x : Int64) : Int64 := if x = Int64.maxValue then x else x + 1

namespace Domain

def sweepTurn (swept : List Interval) (i : Interval) : List Interval :=
  match swept with
  | [] => [i]
  | last :: before =>
    if i.lo ≤ saturatingNext last.hi then ⟨last.lo, Max.max last.hi i.hi⟩ :: before
    else i :: last :: before

def sweep (is : List Interval) : Domain :=
  ⟨(((is.filter fun i => i.lo ≤ i.hi).mergeSort Interval.precedes).foldl sweepTurn []).reverse⟩

variable {is js swept : List Interval} {i j : Interval} {x : Int64}

theorem precedesTrans (i j k : Interval) (first : i.precedes j = true) (second : j.precedes k = true) :
    i.precedes k = true := by
  simp only [Interval.precedes, Bool.or_eq_true, Bool.and_eq_true, decide_eq_true_eq, beq_iff_eq,
    Int64.lt_iff_toInt_lt, Int64.le_iff_toInt_le, ← Int64.toInt_inj] at *
  omega

theorem precedesTotal (i j : Interval) : (i.precedes j || j.precedes i) = true := by
  simp only [Interval.precedes, Bool.or_eq_true, Bool.and_eq_true, decide_eq_true_eq, beq_iff_eq,
    Int64.lt_iff_toInt_lt, Int64.le_iff_toInt_le, ← Int64.toInt_inj]
  omega

theorem precedesStart (precedes : i.precedes j = true) : i.lo.toInt ≤ j.lo.toInt := by
  simp only [Interval.precedes, Bool.or_eq_true, Bool.and_eq_true, decide_eq_true_eq, beq_iff_eq,
    Int64.lt_iff_toInt_lt, Int64.le_iff_toInt_le, ← Int64.toInt_inj] at precedes
  omega

/- At the greatest value nothing can lie beyond, so saturation loses no gap. -/
theorem touches : i.lo ≤ saturatingNext j.hi ↔ i.lo.toInt ≤ j.hi.toInt + 1 := by
  rw [saturatingNext, Int64.le_iff_toInt_le]
  split
  · rename_i greatest
    have most := i.lo.toInt_le
    rw [greatest]
    omega
  · rename_i other
    have inside : j.hi.toInt < Int64.maxValue.toInt := by
      have most := j.hi.toInt_le
      have different : j.hi.toInt ≠ Int64.maxValue.toInt := fun same => other (Int64.toInt_inj.mp same)
      omega
    rw [succToInt inside]

structure Swept (swept : List Interval) : Prop where
  proper : ∀ k ∈ swept, k.lo.toInt ≤ k.hi.toInt
  apart : swept.Pairwise fun later earlier => earlier.hi.toInt + 1 < later.lo.toInt

theorem Swept.separated (h : Swept swept) : Separated swept.reverse :=
  separatedPairwise.mpr ⟨List.pairwise_reverse.mpr h.apart,
    fun k mem => h.proper k (List.mem_reverse.mp mem)⟩

theorem sweepTurnSwept (h : Swept swept) (proper : i.lo.toInt ≤ i.hi.toInt)
    (before : ∀ k ∈ swept, k.lo.toInt ≤ i.lo.toInt) : Swept (sweepTurn swept i) := by
  cases swept with
  | nil => exact ⟨by simpa [sweepTurn] using proper, by simp [sweepTurn]⟩
  | cons last earlier =>
    obtain ⟨first, others⟩ := List.forall_mem_cons.mp h.proper
    obtain ⟨gaps, apart⟩ := List.pairwise_cons.mp h.apart
    rw [sweepTurn]
    split
    · refine ⟨List.forall_mem_cons.mpr ⟨?_, others⟩, List.pairwise_cons.mpr ⟨gaps, apart⟩⟩
      change last.lo.toInt ≤ (Max.max last.hi i.hi).toInt
      rw [maxToInt]
      omega
    · rename_i beyond
      rw [touches] at beyond
      refine ⟨List.forall_mem_cons.mpr ⟨proper, h.proper⟩, List.pairwise_cons.mpr ⟨?_, h.apart⟩⟩
      refine List.forall_mem_cons.mpr ⟨by omega, fun k mem => ?_⟩
      have gap := gaps k mem
      omega

theorem sweepTurnBefore (before : ∀ k ∈ swept, k.lo.toInt ≤ i.lo.toInt) :
    ∀ k ∈ sweepTurn swept i, k.lo.toInt ≤ i.lo.toInt := by
  cases swept with
  | nil => simp [sweepTurn]
  | cons last earlier =>
    rw [sweepTurn]
    split
    · exact List.forall_mem_cons.mpr (List.forall_mem_cons.mp before)
    · exact List.forall_mem_cons.mpr ⟨le_rfl, before⟩

theorem sweepTurnExact (h : Swept swept)
    (before : ∀ k ∈ swept, k.lo.toInt ≤ i.lo.toInt) :
    (∃ k ∈ sweepTurn swept i, x ∈ k) ↔ (∃ k ∈ swept, x ∈ k) ∨ x ∈ i := by
  cases swept with
  | nil => simp [sweepTurn]
  | cons last earlier =>
    have first := h.proper last (by simp)
    have start := before last (by simp)
    rw [sweepTurn]
    split
    · rename_i touching
      rw [touches] at touching
      have hull : x ∈ Interval.mk last.lo (Max.max last.hi i.hi) ↔ x ∈ last ∨ x ∈ i := by
        simp only [Interval.memExact, maxToInt]
        omega
      simp only [List.mem_cons, exists_eq_or_imp, hull]
      exact or_right_comm
    · simp only [List.mem_cons, exists_eq_or_imp]
      exact or_comm

theorem sweepExact (h : Swept swept) (proper : ∀ i ∈ is, i.lo.toInt ≤ i.hi.toInt)
    (sorted : is.Pairwise fun i j => i.lo.toInt ≤ j.lo.toInt)
    (before : ∀ i ∈ is, ∀ k ∈ swept, k.lo.toInt ≤ i.lo.toInt) :
    Swept (is.foldl sweepTurn swept) ∧
      ∀ x, (∃ k ∈ is.foldl sweepTurn swept, x ∈ k) ↔ (∃ k ∈ swept, x ∈ k) ∨ ∃ i ∈ is, x ∈ i := by
  induction is generalizing swept with
  | nil => simpa using h
  | cons i is ih =>
    obtain ⟨first, others⟩ := List.forall_mem_cons.mp proper
    obtain ⟨start, later⟩ := List.pairwise_cons.mp sorted
    obtain ⟨here, ahead⟩ := List.forall_mem_cons.mp before
    have next := ih (sweepTurnSwept h first here) others later fun j mem k found =>
      (sweepTurnBefore here k found).trans (start j mem)
    refine ⟨next.1, fun x => ?_⟩
    rw [List.foldl_cons, next.2, sweepTurnExact h here, or_assoc]
    simp only [List.mem_cons, exists_eq_or_imp]

theorem sweepUnion (is : List Interval) : sweep is = ofIntervals is := by
  let proper := is.filter fun i => i.lo ≤ i.hi
  let sorted := proper.mergeSort Interval.precedes
  have members : ∀ i, i ∈ sorted ↔ i ∈ is ∧ i.lo.toInt ≤ i.hi.toInt := fun i => by
    simp only [sorted, proper, List.mem_mergeSort, List.mem_filter, decide_eq_true_eq,
      Int64.le_iff_toInt_le]
  have order : sorted.Pairwise fun i j => i.lo.toInt ≤ j.lo.toInt :=
    (List.pairwise_mergeSort precedesTrans precedesTotal proper).imp precedesStart
  have nothing : Swept [] := ⟨by simp, .nil⟩
  have swept := sweepExact nothing (fun i mem => ((members i).mp mem).2) order (by simp)
  refine canonicalUnique swept.1.separated (ofIntervalsCanonical is) fun x => ?_
  rw [ofIntervalsExact, memExact]
  change (∃ k ∈ (sorted.foldl sweepTurn []).reverse, x ∈ k) ↔ _
  simp only [List.mem_reverse, swept.2, List.not_mem_nil, false_and, exists_false, false_or, members]
  constructor
  · intro held
    obtain ⟨i, mem, inside⟩ := held
    exact ⟨i, mem.1, inside⟩
  · intro held
    obtain ⟨i, mem, inside⟩ := held
    have ends := Interval.memExact.mp inside
    exact ⟨i, ⟨mem, by omega⟩, inside⟩

theorem ofIntervalsPerm (same : is.Perm js) : ofIntervals is = ofIntervals js := by
  refine canonicalUnique (ofIntervalsCanonical is) (ofIntervalsCanonical js) fun x => ?_
  rw [ofIntervalsExact, ofIntervalsExact]
  exact exists_congr fun i => and_congr_left' same.mem_iff

theorem unionExact (is : List Interval) :
    (∀ x, (ofIntervals is).contains x = true ↔ ∃ i ∈ is, i.lo ≤ x ∧ x ≤ i.hi) ∧
      (∀ js, is.Perm js → ofIntervals is = ofIntervals js) ∧
      sweep is = ofIntervals is ∧
      ∀ x, (ofIntervals is).bisects x = (ofIntervals is).contains x := by
  refine ⟨fun x => ?_, fun js => ofIntervalsPerm, sweepUnion is, fun x => ?_⟩
  · rw [containsExact, ofIntervalsExact]
    rfl
  · rw [Bool.eq_iff_iff, containsExact, bisectsExact (ofIntervalsCanonical is)]

theorem unionExactOnce :
    let is : List Interval := [⟨7, Int64.maxValue⟩, ⟨-3, 2⟩, ⟨5, 4⟩, ⟨3, 3⟩, ⟨9, 9⟩, ⟨-3, 2⟩]
    is.Perm is.reverse ∧ ofIntervals is = ofIntervals is.reverse ∧
      sweep is = ofIntervals is ∧ (ofIntervals is).contains 3 = true ∧
      ¬(ofIntervals is).contains 4 = true := by
  intro is
  obtain ⟨members, order, swept, _⟩ := unionExact is
  have reversed : is.Perm is.reverse := is.reverse_perm.symm
  refine ⟨reversed, order _ reversed, swept, (members 3).mpr ⟨⟨3, 3⟩, by decide, by decide⟩, ?_⟩
  exact fun held => absurd ((members 4).mp held) (by decide)

end Domain

end ConstraintAlgebra
