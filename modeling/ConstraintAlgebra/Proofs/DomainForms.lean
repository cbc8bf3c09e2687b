import ConstraintAlgebra.Proofs.DomainSets

/-! One form for each set. Separated intervals are determined by the values in them, so domains that
were made in different ways are equal exactly when no value tells them apart. -/
namespace ConstraintAlgebra.Domain

variable {i j : Interval} {is js : List Interval} {x : Int64}

theorem Separated.beyond (h : Separated (i :: is)) (mem : ∃ k ∈ is, x ∈ k) :
    i.hi.toInt + 1 < x.toInt := by
  obtain ⟨k, later, inside⟩ := mem
  have gap := h.apart later
  have lower := (Interval.memExact.mp inside).1
  omega

theorem Separated.least (h : Separated (i :: is)) (mem : ∃ k ∈ i :: is, x ∈ k) :
    i.lo.toInt ≤ x.toInt := by
  have proper := h.proper (i := i) (by simp)
  rcases (List.exists_mem_cons_iff _ _ _).mp mem with first | later
  · exact (Interval.memExact.mp first).1
  · have := h.beyond later
    omega

theorem Separated.starts (h : Separated (i :: is)) : ∃ k ∈ i :: is, i.lo ∈ k :=
  ⟨i, by simp, Interval.memExact.mpr ⟨le_rfl, h.proper (by simp)⟩⟩

theorem Separated.endsWithin (right : Separated (j :: js)) (start : i.lo = j.lo)
    (subset : ∀ x, (∃ k ∈ i :: is, x ∈ k) → ∃ k ∈ j :: js, x ∈ k) :
    i.hi.toInt ≤ j.hi.toInt := by
  by_contra longer
  have proper := right.proper (i := j) (by simp)
  rw [← start] at proper
  have below : i.lo.toInt ≤ j.hi.toInt + 1 := by omega
  have above : j.hi.toInt + 1 ≤ i.hi.toInt := by omega
  obtain ⟨x, next⟩ := wordBetween below above
  have inside : x ∈ i := Interval.memExact.mpr ⟨by omega, by omega⟩
  rcases (List.exists_mem_cons_iff _ _ _).mp (subset x ⟨i, by simp, inside⟩) with first | later
  · have := (Interval.memExact.mp first).2
    omega
  · have := right.beyond later
    omega

theorem Separated.restWithin (left : Separated (i :: is))
    (subset : ∀ x, (∃ k ∈ i :: is, x ∈ k) → ∃ k ∈ i :: js, x ∈ k) :
    ∀ x, (∃ k ∈ is, x ∈ k) → ∃ k ∈ js, x ∈ k := by
  intro x mem
  have beyond := left.beyond mem
  have whole := subset x ((List.exists_mem_cons_iff _ _ _).mpr (.inr mem))
  refine ((List.exists_mem_cons_iff _ _ _).mp whole).resolve_left fun first => ?_
  have upper := (Interval.memExact.mp first).2
  omega

theorem separatedUnique (left : Separated is) (right : Separated js)
    (same : ∀ x, (∃ i ∈ is, x ∈ i) ↔ ∃ j ∈ js, x ∈ j) : is = js := by
  induction is generalizing js with
  | nil =>
    cases js with
    | nil => rfl
    | cons j js => simpa using (same j.lo).mpr right.starts
  | cons i is ih =>
    cases js with
    | nil => simpa using (same i.lo).mp left.starts
    | cons j js =>
      have above := left.least ((same j.lo).mpr right.starts)
      have below := right.least ((same i.lo).mp left.starts)
      have start : i.lo = j.lo := Int64.toInt_inj.mp (Int.le_antisymm above below)
      have within := right.endsWithin start fun x => (same x).mp
      have around := left.endsWithin start.symm fun x => (same x).mpr
      have stop : i.hi = j.hi := Int64.toInt_inj.mp (Int.le_antisymm within around)
      have first : i = j := by
        cases i
        cases j
        exact congrArg₂ Interval.mk start stop
      subst first
      have rest := ih left.tail right.tail fun x =>
        ⟨left.restWithin (fun x => (same x).mp) x, right.restWithin (fun x => (same x).mpr) x⟩
      rw [rest]

theorem canonicalUnique {d e : Domain} (left : d.Canonical) (right : e.Canonical)
    (same : ∀ x, x ∈ d ↔ x ∈ e) : d = e := by
  cases d
  cases e
  exact congrArg Domain.mk (separatedUnique left right same)

theorem formsExact {d e : Domain} (built : d.Built) (other : e.Built) :
    d.Canonical ∧ (d = e ↔ ∀ x, d.contains x = e.contains x) := by
  have canonical := builtCanonical built
  refine ⟨canonical, fun same x => by rw [same], fun same => ?_⟩
  refine canonicalUnique canonical (builtCanonical other) fun x => ?_
  rw [← containsExact, same x, containsExact]

theorem formsExactOnce :
    let d := ofIntervals [⟨7, Int64.maxValue⟩, ⟨-3, 2⟩, ⟨5, 4⟩, ⟨3, 3⟩, ⟨0, 1⟩]
    let e := (ofIntervals [⟨4, 6⟩, ⟨Int64.minValue, -4⟩]).complement
    d.Built ∧ e.Built ∧ d.Canonical ∧ ∀ x, d.contains x = e.contains x := by
  intro d e
  have built : d.Built := .intervals _
  have other : e.Built := .complement (.intervals _)
  have forms := formsExact built other
  exact ⟨built, other, forms.1, forms.2.mp (by decide)⟩

end ConstraintAlgebra.Domain
