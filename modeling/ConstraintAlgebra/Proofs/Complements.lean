import ConstraintAlgebra.Proofs.DomainForms

/-! Complements. The gaps are found by a cursor that runs along the intervals: it stands on the next
value that is not yet accounted for, and nowhere once the greatest value is passed. No step of it
leaves the width of a word, and taking the complement twice gives the domain back. -/
namespace ConstraintAlgebra.Domain

variable {d : Domain} {is : List Interval} {i : Interval} {start : Int} {x : Int64}

def gapBefore (cursor : Option Int64) (i : Interval) : Except Failure (List Interval) :=
  match cursor with
  | none => .ok []
  | some start => if start < i.lo then do return [⟨start, ← word (i.lo.toInt - 1)⟩] else .ok []

/-- The gaps that a cursor meets. The word before an interval may overflow; the one after it is then
missing. -/
def cursorGaps (cursor : Option Int64) : List Interval → Except Failure (List Interval)
  | [] => .ok (cursor.toList.map fun start => ⟨start, Int64.maxValue⟩)
  | i :: is => do
    let gap ← gapBefore cursor i
    return gap ++ (← cursorGaps (toWord? (i.hi.toInt + 1)) is)

def cursorComplement (d : Domain) : Except Failure Domain := do
  return ⟨← cursorGaps (some Int64.minValue) d.intervals⟩

theorem gapBeforeExact (least : Int64.minValue.toInt ≤ start) : gapBefore (toWord? start) i =
    .ok (if start < i.lo.toInt then [⟨.ofInt start, i.lo - 1⟩] else []) := by
  have most := i.lo.toInt_le
  cases cursor : toWord? start with
  | none =>
    have past : ¬start < i.lo.toInt := fun before => by
      rw [toWord?, if_pos ⟨least, by omega⟩] at cursor
      contradiction
    rw [if_neg past, gapBefore]
  | some w =>
    have exact := toWordExact.mp cursor
    simp only [gapBefore, Int64.lt_iff_toInt_lt, exact]
    split
    · rename_i before
      have pred : word (i.lo.toInt - 1) = .ok (i.lo - 1) :=
        wordExact.mpr (predToInt (x := i.lo) (by omega))
      rw [pred, ← exact, Int64.ofInt_toInt]
      rfl
    · rfl

theorem cursorGapsExact (least : Int64.minValue.toInt ≤ start) :
    cursorGaps (toWord? start) is = .ok (gaps start is) := by
  induction is generalizing start with
  | nil =>
    rw [cursorGaps, gaps, toWord?]
    by_cases inside : start ≤ Int64.maxValue.toInt
    · rw [if_pos ⟨least, inside⟩, if_pos inside]
      rfl
    · rw [if_neg (fun within => inside within.2), if_neg inside]
      rfl
  | cons i is ih =>
    have next : Int64.minValue.toInt ≤ i.hi.toInt + 1 := by
      have above := i.hi.minValue_le_toInt
      omega
    rw [cursorGaps, gapBeforeExact least, ih next, gaps]
    split
    · rfl
    · rfl

theorem cursorComplementExact (d : Domain) : d.cursorComplement = .ok d.complement := by
  have start : some Int64.minValue = toWord? Int64.minValue.toInt := (toWordExact.mpr rfl).symm
  rw [cursorComplement, start, cursorGapsExact le_rfl]
  rfl

theorem complementTwice (canonical : d.Canonical) : d.complement.complement = d := by
  have opposite := complementCanonical canonical
  refine canonicalUnique (complementCanonical opposite) canonical fun x => ?_
  rw [complementExact opposite, complementExact canonical, not_not]

theorem complementOpposes (built : d.Built) :
    (∀ x, d.complement.contains x = true ↔ ¬d.contains x = true) ∧
      d.cursorComplement = .ok d.complement ∧ d.complement.complement = d := by
  have canonical := builtCanonical built
  refine ⟨fun x => ?_, cursorComplementExact d, complementTwice canonical⟩
  rw [containsExact, containsExact, complementExact canonical]

theorem complementOpposesOnce :
    let d := ofIntervals [⟨4, Int64.maxValue⟩, ⟨Int64.minValue, -2⟩]
    d.Built ∧ d.complement = ⟨[⟨-1, 3⟩]⟩ ∧ d.cursorComplement = .ok ⟨[⟨-1, 3⟩]⟩ ∧
      d.complement.complement = d := by
  intro d
  have built : d.Built := .intervals _
  obtain ⟨_, computed, twice⟩ := complementOpposes built
  have gap : d.complement = ⟨[⟨-1, 3⟩]⟩ := by decide
  exact ⟨built, gap, computed.trans (congrArg Except.ok gap), twice⟩

end ConstraintAlgebra.Domain
