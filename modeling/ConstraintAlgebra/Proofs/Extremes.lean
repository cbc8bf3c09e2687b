import ConstraintAlgebra.Proofs.Growth
import ConstraintAlgebra.Proofs.Operands

/-! The greatest and the least of some operands. The declared range is the hull of the ranges of the
operands, so it holds whichever of their values is attained. -/
namespace ConstraintAlgebra

instance lawfulMax : Std.LawfulOrderMax Int64 where
  max_le_iff a b c := by
    simp only [Int64.le_iff_toInt_le, maxToInt]
    omega
  max_eq_or a b := by
    simp only [← Int64.toInt_inj, maxToInt]
    omega

instance lawfulMin : Std.LawfulOrderMin Int64 where
  le_min_iff a b c := by
    simp only [Int64.le_iff_toInt_le, minToInt]
    omega
  min_eq_or a b := by
    simp only [← Int64.toInt_inj, minToInt]
    omega

namespace Extreme

def Reaches : Extreme → Int → Int → Prop
  | greatest, v, w => w ≤ v
  | least, v, w => v ≤ w

def Tops (e : Extreme) (v : Int) (vs : List Int) : Prop := v ∈ vs ∧ ∀ w ∈ vs, e.Reaches v w

variable {e : Extreme} {xs : List Int64} {x : Int64}

theorem ofExact : e.of xs = some x ↔ e.Tops x.toInt (xs.map Int64.toInt) := by
  have mem : x.toInt ∈ xs.map Int64.toInt ↔ x ∈ xs := by simp [Int64.toInt_inj]
  rw [Tops, mem, List.forall_mem_map]
  cases e with
  | greatest =>
    simp only [of, List.max?_eq_some_iff, Int64.le_iff_toInt_le]
    rfl
  | least =>
    simp only [of, List.min?_eq_some_iff, Int64.le_iff_toInt_le]
    rfl

theorem ofExists (inhabited : xs ≠ []) : ∃ x, e.of xs = some x := by
  rw [← Option.isSome_iff_exists, ← Option.not_isNone, Bool.not_eq_true', ← Bool.not_eq_true,
    Option.isNone_iff_eq_none]
  cases e <;> simpa [of] using inhabited

end Extreme

namespace Model

variable {m n : Model} {a : Assignment} {ρ : Reading} {h : Handle} {e : Extreme}
  {items : List Operand} {vars : List Handle} {xs : List Int64} {t : Int64} {z : Operand}

theorem extremeHolds (values : List.Forall₂ (fun h x => a.value h = .ok x) vars xs)
    (value : a.value h = .ok t) :
    (e.constraint h vars).holds a = .ok (e.of xs == some t) := by
  have all := mapMOk.mpr values
  cases e <;> simp [Extreme.constraint, Constraint.holds, all, value, bind, Except.bind, pure,
    Except.pure, Extreme.of]

theorem valuesRead (reads : ρ.Reads a)
    (values : List.Forall₂ (fun h x => a.value h = .ok x) vars xs) :
    xs.map Int64.toInt = vars.map ρ.value := by
  induction values with
  | nil => rfl
  | cons value rest ih => rw [List.map_cons, List.map_cons, ih, reads _ _ value]

theorem extremeItemSettled {item : Operand} (proper : m.Proper) (small : n.Small)
    (ok : extremeItem e item m = .ok h n) : Settled m n fun ρ => ρ.value h = item.denote ρ := by
  rcases item with s | g
  · simp only [extremeItem, runBind, runLift] at ok
    obtain ⟨k, _, ⟨number, rfl⟩, ok⟩ := ok
    exact (newConstantSettled proper small ok).imp fun a ρ _ _ value =>
      value.trans (Scalar.numberOk number).symm
  · obtain ⟨rfl, rfl⟩ := runPure.mp ok
    exact settledSame proper fun _ _ _ _ => rfl

theorem extremeItemsSettled (proper : m.Proper) (small : n.Small)
    (ok : items.mapM (extremeItem e) m = .ok vars n) :
    Settled m n fun ρ => vars.map ρ.value = items.map (·.denote ρ) := by
  induction items generalizing m vars with
  | nil =>
    obtain ⟨rfl, rfl⟩ := runPure.mp ok
    exact settledSame proper fun _ _ _ _ => rfl
  | cons item items ih =>
    simp only [List.mapM_cons, runBind, runPure] at ok
    obtain ⟨h, k, first, vars, _, rest, rfl, rfl⟩ := ok
    have le := (keepsOk (keepsMapM (keepsExtremeItem e) items) rest).le
    have head := extremeItemSettled proper (smallOfLe le small) first
    exact (head.trans (ih head.proper rest)).imp fun a ρ _ _ both => by
      rw [List.map_cons, List.map_cons, both.1, both.2]

theorem envelopeExact {hull out : Interval} (ok : m.envelope vars hull = .ok out) :
    (out.lo.toInt ≤ hull.lo.toInt ∧ hull.hi.toInt ≤ out.hi.toInt) ∧
      ∀ h ∈ vars, ∃ range, m.bounds h = .ok range ∧
        out.lo.toInt ≤ range.lo.toInt ∧ range.hi.toInt ≤ out.hi.toInt := by
  induction vars generalizing hull with
  | nil =>
    cases ok
    simp
  | cons h rest ih =>
    simp only [envelope, bindOk] at ok
    obtain ⟨range, known, ok⟩ := ok
    obtain ⟨ends, others⟩ := ih ok
    simp only [minToInt, maxToInt] at ends
    exact ⟨by omega, List.forall_mem_cons.mpr ⟨⟨range, known, by omega⟩, others⟩⟩

theorem envelopeValues (proper : m.Proper) (admits : m.Admits a) {hull out : Interval}
    (ok : m.envelope vars hull = .ok out) :
    ∃ xs, List.Forall₂ (fun h x => a.value h = .ok x) vars xs ∧
      ∀ x ∈ xs, out.lo.toInt ≤ x.toInt ∧ x.toInt ≤ out.hi.toInt := by
  have each := (envelopeExact ok).2
  clear ok
  induction vars with
  | nil => exact ⟨[], .nil, by simp⟩
  | cons h rest ih =>
    obtain ⟨⟨range, known, lower, upper⟩, others⟩ := List.forall_mem_cons.mp each
    obtain ⟨x, value, mem⟩ := boundsExact proper admits known
    obtain ⟨xs, values, within⟩ := ih others
    have ends := Interval.memExact.mp mem
    exact ⟨x :: xs, .cons value values, List.forall_mem_cons.mpr ⟨by omega, within⟩⟩

theorem numbersDenote {op : Operation} {scalars : List Scalar} {numbers : List Int64}
    (ok : scalars.mapM (Scalar.number op) = .ok numbers) (ρ : Reading) :
    numbers.map Int64.toInt = (scalars.map Operand.scalar).map (·.denote ρ) := by
  have each := mapMOk.mp ok
  clear ok
  induction each with
  | nil => rfl
  | cons first rest ih =>
    rw [List.map_cons, List.map_cons, List.map_cons, ih, Operand.denote, Scalar.numberOk first]

theorem extremeTargetSettled {start hull : Interval} (proper : m.Proper) (inhabited : vars ≠ [])
    (enveloped : m.envelope vars start = .ok hull) (le : hull.lo ≤ hull.hi)
    (owned : ∀ g ∈ (Posted.mk (e.constraint h vars) none).handles,
      (m.extended ⟨⟨[⟨hull.lo, hull.hi⟩]⟩, ""⟩ [⟨e.constraint h vars, none⟩]).Owns g)
    (next : m.Next h) :
    Settled m (m.extended ⟨⟨[⟨hull.lo, hull.hi⟩]⟩, ""⟩ [⟨e.constraint h vars, none⟩])
      fun ρ => e.Tops (ρ.value h) (vars.map ρ.value) := by
  refine targetSettled proper le owned next fun a admits => ?_
  obtain ⟨xs, values, within⟩ := envelopeValues proper admits enveloped
  have nonempty : xs ≠ [] := by
    rintro rfl
    exact inhabited (List.forall₂_nil_right_iff.mp values)
  obtain ⟨x, attained⟩ := Extreme.ofExists (e := e) nonempty
  have tops := Extreme.ofExact.mp attained
  refine ⟨x, within x (by simpa [Int64.toInt_inj] using tops.1), fun y value => ?_,
    fun ρ reads value => ?_⟩
  · rw [extremeHolds (valuesPush values) value, attained, Except.ok.injEq, Bool.eq_iff_iff,
      beq_iff_eq, beq_iff_eq, Option.some.injEq, eq_comm]
  · rw [value, ← valuesRead reads values]
    exact tops

theorem extremeSettled (proper : m.Proper) (small : n.Small)
    (ok : extreme e items m = .ok z n) :
    Settled m n fun ρ => e.Tops (z.denote ρ) (items.map (·.denote ρ)) := by
  unfold extreme at ok
  cases split : Operand.scalars? items with
  | some scalars =>
    simp only [split, runBind, runLift] at ok
    obtain ⟨numbers, _, ⟨known, rfl⟩, ok⟩ := ok
    cases found : e.of numbers with
    | some x =>
      rw [found] at ok
      obtain ⟨rfl, rfl⟩ := runPure.mp ok
      refine settledSame proper fun a ρ _ _ => ?_
      rw [Operand.scalarsExact.mp split, ← numbersDenote known ρ]
      exact Extreme.ofExact.mp found
    | none =>
      rw [found] at ok
      exact absurd ok runThrow
  | none =>
    simp only [split, runBind, runAsk, runPure] at ok
    obtain ⟨vars, k, made, hull, _, ⟨enveloped, rfl⟩, h, _, declared, _, _, posted, rfl, rfl⟩ := ok
    obtain ⟨le, rfl, owned, next⟩ := targetOk declared posted
    have first := extremeItemsSettled proper (smallOfLe (leExtended k _ _) small) made
    have inhabited : vars ≠ [] := by
      cases items with
      | nil => contradiction
      | cons item items =>
        simp only [List.mapM_cons, runBind, runPure] at made
        obtain ⟨_, _, _, _, _, _, rfl, _⟩ := made
        exact List.cons_ne_nil _ _
    have target := extremeTargetSettled first.proper inhabited enveloped le owned (next small)
    exact (first.trans target).imp fun a ρ _ _ both => both.1 ▸ both.2

end Model

end ConstraintAlgebra
