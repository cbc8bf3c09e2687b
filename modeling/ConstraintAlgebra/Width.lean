import ConstraintAlgebra.Failure

/-! Results of exact integer arithmetic brought back to a fixed width. -/
namespace ConstraintAlgebra

def toWord? (n : Int) : Option Int64 :=
  if Int64.minValue.toInt ≤ n ∧ n ≤ Int64.maxValue.toInt then some (.ofInt n) else none

theorem toWordExact {n : Int} {x : Int64} : toWord? n = some x ↔ x.toInt = n := by
  constructor
  · intro h
    simp only [toWord?, Option.ite_none_right_eq_some, Option.some.injEq] at h
    have least := Int64.toInt_minValue
    have greatest := Int64.toInt_maxValue
    rw [← h.2, Int64.toInt_ofInt_of_le (by omega) (by omega)]
  · rintro rfl
    rw [toWord?, if_pos ⟨x.minValue_le_toInt, x.toInt_le⟩, Int64.ofInt_toInt]

def word (n : Int) : Except Failure Int64 :=
  match toWord? n with
  | some x => .ok x
  | none => .error .overflow

def narrow (op : Operation) (n : Int) : Except Failure Int64 :=
  match toWord? n with
  | some x => .ok x
  | none => .error (.tooWide op n)

def wide (n : Int) : Except Failure Int :=
  if -0x80000000000000000000000000000000 ≤ n ∧ n < 0x80000000000000000000000000000000 then .ok n
  else .error .overflow

def complementWord (x : Int64) : Except Failure Int64 := word (1 - x.toInt)

theorem toWordFits {n : Int} (least : -0x8000000000000000 ≤ n) (most : n < 0x8000000000000000) :
    ∃ x, toWord? n = some x :=
  ⟨.ofInt n, toWordExact.mpr (Int64.toInt_ofInt_of_le least most)⟩

theorem wordExact {n : Int} {x : Int64} : word n = .ok x ↔ x.toInt = n := by
  rw [word, ← toWordExact]
  split <;> simp_all

theorem narrowExact {op : Operation} {n : Int} {x : Int64} : narrow op n = .ok x ↔ x.toInt = n := by
  rw [narrow, ← toWordExact]
  split <;> simp_all

theorem wideExact {n k : Int} : wide n = .ok k ↔
    n = k ∧ -0x80000000000000000000000000000000 ≤ n ∧ n < 0x80000000000000000000000000000000 := by
  rw [wide]
  split
  · simp_all
  · simp only [reduceCtorEq, false_iff]
    omega

theorem complementExact {x y : Int64} : complementWord x = .ok y ↔ y.toInt = 1 - x.toInt :=
  wordExact

end ConstraintAlgebra
