import ConstraintAlgebra.Handle
import Mathlib

/-! Codes of handles. A code has the 32 bits of an identifier and reads the first of them as a sign, so
one half of the identifiers give handles of their own, and the other half fall on the complements of
those. -/
namespace ConstraintAlgebra

namespace VarId

theorem indexNext (v : VarId) : v.index + 1 = v.id.toNat := by
  have positive : v.id.toNat ≠ 0 := fun zero => v.nonzero (UInt32.toNat_inj.mp zero)
  rw [index]
  omega

theorem ofIndexPlace {i : Nat} (accepted : i + 1 < 2 ^ 32) :
    ∃ v, VarId.ofIndex i = .ok v ∧ v.index = i := by
  have code : (UInt32.ofNat (i + 1)).toNat = i + 1 :=
    UInt32.toNat_ofNat_of_lt' (by simp only [UInt32.size]; omega)
  have nonzero : UInt32.ofNat (i + 1) ≠ 0 := fun zero => by
    have := congrArg UInt32.toNat zero
    rw [code, UInt32.toNat_zero] at this
    omega
  refine ⟨⟨.ofNat (i + 1), nonzero⟩, ?_, by rw [index, code, Nat.add_sub_cancel]⟩
  simp only [VarId.ofIndex, Nat.mod_eq_of_lt (show i < 0x100000000 by omega),
    if_pos (show i + 1 < 0x100000000 by omega), VarId.ofWord, dif_neg nonzero]

end VarId

namespace Handle

variable {h g n : Handle} {v : VarId} {i j : Nat}

theorem codeUnique (same : h.code.toInt = g.code.toInt) : h = g := by
  cases h
  cases g
  cases Int32.toInt_inj.mp same
  rfl

theorem indexCode (h : Handle) : h.index + 1 = h.code.toInt.natAbs := by
  rw [← idMagnitude]
  exact h.id.indexNext

theorem negatedCode : h.isNegated = true ↔ h.code.toInt < 0 := by
  rw [isNegated, decide_eq_true_eq, Int32.lt_iff_toInt_lt, Int32.toInt_zero]

theorem ofIdCode (v : VarId) : (ofId v).code.toInt =
    if v.id.toNat < 2 ^ 31 then (v.id.toNat : Int) else v.id.toNat - 2 ^ 32 := by
  change v.id.toBitVec.toInt = _
  rw [BitVec.toInt_eq_toNat_cond]
  change (if 2 * v.id.toNat < 2 ^ 32 then _ else _) = _
  split
  · rw [if_pos (by omega)]
    rfl
  · rw [if_neg (by omega)]
    rfl

theorem negateCases (h : Handle) : (h.code.toInt = -2 ^ 31 ∧ h.negate = .error .overflow) ∨
    ∃ n, h.negate = .ok n ∧ n.code.toInt = -h.code.toInt := by
  by_cases least : h.code = Int32.minValue
  · exact .inl ⟨congrArg Int32.toInt least, if_pos least⟩
  · refine .inr ⟨_, if_neg least, ?_⟩
    have above := h.code.le_toInt
    have below := h.code.toInt_lt
    have other : h.code.toInt ≠ -2 ^ 31 := fun code => least (Int32.toInt_inj.mp code)
    rw [Int32.toInt_neg]
    exact Int.bmod_eq_of_le (by omega) (by omega)

theorem negateOk : h.negate = .ok n ↔ n.code.toInt = -h.code.toInt := by
  obtain ⟨least, failed⟩ | ⟨k, ran, opposite⟩ := negateCases h
  · have below := n.code.toInt_lt
    simp only [failed, reduceCtorEq, false_iff]
    omega
  · rw [ran, Except.ok.injEq]
    constructor
    · intro same
      exact same ▸ opposite
    · intro same
      exact codeUnique (opposite.trans same.symm)

theorem negateFails : h.negate = .error .overflow ↔ h.code.toInt = -2 ^ 31 := by
  obtain ⟨least, failed⟩ | ⟨k, ran, opposite⟩ := negateCases h
  · exact iff_of_true failed least
  · have below := k.code.toInt_lt
    simp only [ran, reduceCtorEq, false_iff]
    omega

theorem negateExists (other : h.code.toInt ≠ -2 ^ 31) : ∃ n, h.negate = .ok n := by
  obtain ⟨least, -⟩ | ⟨n, ran, -⟩ := negateCases h
  · exact absurd least other
  · exact ⟨n, ran⟩

theorem negateBack (ok : h.negate = .ok n) : n.negate = .ok h := by
  have opposite := negateOk.mp ok
  exact negateOk.mpr (by omega)

section Places

variable {w : VarId}

theorem placeCode (accepted : i + 1 < 2 ^ 32) (named : VarId.ofIndex i = .ok v) :
    (ofId v).code.toInt = if i + 1 < 2 ^ 31 then (i : Int) + 1 else i + 1 - 2 ^ 32 := by
  obtain ⟨u, same, place⟩ := VarId.ofIndexPlace accepted
  rw [named, Except.ok.injEq] at same
  subst same
  rw [ofIdCode, ← v.indexNext, place]
  rfl

theorem lowRecovered (low : i + 1 < 2 ^ 31) (named : VarId.ofIndex i = .ok v) :
    (ofId v).isNegated = false ∧ (ofId v).index = i ∧
      ∃ n, (ofId v).negate = .ok n ∧ n.isNegated = true ∧ n.index = i := by
  have code := placeCode (by omega) named
  rw [if_pos low] at code
  obtain ⟨n, opposite⟩ := negateExists (h := ofId v) (by omega)
  have turned := negateOk.mp opposite
  have place := (ofId v).indexCode
  have other := n.indexCode
  refine ⟨Bool.eq_false_iff.mpr (mt negatedCode.mp (by omega)), by omega, n, opposite,
    negatedCode.mpr (by omega), by omega⟩

theorem highAliased (accepted : i + 1 < 2 ^ 32) (high : 2 ^ 31 ≤ i + 1)
    (named : VarId.ofIndex i = .ok v) :
    (ofId v).isNegated = true ∧ (ofId v).index + i + 2 = 2 ^ 32 ∧
      ((ofId v).negate = .error .overflow ↔ i + 1 = 2 ^ 31) := by
  have code := placeCode accepted named
  rw [if_neg (by omega)] at code
  have place := (ofId v).indexCode
  refine ⟨negatedCode.mpr (by omega), by omega, ?_⟩
  rw [negateFails]
  omega

theorem placeUnique (first : i + 1 < 2 ^ 32) (named : VarId.ofIndex i = .ok v)
    (second : j + 1 < 2 ^ 32) (other : VarId.ofIndex j = .ok w) : ofId v = ofId w ↔ i = j := by
  have left := placeCode first named
  have right := placeCode second other
  constructor
  · intro same
    rw [same] at left
    split at left <;> split at right <;> omega
  · intro same
    subst same
    exact congrArg ofId (Except.ok.inj (named.symm.trans other))

theorem placeOpposite (first : i + 1 < 2 ^ 32) (named : VarId.ofIndex i = .ok v)
    (second : j + 1 < 2 ^ 32) (other : VarId.ofIndex j = .ok w) :
    (ofId v).negate = .ok (ofId w) ↔ i + j + 2 = 2 ^ 32 ∧ i ≠ j := by
  have left := placeCode first named
  have right := placeCode second other
  rw [negateOk]
  split at left <;> split at right <;> omega

theorem complementUnique {k : Handle} (first : h.negate = .ok n) (second : g.negate = .ok k) :
    n = k ↔ h = g := by
  constructor
  · intro same
    subst same
    exact Except.ok.inj ((negateBack first).symm.trans (negateBack second))
  · intro same
    subst same
    exact Except.ok.inj (first.symm.trans second)

/-- In the lower half of the identifiers a handle leads back to its place, as does its complement, and
the complement of the complement is the handle. In the upper half the handle is negated, and it is the
complement of the handle at the place that mirrors its own; the one place that mirrors itself has a
handle without a complement. Apart from that no two handles are equal, neither those of different places
nor their complements. -/
theorem placesRecovered (accepted : i + 1 < 2 ^ 32) :
    ∃ v, VarId.ofIndex i = .ok v ∧ v.index = i ∧
      (i + 1 < 2 ^ 31 → (ofId v).isNegated = false ∧ (ofId v).index = i ∧
        ∃ n, (ofId v).negate = .ok n ∧ n.isNegated = true ∧ n.index = i ∧
          n.negate = .ok (ofId v)) ∧
      (2 ^ 31 ≤ i + 1 → (ofId v).isNegated = true ∧ (ofId v).index + i + 2 = 2 ^ 32 ∧
        ((ofId v).negate = .error .overflow ↔ i + 1 = 2 ^ 31)) ∧
      ∀ j w, j + 1 < 2 ^ 32 → VarId.ofIndex j = .ok w →
        (ofId v = ofId w ↔ i = j) ∧
        ((ofId v).negate = .ok (ofId w) ↔ i + j + 2 = 2 ^ 32 ∧ i ≠ j) ∧
        ∀ n k, (ofId v).negate = .ok n → (ofId w).negate = .ok k → (n = k ↔ i = j) := by
  obtain ⟨v, named, place⟩ := VarId.ofIndexPlace accepted
  refine ⟨v, named, place, fun low => ?_, fun high => highAliased accepted high named,
    fun j w second other => ?_⟩
  · obtain ⟨sign, place, n, opposite, turned, same⟩ := lowRecovered low named
    exact ⟨sign, place, n, opposite, turned, same, negateBack opposite⟩
  · have unique := placeUnique accepted named second other
    refine ⟨unique, placeOpposite accepted named second other, fun n k left right => ?_⟩
    rw [complementUnique left right, unique]

theorem placesRecoveredOnce :
    let i := 2 ^ 31 - 2
    i + 1 < 2 ^ 31 ∧ i + 1 < 2 ^ 32 ∧ ∃ v w, VarId.ofIndex i = .ok v ∧ VarId.ofIndex 0 = .ok w ∧
      (ofId v).isNegated = false ∧ (ofId v).index = i ∧ ofId v ≠ ofId w ∧
      ∃ n, (ofId v).negate = .ok n ∧ n.isNegated = true ∧ n.index = i ∧ n ≠ ofId w := by
  intro i
  obtain ⟨v, named, -, recovered, -, apart⟩ := placesRecovered (i := i) (by decide)
  obtain ⟨sign, place, n, opposite, turned, same, -⟩ := recovered (by decide)
  obtain ⟨w, first, -⟩ := VarId.ofIndexPlace (i := 0) (by decide)
  obtain ⟨unique, mirrored, -⟩ := apart 0 w (by decide) first
  refine ⟨by decide, by decide, v, w, named, first, sign, place, fun equal => ?_, n, opposite, turned,
    same, fun equal => ?_⟩
  · exact absurd (unique.mp equal) (by decide)
  · exact absurd (mirrored.mp (equal ▸ opposite)).1 (by decide)

theorem upperPlacesLost :
    ∃ u v w, VarId.ofIndex (2 ^ 31 - 1) = .ok u ∧ (ofId u).negate = .error .overflow ∧
      VarId.ofIndex (2 ^ 31) = .ok v ∧ VarId.ofIndex (2 ^ 31 - 2) = .ok w ∧
      (ofId v).isNegated = true ∧ (ofId v).index ≠ 2 ^ 31 ∧ (ofId w).negate = .ok (ofId v) :=
  ⟨⟨2147483648, by decide⟩, ⟨2147483649, by decide⟩, ⟨2147483647, by decide⟩, rfl, rfl, rfl, rfl,
    rfl, by decide, rfl⟩

end Places

end Handle

end ConstraintAlgebra
