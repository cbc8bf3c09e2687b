import ConstraintAlgebra.Operand
import Mathlib

/-! Equality of operands across the widths of numbers. It forgets nothing but the width, so it is an
equivalence, and neighbours that are equal all along a list make all of the list equal. -/
namespace ConstraintAlgebra.Operand

variable {a b : Operand} {xs : List Operand}

def integer? : Operand → Option Int
  | scalar (.int n) => some n.toInt
  | scalar (.long n) => some n.toInt
  | _ => none

def Equals (a b : Operand) : Prop :=
  if a.integer?.isSome ∧ b.integer?.isSome then a.integer? = b.integer? else a = b

def widthless (a : Operand) : Int ⊕ Operand :=
  match a.integer? with
  | some n => .inl n
  | none => .inr a

theorem numberInteger (a : Operand) : a.integer? = a.number?.map Int64.toInt := by
  rcases a with (n | n | b | s) | h
  · exact congrArg some (Int32.toInt_toInt64 n).symm
  all_goals rfl

theorem sameExact : a.same b = true ↔ a.Equals b := by
  simp only [same, Equals, numberInteger, Option.isSome_map]
  cases a.number? with
  | none => simp
  | some m =>
    cases b.number? with
    | none => simp
    | some n => simp [Int64.toInt_inj]

theorem integerApart {n : Int} (left : a.integer? = some n) (right : b.integer? = none) : a ≠ b := by
  intro same
  rw [← same, left] at right
  contradiction

theorem equalsWidthless : a.Equals b ↔ a.widthless = b.widthless := by
  rw [Equals, widthless, widthless]
  cases left : a.integer? with
  | none =>
    cases right : b.integer? with
    | none => simp
    | some n => simpa using (integerApart right left).symm
  | some m =>
    cases right : b.integer? with
    | none => simpa using integerApart left right
    | some n => simp

theorem equalsEquivalence : Equivalence Equals where
  refl _ := equalsWidthless.mpr rfl
  symm equal := equalsWidthless.mpr (equalsWidthless.mp equal).symm
  trans first second :=
    equalsWidthless.mpr ((equalsWidthless.mp first).trans (equalsWidthless.mp second))

instance : IsTrans Operand Equals := ⟨fun _ _ _ => equalsEquivalence.trans⟩

instance : Std.Symm Equals := ⟨fun _ _ => equalsEquivalence.symm⟩

theorem allEqualChain : (xs : List Operand) → (allEqual xs = true ↔ xs.IsChain Equals)
  | [] | [_] => by simp [allEqual]
  | _ :: b :: rest => by
    rw [allEqual, Bool.and_eq_true, sameExact, allEqualChain (b :: rest), List.isChain_cons_cons]

theorem allEqualMembers : allEqual xs = true ↔ ∀ a ∈ xs, ∀ b ∈ xs, a.Equals b := by
  rw [allEqualChain, List.isChain_iff_pairwise]
  constructor
  · intro pairs a left b right
    exact pairs.forall_of_forall (fun c _ => equalsEquivalence.refl c) left right
  · intro equal
    exact List.pairwise_of_forall_mem_list equal

theorem allEqualPairwise (xs : List Operand) :
    (allEqual xs = true ↔
        ∀ i j (left : i < xs.length) (right : j < xs.length), xs[i].Equals xs[j]) ∧
      ∀ ys, xs.Perm ys → allEqual ys = allEqual xs := by
  constructor
  · rw [allEqualMembers]
    constructor
    · intro equal i j left right
      exact equal _ (List.getElem_mem left) _ (List.getElem_mem right)
    · intro equal a first b second
      obtain ⟨i, left, rfl⟩ := List.getElem_of_mem first
      obtain ⟨j, right, rfl⟩ := List.getElem_of_mem second
      exact equal i j left right
  · intro ys perm
    rw [Bool.eq_iff_iff, allEqualMembers, allEqualMembers]
    simp only [perm.mem_iff]

theorem allEqualPairwiseOnce :
    let xs : List Operand := [.scalar (.int 3), .scalar (.long 3), .scalar (.int 3)]
    let ys : List Operand := [.scalar (.long 3), .scalar (.int 3), .scalar (.int 3)]
    let zs : List Operand := [.scalar (.int 3), .scalar (.str "3")]
    xs.Perm ys ∧ allEqual ys = true ∧
      (∀ i j (left : i < ys.length) (right : j < ys.length), ys[i].Equals ys[j]) ∧
      ¬∀ i j (left : i < zs.length) (right : j < zs.length), zs[i].Equals zs[j] := by
  intro xs ys zs
  have perm : xs.Perm ys := by decide
  have equal : allEqual ys = true := ((allEqualPairwise xs).2 ys perm).trans (by decide)
  refine ⟨perm, equal, (allEqualPairwise ys).1.mp equal, fun equal => ?_⟩
  exact absurd ((allEqualPairwise zs).1.mpr equal) (by decide)

end ConstraintAlgebra.Operand
