import ConstraintAlgebra.Proofs.Constants

/-! Membership of a scalar among scalars. The items are compared in order until one of them is equal, so
an item of another kind is refused only as long as no equal one stands before it. -/
namespace ConstraintAlgebra

theorem anyMPasses {α σ : Type} {f : α → Except Failure Bool} {before : List α} {s : σ}
    (passed : ∀ x ∈ before, f x = .ok false) (rest : List α) :
    ((before ++ rest).anyM fun x => (liftM (f x) : EStateM Failure σ Bool)) s =
      (rest.anyM fun x => (liftM (f x) : EStateM Failure σ Bool)) s := by
  induction before with
  | nil => rfl
  | cons x before ih =>
    obtain ⟨first, others⟩ := List.forall_mem_cons.mp passed
    rw [List.cons_append, List.anyM, runAfter (runLift.mpr ⟨first, rfl⟩)]
    exact ih others

namespace Scalar

variable {x y : Scalar} {items before after : List Scalar}

def Equals (x y : Scalar) : Prop := (Operand.scalar x).same (.scalar y) = true

instance (x y : Scalar) : Decidable (x.Equals y) := inferInstanceAs (Decidable (_ = true))

def Differs (x y : Scalar) : Prop := x.Alike y ∧ ¬x.Equals y

theorem compareExactly (alike : x.Alike y) :
    x.compare .eq y = .ok ((Operand.scalar x).same (.scalar y)) := by
  cases x with
  | str s =>
    cases y with
    | str t =>
      refine congrArg Except.ok (Bool.eq_iff_iff.mpr ((Relation.holdsStrings rfl).trans ?_))
      simp [Operand.same, Operand.number?, number?, Relation.Holds]
    | _ => exact absurd alike.1 (by simp [number?])
  | bool p =>
    cases y with
    | bool q => cases p <;> cases q <;> rfl
    | _ => exact absurd alike.1 (by simp [number?])
  | _ =>
    cases y with
    | str _ => exact absurd alike.2 (by simp [number?])
    | bool _ => exact absurd alike.2 (by simp [number?])
    | _ =>
      refine congrArg Except.ok (Bool.eq_iff_iff.mpr ?_)
      simpa [Operand.same, Operand.number?, number?] using Relation.holdsEqual

theorem Equals.alike (equal : x.Equals y) : x.Alike y := by
  rw [Equals, Operand.same] at equal
  split at equal
  · rename_i m n left right
    cases x <;> cases left <;> cases y <;> cases right <;> exact ⟨rfl, rfl⟩
  · cases of_decide_eq_true equal
    cases x <;> trivial

theorem compareEqual (equal : x.Equals y) : x.compare .eq y = .ok true :=
  (compareExactly equal.alike).trans (congrArg _ equal)

theorem compareDiffers (differs : x.Differs y) : x.compare .eq y = .ok false :=
  (compareExactly differs.1).trans (congrArg _ (by simpa [Equals] using differs.2))

theorem compareUnlike (unlike : ¬x.Alike y) :
    x.compare .eq y = .error (.incomparable .eq x.kind y.kind) := by
  cases x with
  | str s =>
    cases y with
    | str t => exact absurd trivial unlike
    | _ => rfl
  | bool p =>
    cases y with
    | bool q => exact absurd trivial unlike
    | _ => rfl
  | _ =>
    cases y with
    | str t => rfl
    | bool q => rfl
    | _ => exact absurd ⟨rfl, rfl⟩ unlike

theorem firstDecisive (x : Scalar) (items : List Scalar) : (∀ y ∈ items, x.Differs y) ∨
    ∃ before y after, items = before ++ y :: after ∧ (∀ z ∈ before, x.Differs z) ∧
      (x.Equals y ∨ ¬x.Alike y) := by
  induction items with
  | nil => exact .inl (by simp)
  | cons y items ih =>
    by_cases differs : x.Differs y
    · obtain all | ⟨before, z, after, rfl, passed, decisive⟩ := ih
      · exact .inl (List.forall_mem_cons.mpr ⟨differs, all⟩)
      · exact .inr ⟨y :: before, z, after, rfl, List.forall_mem_cons.mpr ⟨differs, passed⟩, decisive⟩
    · rw [Differs, Classical.not_and_iff_not_or_not, not_not] at differs
      exact .inr ⟨[], y, items, rfl, by simp, differs.symm⟩

end Scalar

namespace Layer

open Scalar

variable {E : Type} [Encoding E] {ops : Layer} {w v : Workspace E} {x y : Scalar}
  {items before after : List Scalar} {e : Failure}

theorem isInMissing (differ : ∀ y ∈ items, x.Differs y) :
    (ops.isIn (.scalar x) (items.map .scalar) : Operate E Operand) w =
      .ok (.scalar (.bool false)) w := by
  rw [isInRun]
  refine runMap.mpr ⟨false, ?_, rfl⟩
  have passed := anyMPasses (s := w) (fun y mem => compareDiffers (differ y mem)) []
  rwa [List.append_nil] at passed

theorem isInFound (passed : ∀ z ∈ before, x.Differs z) (equal : x.Equals y) (after : List Scalar) :
    (ops.isIn (.scalar x) ((before ++ y :: after).map .scalar) : Operate E Operand) w =
      .ok (.scalar (.bool true)) w := by
  rw [isInRun]
  refine runMap.mpr ⟨true, ?_, rfl⟩
  rw [anyMPasses (fun z mem => compareDiffers (passed z mem)), List.anyM,
    runAfter (runLift.mpr ⟨compareEqual equal, rfl⟩)]
  rfl

theorem isInFails (passed : ∀ z ∈ before, x.Differs z) (unlike : ¬x.Alike y) (after : List Scalar) :
    (ops.isIn (.scalar x) ((before ++ y :: after).map .scalar) : Operate E Operand) w =
      .error (.incomparable .eq x.kind y.kind) w := by
  rw [isInRun]
  refine runFails ?_
  rw [anyMPasses (fun z mem => compareDiffers (passed z mem)), List.anyM,
    runFails (liftFails (compareUnlike unlike))]

theorem isInTrue :
    (ops.isIn (.scalar x) (items.map .scalar) : Operate E Operand) w =
        .ok (.scalar (.bool true)) w ↔
      ∃ before y after, items = before ++ y :: after ∧ (∀ z ∈ before, x.Differs z) ∧ x.Equals y := by
  constructor
  · intro ran
    obtain all | ⟨before, y, after, rfl, passed, equal | unlike⟩ := x.firstDecisive items
    · cases (isInMissing all).symm.trans ran
    · exact ⟨before, y, after, rfl, passed, equal⟩
    · cases (isInFails passed unlike after).symm.trans ran
  · intro found
    obtain ⟨before, y, after, rfl, passed, equal⟩ := found
    exact isInFound passed equal after

theorem isInFalse :
    (ops.isIn (.scalar x) (items.map .scalar) : Operate E Operand) w =
        .ok (.scalar (.bool false)) w ↔ ∀ y ∈ items, x.Differs y := by
  refine ⟨fun ran => ?_, isInMissing⟩
  obtain all | ⟨before, y, after, rfl, passed, equal | unlike⟩ := x.firstDecisive items
  · exact all
  · cases (isInFound passed equal after).symm.trans ran
  · cases (isInFails passed unlike after).symm.trans ran

theorem isInError :
    (ops.isIn (.scalar x) (items.map .scalar) : Operate E Operand) w = .error e v ↔
      v = w ∧ ∃ before y after, items = before ++ y :: after ∧ (∀ z ∈ before, x.Differs z) ∧
        ¬x.Alike y ∧ e = .incomparable .eq x.kind y.kind := by
  constructor
  · intro ran
    obtain all | ⟨before, y, after, rfl, passed, equal | unlike⟩ := x.firstDecisive items
    · cases (isInMissing all).symm.trans ran
    · cases (isInFound passed equal after).symm.trans ran
    · cases (isInFails passed unlike after).symm.trans ran
      exact ⟨rfl, before, y, after, rfl, passed, unlike, rfl⟩
  · intro refused
    obtain ⟨rfl, before, y, after, rfl, passed, unlike, rfl⟩ := refused
    exact isInFails passed unlike after

theorem isInRefuses (unequal : ∀ y ∈ items, ¬x.Equals y) :
    (∃ e, (ops.isIn (.scalar x) (items.map .scalar) : Operate E Operand) w = .error e w) ↔
      ∃ y ∈ items, ¬x.Alike y := by
  constructor
  · intro refused
    obtain ⟨e, ran⟩ := refused
    obtain ⟨-, before, y, after, rfl, -, unlike, -⟩ := isInError.mp ran
    exact ⟨y, by simp, unlike⟩
  · intro mismatched
    obtain ⟨y, mem, unlike⟩ := mismatched
    obtain all | ⟨before, z, after, rfl, passed, equal | other⟩ := x.firstDecisive items
    · exact absurd (all y mem).1 unlike
    · exact absurd equal (unequal z (by simp))
    · exact ⟨_, isInFails passed other after⟩

theorem isInAlike (alike : ∀ y ∈ items, x.Alike y) {t : Bool}
    (truth : t = true ↔ ∃ y ∈ items, x.Equals y) :
    (ops.isIn (.scalar x) (items.map .scalar) : Operate E Operand) w =
      .ok (.scalar (.bool t)) w := by
  obtain all | ⟨before, y, after, rfl, passed, equal | unlike⟩ := x.firstDecisive items
  · have missing : ¬t = true := by
      intro found
      obtain ⟨y, mem, equal⟩ := truth.mp found
      exact (all y mem).2 equal
    rw [Bool.eq_false_of_not_eq_true missing]
    exact isInMissing all
  · rw [truth.mpr ⟨y, by simp, equal⟩]
    exact isInFound passed equal after
  · exact absurd (alike y (by simp)) unlike

/-- The first item that is equal to a scalar or not comparable with it decides. The call finds an equal
item, refuses the two kinds without touching the workspace, or has compared all items in vain. So an item
of another kind is refused wherever it stands when no item is equal, and the order and the number of the
items do not matter when all are comparable. -/
theorem scalarMembership (ops : Layer) (x : Scalar) (items : List Scalar) (w : Workspace E) :
    let ran := fun xs : List Scalar => (ops.isIn (.scalar x) (xs.map .scalar) : Operate E Operand) w
    (ran items = .ok (.scalar (.bool true)) w ↔ ∃ before y after, items = before ++ y :: after ∧
      (∀ z ∈ before, x.Differs z) ∧ x.Equals y) ∧
    (ran items = .ok (.scalar (.bool false)) w ↔ ∀ y ∈ items, x.Differs y) ∧
    (∀ e v, ran items = .error e v ↔ v = w ∧ ∃ before y after, items = before ++ y :: after ∧
      (∀ z ∈ before, x.Differs z) ∧ ¬x.Alike y ∧ e = .incomparable .eq x.kind y.kind) ∧
    ((∀ y ∈ items, ¬x.Equals y) → ((∃ e, ran items = .error e w) ↔ ∃ y ∈ items, ¬x.Alike y)) ∧
    ((∀ y ∈ items, x.Alike y) → ∃ t, (t = true ↔ ∃ y ∈ items, x.Equals y) ∧
      ∀ others, (∀ y, y ∈ others ↔ y ∈ items) → ran others = .ok (.scalar (.bool t)) w) := by
  intro ran
  refine ⟨isInTrue, isInFalse, fun e v => isInError, isInRefuses, fun alike => ?_⟩
  refine ⟨decide (∃ y ∈ items, x.Equals y), decide_eq_true_iff, fun others same => ?_⟩
  refine isInAlike (fun y mem => alike y ((same y).mp mem)) ?_
  simp only [decide_eq_true_eq, same]

theorem scalarMembershipOnce :
    let ops : Layer := ⟨⟨1, by decide⟩, ⟨2, by decide⟩, .standard⟩
    let w : Workspace Dictionary :=
      ⟨⟨[⟨.constant 1, ""⟩, ⟨.constant 0, ""⟩], []⟩, .empty⟩
    let ran := fun xs : List Scalar =>
      (ops.isIn (.scalar (.int 1)) (xs.map .scalar) : Operate Dictionary Operand) w
    (∀ y ∈ [.int 2, .str "a", .long 3], ¬(Scalar.int 1).Equals y) ∧
      (∃ e, ran [.int 2, .str "a", .long 3] = .error e w) ∧
      (∀ y ∈ [.int 2, .long 1], (Scalar.int 1).Alike y) ∧
      ran [.long 1, .int 2, .long 1] = .ok (.scalar (.bool true)) w := by
  intro ops w ran
  have unequal : ∀ y ∈ [.int 2, .str "a", .long 3], ¬(Scalar.int 1).Equals y := by decide
  have alike : ∀ y ∈ [.int 2, .long 1], (Scalar.int 1).Alike y := by
    simp [Scalar.Alike, Scalar.number?]
  obtain ⟨-, -, -, refuses, -⟩ := scalarMembership ops (.int 1) [.int 2, .str "a", .long 3] w
  obtain ⟨-, -, -, -, answers⟩ := scalarMembership ops (.int 1) [.int 2, .long 1] w
  obtain ⟨t, truth, ran⟩ := answers alike
  have found : t = true := truth.mpr ⟨.long 1, by simp, by decide⟩
  refine ⟨unequal, (refuses unequal).mpr ⟨.str "a", by simp, ?_⟩, alike, ?_⟩
  · simp [Scalar.Alike, Scalar.number?]
  · exact found ▸ ran [.long 1, .int 2, .long 1] (by simp)

theorem mismatchOverlooked :
    let ops : Layer := ⟨⟨1, by decide⟩, ⟨2, by decide⟩, .standard⟩
    let w : Workspace Dictionary :=
      ⟨⟨[⟨.constant 1, ""⟩, ⟨.constant 0, ""⟩], []⟩, .empty⟩
    Layer.create .standard Model.empty = .ok ops w.model ∧ ¬(Scalar.int 1).Alike (.str "a") ∧
      ops.isIn (.scalar (.int 1)) [.scalar (.int 1), .scalar (.str "a")] w =
        .ok (.scalar (.bool true)) w ∧
      ops.isIn (.scalar (.int 1)) [.scalar (.str "a"), .scalar (.int 1)] w =
        .error (.incomparable .eq .int .string) w :=
  ⟨rfl, by simp [Scalar.Alike, Scalar.number?], rfl, rfl⟩

end Layer

end ConstraintAlgebra
