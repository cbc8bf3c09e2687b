import ConstraintAlgebra.Proofs.Denotation
import ConstraintAlgebra.Proofs.Keeping
import ConstraintAlgebra.Proofs.Variables

/-! What calls leave behind, whether they succeed or fail halfway: a model that keeps all it had and
stays proper, and an encoder that went through some more strings. -/
namespace ConstraintAlgebra

namespace Model

structure Grown (m n : Model) : Prop where
  le : m ≤ n
  proper : m.Proper → n.Proper

instance : IsPreorder Model Grown where
  refl m := ⟨leRefl m, id⟩
  trans _ _ _ first second := ⟨leTrans first.le second.le, second.proper ∘ first.proper⟩

theorem grownVariable {m : Model} {v : Variable} (canonical : v.domain.Canonical)
    (inhabited : v.domain.intervals ≠ []) : Grown m ⟨m.vars ++ [v], m.constraints⟩ where
  le := ⟨List.prefix_append _ _, List.prefix_rfl⟩
  proper proper := ⟨List.forall_mem_append.mpr ⟨proper.canonical, by simpa using canonical⟩,
    List.forall_mem_append.mpr ⟨proper.inhabited, by simpa using inhabited⟩,
    fun p hp h hh => (proper.owned p hp h hh).trans_le (by simp)⟩

theorem keepsNewVariable {d : Domain} {name : String} (canonical : d.Canonical) :
    Keeps Grown (newVariable d name) :=
  keepsDeclared fun inhabited _ => grownVariable canonical inhabited

theorem intervalCanonical {lo hi : Int64} {d : Domain} (ok : Domain.interval lo hi = .ok d) :
    d.Canonical := by
  obtain ⟨le, rfl⟩ := Domain.intervalExact ok
  exact .single le

theorem keepsNewInt (lo hi : Int64) (name : String) : Keeps Grown (newInt lo hi name) := by
  unfold newInt
  cases made : Domain.interval lo hi with
  | error e => exact keepsThrow e
  | ok d => exact keepsNewVariable (intervalCanonical made)

theorem keepsPost (c : Constraint) (g : Option Handle) : Keeps Grown (post c g) := by
  intro m
  rw [postRun]
  cases recognized : m.recognize ⟨c, g⟩ with
  | error e => exact Std.Refl.refl m
  | ok u =>
    refine ⟨⟨List.prefix_rfl, List.prefix_append _ _⟩, fun proper => ⟨proper.canonical,
      proper.inhabited, List.forall_mem_append.mpr ⟨proper.owned, ?_⟩⟩⟩
    exact List.forall_mem_singleton.mpr (recognizeOk.mp recognized)

theorem keepsReify (holds fails : Constraint) : Keeps Grown (reify holds fails) := by
  unfold reify
  exact keepsBind (keepsNewInt _ _ _) fun b => keepsBind (keepsPost _ _) fun _ =>
    keepsBind (keepsLift _) fun _ => keepsBind (keepsPost _ _) fun _ => keepsPure _

theorem keepsReifyConnective (c : Connective) (lits : List Handle) :
    Keeps Grown (reifyConnective c lits) := by
  unfold reifyConnective
  exact keepsBind (keepsMapM (fun _ => keepsLift _) _) fun _ => keepsReify _ _

theorem keepsIncreasing (hs : List Handle) : Keeps Grown (increasing hs) := by
  match hs with
  | [] | [_] => exact keepsPure _
  | l :: r :: rest => exact keepsBind (keepsPost _ _) fun _ => keepsIncreasing (r :: rest)

theorem keepsLinear (op : Operation) (terms : List Summand) (offset : Int) :
    Keeps Grown (linear op terms offset) := by
  unfold linear
  exact keepsBind (keepsAsk _) fun _ => keepsBind (keepsLift _) fun _ =>
    keepsBind (keepsLift _) fun _ => keepsBind (keepsLift _) fun _ =>
    keepsBind (keepsNewInt _ _ _) fun _ => keepsBind (keepsPost _ _) fun _ => keepsPure _

theorem keepsSum (items : List Operand) : Keeps Grown (sum items) := by
  unfold sum
  refine keepsBind (keepsLift _) fun found => ?_
  split
  split
  · exact keepsBind (keepsLift _) fun _ => keepsPure _
  · exact keepsBind (keepsLinear _ _ _) fun _ => keepsPure _

theorem keepsScaledSum (vars : List Handle) (coeffs : List Int64) :
    Keeps Grown (scaledSum vars coeffs) := by
  unfold scaledSum
  split
  · exact keepsLinear _ _ _
  · exact keepsThrow _

theorem keepsSigned {op : Operation} {c : Int64} (unit : c = 1 ∨ c = -1) (x y : Operand) :
    Keeps Grown (signed op c x y) := keepsSignedOf unit (fun _ _ _ _ => keepsLinear _ _ _) x y

theorem keepsExtremeItem (e : Extreme) (x : Operand) : Keeps Grown (extremeItem e x) :=
  keepsItemOf (fun _ => keepsNewInt _ _ _) e x

theorem keepsExtreme (e : Extreme) (items : List Operand) : Keeps Grown (extreme e items) := by
  unfold extreme
  split
  · refine keepsBind (keepsLift _) fun numbers => ?_
    split
    · exact keepsPure _
    · exact keepsThrow _
  · exact keepsBind (keepsMapM (keepsExtremeItem e) _) fun _ => keepsBind (keepsAsk _) fun _ =>
      keepsBind (keepsNewInt _ _ _) fun _ => keepsBind (keepsPost _ _) fun _ => keepsPure _

end Model

namespace Layer

open Model

variable (ops : Layer)

theorem keepsCreate (settings : Settings) : Keeps Grown (create settings) :=
  keepsBind (keepsNewInt _ _ _) fun _ => keepsBind (keepsNewInt _ _ _) fun _ => keepsPure _

theorem keepsCompareConst (rel : Relation) (h : Handle) (c : Int64) :
    Keeps Grown (ops.compareConst rel h c) := by
  refine keepsBind (keepsAsk _) fun range => ?_
  split
  · exact keepsPure _
  · exact keepsReify _ _

theorem keepsCompareVars (rel : Relation) (l r : Handle) :
    Keeps Grown (ops.compareVars rel l r) := by
  unfold compareVars
  split
  · exact keepsPure _
  · refine keepsBind (keepsAsk _) fun left => keepsBind (keepsAsk _) fun right => ?_
    split
    · exact keepsPure _
    · exact keepsReify _ _

theorem keepsAnyTrue (lits : List Handle) : Keeps Grown (ops.anyTrue lits) := by
  refine keepsBind (keepsAsk _) fun rest => ?_
  split
  · exact keepsPure _
  · exact keepsPure _
  · exact keepsPure _
  · exact keepsReifyConnective _ _

theorem keepsConnectVars (c : Connective) (l r : Handle) :
    Keeps Grown (ops.connectVars c l r) := by
  refine keepsBind (keepsAsk _) fun result => ?_
  split
  · exact keepsPure _
  · exact keepsBind (keepsAsk _) fun _ => keepsBind (keepsAsk _) fun _ =>
      keepsReifyConnective _ _

theorem keepsInDomain (h : Handle) (d : Domain) : Keeps Grown (ops.inDomain h d) := by
  refine keepsBind (keepsAsk _) fun current => ?_
  split
  · split
    · exact keepsPure _
    · exact keepsReify _ _
  · exact keepsPure _

theorem grownKept : ops.Kept Grown where
  constant _ := keepsNewInt _ _ _
  compareConst := ops.keepsCompareConst
  compareVars := ops.keepsCompareVars
  connectVars := ops.keepsConnectVars
  anyTrue := ops.keepsAnyTrue
  inDomain := ops.keepsInDomain

theorem keepsConnect (c : Connective) (x y : Operand) : Keeps Grown (ops.connect c x y) :=
  ops.grownKept.connect c x y

theorem keepsNot (x : Operand) : Keeps Grown (ops.not x) := ops.grownKept.not x

theorem keepsMult (x y : Operand) : Keeps Grown (ops.mult x y) := by
  unfold mult
  split
  · exact keepsBind (keepsNewInt _ _ _) fun _ => keepsBind (keepsPost _ _) fun _ => keepsPure _
  · exact keepsBind (keepsLift _) fun _ => keepsBind (keepsLinear _ _ _) fun _ => keepsPure _
  · exact keepsBind (keepsLift _) fun _ => keepsBind (keepsLinear _ _ _) fun _ => keepsPure _
  · exact keepsBind (keepsLift _) fun _ => keepsBind (keepsLift _) fun _ =>
      keepsBind (keepsLift _) fun _ => keepsPure _

theorem keepsDiv (x y : Operand) : Keeps Grown (ops.div x y) := by
  unfold div
  split
  · exact keepsThrow _
  · refine keepsBind (keepsLift _) fun d => ?_
    split
    · exact keepsThrow _
    split
    · exact keepsBind (keepsNewInt _ _ _) fun _ => keepsBind (keepsPost _ _) fun _ => keepsPure _
    · refine keepsBind (keepsLift _) fun n => ?_
      split
      · exact keepsPure _
      · exact keepsThrow _

end Layer

section Operate

variable {E : Type} [Encoding E]

structure Later (w v : Workspace E) : Prop where
  grown : Model.Grown w.model v.model
  asked : ∃ ss, v.encoder = Encoding.after w.encoder ss

instance : IsPreorder (Workspace E) Later where
  refl w := ⟨Std.Refl.refl _, [], rfl⟩
  trans _ _ _ first second := by
    obtain ⟨ss, left⟩ := first.asked
    obtain ⟨ts, right⟩ := second.asked
    exact ⟨IsTrans.trans _ _ _ first.grown second.grown, ss ++ ts,
      by rw [right, left, Encoding.afterAppend]⟩

theorem keepsOnModel {α : Type} {action : Build α} (keeps : Keeps Model.Grown action) :
    Keeps Later (liftM action : Operate E α) := by
  intro w
  have grown := keeps w.model
  rw [← remainsOnModel] at grown
  refine ⟨grown, [], ?_⟩
  change (remains (onModel action w)).encoder = _
  rw [onModel]
  cases action w.model <;> rfl

theorem keepsCode (s : Scalar) : Keeps Later (s.code : Operate E Int64) := by
  cases s with
  | str s => exact fun w => ⟨Std.Refl.refl _, [s], rfl⟩
  | _ => exact keepsPure _

theorem laterCarries : Carries (E := E) Later Model.Grown := ⟨keepsOnModel, keepsCode⟩

namespace Layer

variable (ops : Layer)

theorem keepsCompare (rel : Relation) (x y : Operand) :
    Keeps Later (ops.compare rel x y : Operate E Operand) :=
  ops.grownKept.compare laterCarries rel x y

theorem keepsEqualLiteral (x item : Operand) :
    Keeps Later (ops.equalLiteral x item : Operate E Handle) :=
  ops.grownKept.equalLiteral laterCarries x item

end Layer

theorem keepsPerform (ops : Layer) (call : OperatorCall) :
    Keeps Later (call.perform ops : Operate E Reply) := by
  refine ops.grownKept.perform laterCarries ?_
  cases call with
  | plus x y => exact Model.keepsSigned (.inl rfl) x y
  | minus x y => exact Model.keepsSigned (.inr rfl) x y
  | mult x y => exact ops.keepsMult x y
  | div x y => exact ops.keepsDiv x y
  | sum items => exact Model.keepsSum items
  | scaledSum vars coeffs => exact Model.keepsScaledSum vars coeffs
  | extreme e items => exact Model.keepsExtreme e items
  | increasing vars => exact Model.keepsIncreasing vars
  | _ => trivial

end Operate

end ConstraintAlgebra
