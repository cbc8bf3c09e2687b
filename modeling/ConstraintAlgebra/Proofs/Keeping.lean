import ConstraintAlgebra.Session
import ConstraintAlgebra.Proofs.Outcomes

/-! What actions leave behind, whether they succeed or fail halfway. A relation between earlier and
later states that the parts of an operator keep is kept by the operator. -/
namespace ConstraintAlgebra

section Keeps

variable {σ α β : Type} {R : σ → σ → Prop}

def remains : EStateM.Result Failure σ α → σ
  | .ok _ s => s
  | .error _ s => s

def Keeps (R : σ → σ → Prop) (action : EStateM Failure σ α) : Prop := ∀ s, R s (remains (action s))

theorem keepsOk {action : EStateM Failure σ α} (keeps : Keeps R action) {s t : σ} {a : α}
    (ok : action s = .ok a t) : R s t := by
  have := keeps s
  rwa [ok] at this

variable [IsPreorder σ R]

theorem keepsPure (a : α) : Keeps R (pure a) := fun s => Std.Refl.refl s

theorem keepsThrow (e : Failure) : Keeps R (throw e : EStateM Failure σ α) :=
  fun s => Std.Refl.refl s

theorem remainsBind {x : EStateM Failure σ α} {f : α → EStateM Failure σ β} {s : σ}
    (first : R s (remains (x s))) (second : ∀ a t, x s = .ok a t → R t (remains (f a t))) :
    R s (remains ((x >>= f) s)) := by
  cases h : x s with
  | ok a t =>
    rw [h] at first
    rw [runAfter h]
    exact IsTrans.trans _ _ _ first (second a t h)
  | error e t =>
    rw [h] at first
    rwa [runFails h]

theorem keepsBind {x : EStateM Failure σ α} {f : α → EStateM Failure σ β} (first : Keeps R x)
    (second : ∀ a, Keeps R (f a)) : Keeps R (x >>= f) :=
  fun s => remainsBind (first s) fun a t _ => second a t

theorem keepsGet : Keeps R (get : EStateM Failure σ σ) := fun s => Std.Refl.refl s

theorem keepsLift (x : Except Failure α) : Keeps R (liftM x : EStateM Failure σ α) := by
  intro s
  cases x <;> exact Std.Refl.refl s

theorem remainsLift {x : Except Failure α} {f : α → EStateM Failure σ β} {s : σ}
    (rest : ∀ a, x = .ok a → R s (remains (f a s))) :
    R s (remains (((liftM x : EStateM Failure σ α) >>= f) s)) := by
  refine remainsBind (keepsLift x s) fun a t ok => ?_
  obtain ⟨known, same⟩ := runLift.mp ok
  exact same ▸ rest a known

theorem keepsMapM {f : α → EStateM Failure σ β} (each : ∀ a, Keeps R (f a)) (xs : List α) :
    Keeps R (xs.mapM f) := by
  induction xs with
  | nil => exact keepsPure _
  | cons x xs ih =>
    rw [List.mapM_cons]
    exact keepsBind (each x) fun _ => keepsBind ih fun _ => keepsPure _

theorem keepsForM {f : α → EStateM Failure σ Unit} (each : ∀ a, Keeps R (f a)) (xs : List α) :
    Keeps R (xs.forM f) := by
  induction xs with
  | nil => exact keepsPure _
  | cons x xs ih => exact keepsBind (each x) fun _ => ih

theorem keepsAnyM {f : α → EStateM Failure σ Bool} (each : ∀ a, Keeps R (f a)) (xs : List α) :
    Keeps R (xs.anyM f) := by
  induction xs with
  | nil => exact keepsPure _
  | cons x xs ih =>
    refine keepsBind (each x) fun b => ?_
    cases b
    · exact ih
    · exact keepsPure _

end Keeps

namespace Model

section Parts

variable {R : Model → Model → Prop} [IsPreorder Model R]

theorem keepsAsk {α : Type} (q : Model → Except Failure α) : Keeps R (ask q) := by
  intro m
  rw [askRun]
  cases q m <;> exact Std.Refl.refl m

theorem remainsAsk {α β : Type} {q : Model → Except Failure α} {f : α → Build β} {m : Model}
    (rest : ∀ a, q m = .ok a → R m (remains (f a m))) : R m (remains ((ask q >>= f) m)) := by
  refine remainsBind (keepsAsk q m) fun a n ok => ?_
  obtain ⟨known, same⟩ := runAsk.mp ok
  exact same ▸ rest a known

theorem keepsDeclared {d : Domain} {name : String}
    (added : d.intervals ≠ [] → ∀ m : Model, R m ⟨m.vars ++ [⟨d, name⟩], m.constraints⟩) :
    Keeps R (newVariable d name) := by
  unfold newVariable
  split
  · exact keepsThrow _
  · rename_i inhabited
    refine keepsBind (added ?_) fun _ => keepsBind keepsGet fun _ =>
      keepsBind (keepsLift _) fun _ => keepsPure _
    simpa [Domain.isEmpty] using inhabited

theorem keepsTest {α : Type} {q : Model → Except Failure Bool} {yes no : Build α}
    (first : Keeps R yes) (second : Keeps R no) : Keeps R (do if ← ask q then yes else no) := by
  refine keepsBind (keepsAsk q) fun b => ?_
  cases b
  · exact second
  · exact first

theorem keepsSignedOf {op : Operation} {c : Int64} (unit : c = 1 ∨ c = -1)
    (linear : ∀ terms offset, (∀ s ∈ terms, s.1 = 1 ∨ s.1 = -1) → terms.length ≤ 2 →
      Keeps R (linear op terms offset)) (x y : Operand) : Keeps R (signed op c x y) := by
  have pair : ∀ l r, Keeps R (Model.linear op [(1, l), (c, r)] 0) :=
    fun _ _ => linear _ _ (by simpa using unit) le_rfl
  have single : ∀ d h n, (d = 1 ∨ d = -1) → Keeps R (Model.linear op [(d, h)] n) :=
    fun _ _ _ unit => linear _ _ (by simpa using unit) (by simp)
  unfold signed
  split
  · exact keepsBind (pair _ _) fun _ => keepsPure _
  · exact keepsBind (keepsLift _) fun _ => keepsBind (single _ _ _ (.inl rfl)) fun _ => keepsPure _
  · exact keepsBind (keepsLift _) fun _ => keepsBind (single _ _ _ unit) fun _ => keepsPure _
  · exact keepsBind (keepsLift _) fun _ => keepsBind (keepsLift _) fun _ =>
      keepsBind (keepsLift _) fun _ => keepsPure _

theorem keepsItemOf (constant : ∀ x, Keeps R (newConstant x)) (e : Extreme) (x : Operand) :
    Keeps R (extremeItem e x) := by
  cases x with
  | var h => exact keepsPure h
  | scalar s => exact keepsBind (keepsLift _) fun _ => constant _

end Parts

end Model

structure Layer.Kept (ops : Layer) (R : Model → Model → Prop) : Prop where
  constant : ∀ x, Keeps R (Model.newConstant x)
  compareConst : ∀ rel h c, Keeps R (ops.compareConst rel h c)
  compareVars : ∀ rel l r, Keeps R (ops.compareVars rel l r)
  connectVars : ∀ c l r, Keeps R (ops.connectVars c l r)
  anyTrue : ∀ lits, Keeps R (ops.anyTrue lits)
  inDomain : ∀ h d, Keeps R (ops.inDomain h d)

/-- A relation between workspaces that follows one between their models and survives encoding. -/
structure Carries {E : Type} [Encoding E] (Q : Workspace E → Workspace E → Prop)
    (R : Model → Model → Prop) : Prop where
  onModel : ∀ {α : Type} {action : Build α}, Keeps R action → Keeps Q (liftM action : Operate E α)
  code : ∀ s : Scalar, Keeps Q (s.code : Operate E Int64)

section Models

variable {E : Type} {R : Model → Model → Prop}

def OnModels (R : Model → Model → Prop) (w v : Workspace E) : Prop := R w.model v.model

instance [IsPreorder Model R] : IsPreorder (Workspace E) (OnModels R) where
  refl w := Std.Refl.refl (r := R) w.model
  trans _ _ _ first second := IsTrans.trans (r := R) _ _ _ first second

theorem remainsOnModel {α : Type} (action : Build α) (w : Workspace E) :
    (remains ((liftM action : Operate E α) w)).model = remains (action w.model) := by
  change (remains (onModel action w)).model = _
  rw [onModel]
  cases action w.model <;> rfl

theorem onModelsCarries [Encoding E] [IsPreorder Model R] : Carries (E := E) (OnModels R) R where
  onModel keeps w := by
    rw [OnModels, remainsOnModel]
    exact keeps w.model
  code s := by
    cases s with
    | str s => exact fun w => Std.Refl.refl (r := R) w.model
    | _ => exact keepsPure _

end Models

def OperatorCall.Computes (ops : Layer) (R : Model → Model → Prop) : OperatorCall → Prop
  | plus x y => Keeps R (Model.plus x y)
  | minus x y => Keeps R (Model.minus x y)
  | mult x y => Keeps R (ops.mult x y)
  | div x y => Keeps R (ops.div x y)
  | sum items => Keeps R (Model.sum items)
  | scaledSum vars coeffs => Keeps R (Model.scaledSum vars coeffs)
  | extreme e items => Keeps R (Model.extreme e items)
  | increasing vars => Keeps R (Model.increasing vars)
  | _ => True

namespace Layer.Kept

variable {R : Model → Model → Prop} {ops : Layer} (kept : ops.Kept R)
include kept

theorem connect [IsPreorder Model R] (c : Connective) (x y : Operand) :
    Keeps R (ops.connect c x y) := by
  have const : ∀ h b, Keeps R (ops.connectConst c h b) := by
    refine fun h b => keepsBind (Model.keepsAsk _) fun _ => keepsBind (Model.keepsAsk _) fun _ => ?_
    split
    · exact keepsPure _
    · exact Model.keepsTest (keepsPure _) (keepsPure _)
  unfold Layer.connect
  split
  · exact keepsPure _
  · exact keepsBind (const _ _) fun _ => keepsPure _
  · exact keepsBind (const _ _) fun _ => keepsPure _
  · exact keepsBind (kept.connectVars _ _ _) fun _ => keepsPure _
  · exact keepsThrow _

theorem not [IsPreorder Model R] (x : Operand) : Keeps R (ops.not x) := by
  unfold Layer.not
  split
  · exact keepsPure _
  · refine keepsBind ?_ fun _ => keepsPure _
    refine Model.keepsTest (keepsPure _) (Model.keepsTest (keepsPure _) ?_)
    refine keepsBind (Model.keepsAsk _) fun bool => ?_
    split
    · exact keepsLift _
    · exact kept.compareConst _ _ _
  · exact keepsThrow _

variable {E : Type} [Encoding E] {Q : Workspace E → Workspace E → Prop} [IsPreorder (Workspace E) Q]
  (carries : Carries Q R)
include carries

theorem compare (rel : Relation) (x y : Operand) :
    Keeps Q (ops.compare rel x y : Operate E Operand) := by
  have comparand : ∀ q s, Keeps Q (comparand q s : Operate E Int64) := by
    intro q s
    unfold Layer.comparand
    split
    · exact keepsThrow _
    · exact carries.code s
  unfold Layer.compare
  split
  · exact keepsBind (carries.onModel (kept.compareVars _ _ _)) fun _ => keepsPure _
  · exact keepsBind (comparand _ _) fun _ =>
      keepsBind (carries.onModel (kept.compareConst _ _ _)) fun _ => keepsPure _
  · exact keepsBind (comparand _ _) fun _ =>
      keepsBind (carries.onModel (kept.compareConst _ _ _)) fun _ => keepsPure _
  · exact keepsBind (keepsLift _) fun _ => keepsPure _

theorem equalLiteral (x item : Operand) : Keeps Q (ops.equalLiteral x item : Operate E Handle) :=
  keepsBind (kept.compare carries _ _ _) fun _ => keepsLift _

theorem memberLiteral (x : Operand) (items : List Operand) :
    Keeps Q (ops.memberLiteral x items : Operate E Handle) := by
  unfold Layer.memberLiteral
  split
  · exact keepsPure _
  · exact kept.equalLiteral carries _ _
  split
  · exact keepsBind (keepsMapM carries.code _) fun _ => carries.onModel (kept.inDomain _ _)
  · exact keepsBind (keepsMapM (kept.equalLiteral carries _) _) fun _ =>
      carries.onModel (kept.anyTrue _)

theorem isIn (x : Operand) (items : List Operand) :
    Keeps Q (ops.isIn x items : Operate E Operand) := by
  unfold Layer.isIn
  split
  · exact keepsBind (keepsAnyM (fun _ => keepsLift _) _) fun _ => keepsPure _
  · exact keepsBind (kept.memberLiteral carries _ _) fun _ => keepsPure _

theorem toConst (x : Operand) : Keeps Q (ops.toConst x : Operate E Handle) := by
  unfold Layer.toConst
  split
  · exact keepsPure _
  · exact keepsPure _
  · exact keepsBind (carries.code _) fun _ => carries.onModel (kept.constant _)

theorem perform [IsPreorder Model R] {call : OperatorCall} (computes : call.Computes ops R) :
    Keeps Q (call.perform ops : Operate E Reply) := by
  cases call with
  | encode s => exact keepsBind (carries.code _) fun _ => keepsPure _
  | toConst x => exact keepsBind (kept.toConst carries _) fun _ => keepsPure _
  | compare rel x y => exact keepsBind (kept.compare carries _ _ _) fun _ => keepsPure _
  | plus x y => exact keepsBind (carries.onModel computes) fun _ => keepsPure _
  | minus x y => exact keepsBind (carries.onModel computes) fun _ => keepsPure _
  | mult x y => exact keepsBind (carries.onModel computes) fun _ => keepsPure _
  | div x y => exact keepsBind (carries.onModel computes) fun _ => keepsPure _
  | sum items => exact keepsBind (carries.onModel computes) fun _ => keepsPure _
  | scaledSum vars coeffs => exact keepsBind (carries.onModel computes) fun _ => keepsPure _
  | extreme e items => exact keepsBind (carries.onModel computes) fun _ => keepsPure _
  | increasing vars => exact keepsBind (carries.onModel computes) fun _ => keepsPure _
  | connect c x y => exact keepsBind (carries.onModel (kept.connect _ _ _)) fun _ => keepsPure _
  | not x => exact keepsBind (carries.onModel (kept.not _)) fun _ => keepsPure _
  | anyTrue lits => exact keepsBind (carries.onModel (kept.anyTrue _)) fun _ => keepsPure _
  | isIn x items => exact keepsBind (kept.isIn carries _ _) fun _ => keepsPure _
  | inIntegers h set => exact keepsBind (kept.memberLiteral carries _ _) fun _ => keepsPure _
  | inStrings h set => exact keepsBind (kept.memberLiteral carries _ _) fun _ => keepsPure _
  | inVars h set => exact keepsBind (kept.memberLiteral carries _ _) fun _ => keepsPure _

end Layer.Kept

end ConstraintAlgebra
