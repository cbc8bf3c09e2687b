import ConstraintAlgebra.Proofs.Allocation

/-! Calls that change nothing when they fail. Everything that can fail comes before the new variable:
ranges, widths, kinds of operands and handles of other models. What follows it posts constraints on
handles that are known by then, and runs short of handles only in a model that is too large. -/
namespace ConstraintAlgebra

section Atomic

variable {σ α β : Type} [Growing σ] {R : σ → σ → Prop} {x : EStateM Failure σ α}
  {f : α → EStateM Failure σ β} {s t : σ} {e : Failure}

/-- Where the action fails, the state it leaves is related to the state before, or too large. -/
def Atomic (R : σ → σ → Prop) (action : EStateM Failure σ α) (s : σ) : Prop :=
  ∀ e t, action s = .error e t → Growing.Small t → R s t

theorem Succeeds.large (succeeds : Succeeds x s) (failed : x s = .error e t) : ¬Growing.Small t := by
  intro small
  obtain ⟨a, u, ok⟩ := succeeds (by rwa [failed])
  rw [failed] at ok
  cases ok

theorem atomicSucceeds (succeeds : Succeeds x s) : Atomic R x s :=
  fun _ _ failed small => absurd small (succeeds.large failed)

theorem atomicPure (a : α) : Atomic R (pure a) s := atomicSucceeds (succeedsPure a)

theorem atomicKeeps (keeps : Keeps R x) : Atomic R x s := by
  intro e t failed _
  have kept := keeps s
  rwa [failed] at kept

theorem atomicThen (keeps : ∀ a, Keeps Growing.Grows (f a)) (first : Atomic R x s)
    (rest : ∀ a t, x s = .ok a t → Growing.Small t → Succeeds (f a) t) : Atomic R (x >>= f) s := by
  intro e t failed small
  cases ran : x s with
  | ok a u =>
    rw [runAfter ran] at failed
    have grown := keeps a u
    rw [failed] at grown
    exact absurd small ((rest a u ran (Growing.smaller grown small)).large failed)
  | error e' u =>
    rw [runFails ran] at failed
    cases failed
    exact first e t ran small

theorem atomicMap {f : α → β} (first : Atomic R x s) : Atomic R (do return f (← x)) s :=
  atomicThen (fun _ => keepsPure _) first fun _ _ _ _ => succeedsPure _

variable [IsPreorder σ R]

theorem atomicBind (first : Keeps R x) (rest : ∀ a t, x s = .ok a t → Atomic R (f a) t) :
    Atomic R (x >>= f) s := by
  intro e t failed small
  cases ran : x s with
  | ok a u =>
    rw [runAfter ran] at failed
    exact IsTrans.trans _ _ _ (keepsOk first ran) (rest a u ran e t failed small)
  | error e' u =>
    rw [runFails ran] at failed
    cases failed
    exact atomicKeeps first e t ran small

theorem atomicLift {q : Except Failure α} (rest : ∀ a, q = .ok a → Atomic R (f a) s) :
    Atomic R ((liftM q : EStateM Failure σ α) >>= f) s := by
  refine atomicBind (keepsLift q) fun a t ok => ?_
  obtain ⟨known, same⟩ := runLift.mp ok
  exact same ▸ rest a known

end Atomic

namespace Model

variable {m n : Model} {h : Handle} {c : Int64} {op : Operation} {terms : List Summand} {x y : Operand}

theorem atomicAsk {α β : Type} {q : Model → Except Failure α} {f : α → Build β}
    (rest : ∀ a, q m = .ok a → Atomic Eq (f a) m) : Atomic Eq (ask q >>= f) m := by
  refine atomicBind (keepsAsk q) fun a n ok => ?_
  obtain ⟨known, same⟩ := runAsk.mp ok
  exact same ▸ rest a known

theorem atomicTest {α : Type} {q : Model → Except Failure Bool} {yes no : Build α}
    (first : Atomic Eq yes m) (second : Atomic Eq no m) :
    Atomic Eq (do if ← ask q then yes else no) m := by
  refine atomicAsk fun b _ => ?_
  cases b
  · exact second
  · exact first

theorem sumBoundsOwned {range out : Int × Int} (ok : m.sumBounds terms range = .ok out) :
    ∀ s ∈ terms, m.Owns s.2 := by
  induction terms generalizing range with
  | nil => simp
  | cons s rest ih =>
    simp only [sumBounds, bindOk] at ok
    obtain ⟨ends, known, _, _, _, _, ok⟩ := ok
    exact List.forall_mem_cons.mpr ⟨boundsOwned known, ih ok⟩

theorem atomicNewVariable (d : Domain) (name : String) : Atomic Eq (newVariable d name) m := by
  by_cases inhabited : d.intervals = []
  · rw [newVariable, if_pos (by simpa [Domain.isEmpty] using inhabited)]
    exact atomicKeeps (keepsThrow _)
  · exact atomicSucceeds (newVariableSucceeds inhabited)

theorem atomicNewInt (lo hi : Int64) (name : String) : Atomic Eq (newInt lo hi name) m :=
  atomicLift fun _ _ => atomicNewVariable _ name

theorem atomicPost (c : Constraint) (g : Option Handle) : Atomic Eq (post c g) m := by
  intro e n failed _
  rw [postRun] at failed
  split at failed
  · cases failed
  · cases failed
    rfl

theorem atomicReify {holds fails : Constraint} (hold : ∀ h ∈ holds.handles, m.Owns h)
    (fail : ∀ h ∈ fails.handles, m.Owns h) : Atomic Eq (reify holds fails) m :=
  atomicSucceeds (reifySucceeds hold fail)

theorem atomicLinear (op : Operation) (terms : List Summand) (offset : Int) :
    Atomic Eq (linear op terms offset) m := by
  refine atomicAsk fun range known => ?_
  refine atomicLift fun lo _ => atomicLift fun hi _ => atomicLift fun c _ => ?_
  refine atomicThen (fun _ => keepsBind (keepsPost _ _) fun _ => keepsPure _) (atomicNewInt lo hi "")
    fun h n made small => addLinearSucceeds (sumBoundsOwned known) small made

theorem atomicSum (items : List Operand) : Atomic Eq (sum items) m := by
  refine atomicLift fun split _ => ?_
  dsimp only
  split
  · exact atomicLift fun _ _ => atomicPure _
  · exact atomicMap (atomicLinear _ _ _)

theorem atomicScaledSum (vars : List Handle) (coeffs : List Int64) :
    Atomic Eq (scaledSum vars coeffs) m := by
  unfold scaledSum
  split
  · exact atomicLinear _ _ _
  · exact atomicKeeps (keepsThrow _)

theorem atomicSigned (op : Operation) (c : Int64) (x y : Operand) :
    Atomic Eq (signed op c x y) m := by
  unfold signed
  split
  · exact atomicMap (atomicLinear _ _ _)
  · exact atomicLift fun _ _ => atomicMap (atomicLinear _ _ _)
  · exact atomicLift fun _ _ => atomicMap (atomicLinear _ _ _)
  · exact atomicLift fun _ _ => atomicLift fun _ _ => atomicLift fun _ _ => atomicPure _

end Model

namespace Layer

open Model

variable {m : Model} {x y : Operand}

theorem atomicMult (ops : Layer) (known : ¬(x.isSymbolic = true ∧ y.isSymbolic = true)) :
    Atomic Eq (ops.mult x y) m := by
  unfold mult
  split
  · exact absurd ⟨rfl, rfl⟩ known
  · exact atomicLift fun _ _ => atomicMap (atomicLinear _ _ _)
  · exact atomicLift fun _ _ => atomicMap (atomicLinear _ _ _)
  · exact atomicLift fun _ _ => atomicLift fun _ _ => atomicLift fun _ _ => atomicPure _

theorem atomicCompareConst (ops : Layer) (rel : Relation) (h : Handle) (c : Int64) :
    Atomic Eq (ops.compareConst rel h c) m := by
  refine atomicAsk fun range known => ?_
  have owned : ∀ q : Relation, ∀ g ∈ (Constraint.compare h q (.const c)).handles, m.Owns g := by
    simpa [Constraint.handles, Term.handles] using fun _ => boundsOwned known
  split
  · exact atomicPure _
  · exact atomicReify (owned _) (owned _)

theorem atomicCompareVars (ops : Layer) (rel : Relation) (l r : Handle) :
    Atomic Eq (ops.compareVars rel l r) m := by
  unfold compareVars
  split
  · exact atomicPure _
  refine atomicAsk fun left first => atomicAsk fun right second => ?_
  have owned : ∀ q : Relation, ∀ g ∈ (Constraint.compare l q (.var r)).handles, m.Owns g := by
    simpa [Constraint.handles, Term.handles] using fun _ => ⟨boundsOwned first, boundsOwned second⟩
  split
  · exact atomicPure _
  · exact atomicReify (owned _) (owned _)

theorem atomicConnectVars (ops : Layer) (k : Connective) (l r : Handle) :
    Atomic Eq (ops.connectVars k l r) m := by
  refine atomicAsk fun result _ => ?_
  split
  · exact atomicPure _
  refine atomicAsk fun _ first => atomicAsk fun _ second =>
    atomicSucceeds (reifyConnectiveSucceeds ?_)
  simp [(assertBooleanOk.mp first).ranged.owned, (assertBooleanOk.mp second).ranged.owned]

theorem atomicConnect (ops : Layer) (k : Connective) (x y : Operand) :
    Atomic Eq (ops.connect k x y) m := by
  have const : ∀ h b, Atomic Eq (ops.connectConst k h b) m := by
    refine fun h b => atomicAsk fun _ _ => atomicAsk fun _ _ => ?_
    split
    · exact atomicPure _
    · exact atomicTest (atomicPure _) (atomicPure _)
  unfold connect
  split
  · exact atomicPure _
  · exact atomicMap (const _ _)
  · exact atomicMap (const _ _)
  · exact atomicMap (ops.atomicConnectVars _ _ _)
  · exact atomicKeeps (keepsThrow _)

theorem atomicNot (ops : Layer) (x : Operand) : Atomic Eq (ops.not x) m := by
  unfold Layer.not
  split
  · exact atomicPure _
  · refine atomicMap (atomicTest (atomicPure _) (atomicTest (atomicPure _) ?_))
    refine atomicAsk fun _ _ => ?_
    split
    · exact atomicKeeps (keepsLift _)
    · exact ops.atomicCompareConst _ _ _
  · exact atomicKeeps (keepsThrow _)

theorem atomicAnyTrue (ops : Layer) (lits : List Handle) : Atomic Eq (ops.anyTrue lits) m := by
  refine atomicAsk fun rest found => ?_
  split
  · exact atomicPure _
  · exact atomicPure _
  · exact atomicPure _
  · refine atomicSucceeds (reifyConnectiveSucceeds fun h mem => ?_)
    exact (undecidedLiterals found h mem).ranged.owned

theorem atomicInDomain (ops : Layer) (h : Handle) (d : Domain) :
    Atomic Eq (ops.inDomain h d) m := by
  refine atomicAsk fun current known => ?_
  have owned : ∀ e : Domain, ∀ g ∈ (Constraint.inside h e).handles, m.Owns g := by
    simpa [Constraint.handles] using fun _ => domainOwned known
  split
  · split
    · exact atomicPure _
    · exact atomicReify (owned _) (owned _)
  · exact atomicPure _

end Layer

section Operate

variable {E α : Type} {w v : Workspace E}

theorem onModelFails {action : Build α} {e : Failure}
    (failed : (liftM action : Operate E α) w = .error e v) : action w.model = .error e v.model := by
  change onModel action w = _ at failed
  rw [onModel] at failed
  cases ran : action w.model with
  | ok a m =>
    rw [ran] at failed
    cases failed
  | error e' m =>
    rw [ran] at failed
    cases failed
    rfl

variable [Encoding E]

theorem atomicOnModel {action : Build α} (inner : ∀ m, Atomic Eq action m) :
    Atomic (OnModels Eq) (liftM action : Operate E α) w :=
  fun e v failed small => inner w.model e v.model (onModelFails failed) small

theorem keepsCodes (s : Scalar) : Keeps (OnModels Eq) (s.code : Operate E Int64) :=
  onModelsCarries.code s

namespace Layer

theorem keepsComparand (rel : Relation) (s : Scalar) :
    Keeps (OnModels Eq) (comparand rel s : Operate E Int64) := by
  unfold comparand
  split
  · exact keepsThrow _
  · exact keepsCodes s

theorem atomicCompare (ops : Layer) (rel : Relation) (x y : Operand) :
    Atomic (OnModels Eq) (ops.compare rel x y : Operate E Operand) w := by
  unfold compare
  split
  · exact atomicMap (atomicOnModel fun _ => ops.atomicCompareVars _ _ _)
  · exact atomicBind (keepsComparand _ _) fun _ _ _ =>
      atomicMap (atomicOnModel fun _ => ops.atomicCompareConst _ _ _)
  · exact atomicBind (keepsComparand _ _) fun _ _ _ =>
      atomicMap (atomicOnModel fun _ => ops.atomicCompareConst _ _ _)
  · exact atomicKeeps (keepsBind (keepsLift _) fun _ => keepsPure _)

theorem atomicEqualLiteral (ops : Layer) (x y : Operand) :
    Atomic (OnModels Eq) (ops.equalLiteral x y : Operate E Handle) w := by
  refine atomicThen (fun _ => keepsLift _) (ops.atomicCompare .eq x y) fun z v compared small => ?_
  obtain ⟨_, t, rfl⟩ | ⟨b, rfl, _⟩ := compareIndicates small compared
  · exact succeedsOk rfl
  · exact succeedsOk rfl

theorem atomicMemberLiteral (ops : Layer) (h : Handle) (scalars : List Scalar) :
    Atomic (OnModels Eq) (ops.memberLiteral (.var h) (scalars.map .scalar) : Operate E Handle) w := by
  match scalars with
  | [] => exact atomicPure _
  | [s] => exact ops.atomicEqualLiteral _ _
  | first :: second :: rest =>
    have split : Operand.scalars? ((first :: second :: rest).map .scalar) =
        some (first :: second :: rest) := Operand.scalarsExact.mpr rfl
    simp only [List.map_cons] at split ⊢
    simp only [memberLiteral, split]
    exact atomicBind (keepsMapM keepsCodes _) fun _ _ _ =>
      atomicOnModel fun _ => ops.atomicInDomain _ _

theorem atomicIsIn (ops : Layer) (x : Operand) (scalars : List Scalar) :
    Atomic (OnModels Eq) (ops.isIn x (scalars.map .scalar) : Operate E Operand) w := by
  have split : Operand.scalars? (scalars.map .scalar) = some scalars := Operand.scalarsExact.mpr rfl
  rcases x with s | h
  · simp only [isIn, split]
    exact atomicKeeps (keepsBind (keepsAnyM (fun _ => keepsLift _) _) fun _ => keepsPure _)
  · simp only [isIn]
    exact atomicMap (ops.atomicMemberLiteral h scalars)

end Layer

end Operate

namespace OperatorCall

/-- Calls that do not change the model after something could still fail. Left out are those that make
a variable for an operand, or a target, before they look at all operands. -/
def Atomic : OperatorCall → Prop
  | compare _ _ _ => True
  | plus _ _ => True
  | minus _ _ => True
  | mult x y => ¬(x.isSymbolic = true ∧ y.isSymbolic = true)
  | sum _ => True
  | scaledSum _ _ => True
  | connect _ _ _ => True
  | not _ => True
  | anyTrue _ => True
  | isIn _ items => ∃ scalars : List Scalar, items = scalars.map .scalar
  | inIntegers _ _ => True
  | inStrings _ _ => True
  | _ => False

theorem performAtomic {E : Type} [Encoding E] {w : Workspace E} (ops : Layer) {call : OperatorCall}
    (atomic : call.Atomic) :
    ConstraintAlgebra.Atomic (OnModels Eq) (call.perform ops : Operate E Reply) w := by
  cases call with
  | compare rel x y => exact atomicMap (ops.atomicCompare rel x y)
  | plus x y => exact atomicMap (atomicOnModel fun _ => Model.atomicSigned _ _ x y)
  | minus x y => exact atomicMap (atomicOnModel fun _ => Model.atomicSigned _ _ x y)
  | mult x y => exact atomicMap (atomicOnModel fun _ => ops.atomicMult atomic)
  | sum items => exact atomicMap (atomicOnModel fun _ => Model.atomicSum items)
  | scaledSum vars coeffs => exact atomicMap (atomicOnModel fun _ => Model.atomicScaledSum vars coeffs)
  | connect c x y => exact atomicMap (atomicOnModel fun _ => ops.atomicConnect c x y)
  | not x => exact atomicMap (atomicOnModel fun _ => ops.atomicNot x)
  | anyTrue lits => exact atomicMap (atomicOnModel fun _ => ops.atomicAnyTrue lits)
  | isIn x items =>
    obtain ⟨scalars, rfl⟩ := atomic
    exact atomicMap (ops.atomicIsIn x scalars)
  | inIntegers h set =>
    have member := ops.atomicMemberLiteral h (set.map .long) (w := w)
    rw [List.map_map] at member
    exact atomicMap member
  | inStrings h set =>
    have member := ops.atomicMemberLiteral h (set.map .str) (w := w)
    rw [List.map_map] at member
    exact atomicMap member
  | _ => exact atomic.elim

end OperatorCall

theorem ModelCall.performAtomic (call : ModelCall) (m : Model) : Atomic Eq call.perform m := by
  cases call with
  | int lo hi name => exact atomicMap (Model.atomicNewInt lo hi name)
  | withDomain d name => exact atomicMap (Model.atomicNewVariable d name)
  | bool name => exact atomicMap (Model.atomicNewInt 0 1 name)
  | constant x => exact atomicMap (Model.atomicNewInt x x "")
  | post c g =>
    exact atomicThen (fun _ => keepsPure _) (Model.atomicPost c g) fun _ _ _ _ => succeedsPure _

namespace Session

variable {E : Type} [Encoding E] {s t : Session E}

def Atomic : Call E → Prop
  | .model _ => True
  | .layer _ _ => False
  | .operator _ call => call.Atomic

/-- A call that fails leaves every variable and every constraint as it was: whatever the model is,
whatever handles the call is given and whichever of its checks fails. -/
theorem failureKeeps (s : Session E) (call : Call E) (atomic : Atomic call) {e : Failure}
    (failed : s.step call = (.error e, t)) (small : t.model.Small) :
    t.model.vars = s.model.vars ∧ t.model.constraints = s.model.constraints := by
  have same : s.model = t.model := by
    cases call with
    | model call =>
      simp only [step, build] at failed
      cases ran : call.perform s.model with
      | ok reply m =>
        rw [ran] at failed
        cases failed
      | error e' m =>
        rw [ran] at failed
        cases failed
        exact call.performAtomic s.model e m ran small
    | layer settings encoder => exact atomic.elim
    | operator place call =>
      simp only [step, operate] at failed
      split at failed
      · cases failed
      rename_i ops encoder found
      cases ran : call.perform ops ⟨s.model, encoder⟩ with
      | ok reply w =>
        rw [ran] at failed
        cases failed
      | error e' w =>
        rw [ran] at failed
        cases failed
        exact OperatorCall.performAtomic ops atomic e w ran small
  rw [same]
  exact ⟨rfl, rfl⟩

theorem failureKeepsOnce :
    let calls : List (Call Dictionary) :=
      [.layer .standard .empty, .model (.int Int64.minValue 0 "x"), .model (.bool "p")]
    let call : OperatorCall := .sum [.var ⟨4, by decide⟩, .var ⟨-3, by decide⟩]
    let s : Session Dictionary := start.run calls
    let t := (s.step (.operator 0 call)).2
    s.step (.operator 0 call) = (.error .overflow, t) ∧ t.model.Small ∧
      t.model.vars = s.model.vars ∧ t.model.constraints = s.model.constraints := by
  intro calls call s t
  have failed : s.step (.operator 0 call) = (.error .overflow, t) := rfl
  have small : t.model.Small := by decide
  exact ⟨failed, small, failureKeeps s (.operator 0 call) trivial failed small⟩

end Session

end ConstraintAlgebra
