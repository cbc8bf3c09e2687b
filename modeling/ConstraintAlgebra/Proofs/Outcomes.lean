import ConstraintAlgebra.Layer
import Mathlib

/-! What a successful computation did, step by step, and what any computation leaves behind. A step
that fails ends the computation, so success of the whole gives success of every step. -/
namespace ConstraintAlgebra

variable {ε σ α β : Type}

theorem bindOk {x : Except ε α} {f : α → Except ε β} {b : β} :
    (x >>= f) = .ok b ↔ ∃ a, x = .ok a ∧ f a = .ok b := by
  cases x <;> simp [bind, Except.bind]

theorem pureOk {a b : α} : (pure a : Except ε α) = .ok b ↔ a = b := by
  simp [pure, Except.pure]

theorem bindError {x : Except ε α} {f : α → Except ε β} {e : ε} :
    (x >>= f) = .error e ↔ x = .error e ∨ ∃ a, x = .ok a ∧ f a = .error e := by
  cases x <;> simp [bind, Except.bind]

theorem pureError {a : α} {e : ε} : (pure a : Except ε α) ≠ .error e := nofun

theorem mapError {x : Except ε α} {f : α → β} {e : ε} :
    (do return f (← x)) = .error e ↔ x = .error e := by
  cases x <;> simp [bind, Except.bind, pure, Except.pure]

theorem mapMOk {f : α → Except ε β} {xs : List α} {ys : List β} :
    xs.mapM f = .ok ys ↔ List.Forall₂ (fun x y => f x = .ok y) xs ys := by
  induction xs generalizing ys with
  | nil => cases ys <;> simp [pure, Except.pure]
  | cons x xs ih =>
    rw [List.mapM_cons, List.forall₂_cons_left_iff]
    simp only [bindOk, pureOk, ih]
    grind

theorem relatedTo {R : α → β → Prop} {xs : List α} {ys : List β} (h : List.Forall₂ R xs ys) {x : α}
    (mem : x ∈ xs) : ∃ y ∈ ys, R x y := by
  induction h with
  | nil => simp at mem
  | cons head tail ih =>
    rcases List.mem_cons.mp mem with rfl | later
    · exact ⟨_, by simp, head⟩
    · obtain ⟨y, hy, related⟩ := ih later
      exact ⟨y, List.mem_cons_of_mem _ hy, related⟩

theorem relatedAt {R : α → β → Prop} {xs : List α} {ys : List β} (h : List.Forall₂ R xs ys) {i : Nat}
    {x : α} (found : xs[i]? = some x) : ∃ y, ys[i]? = some y ∧ R x y := by
  induction h generalizing i with
  | nil => simp at found
  | cons head tail ih =>
    cases i with
    | zero => cases found; exact ⟨_, rfl, head⟩
    | succ i => exact ih found

theorem relatedSet {R : α → β → Prop} {xs : List α} {ys : List β} (h : List.Forall₂ R xs ys) {i : Nat}
    {x : α} {y : β} (found : xs[i]? = some x) (related : R x y) : List.Forall₂ R xs (ys.set i y) := by
  induction h generalizing i with
  | nil => simp at found
  | cons head tail ih =>
    cases i with
    | zero => cases found; exact .cons related tail
    | succ i => exact .cons head (ih found)

theorem relatedAppend {R : α → β → Prop} {xs ys : List α} {zs : List β} :
    List.Forall₂ R (xs ++ ys) zs ↔
      ∃ us vs, zs = us ++ vs ∧ List.Forall₂ R xs us ∧ List.Forall₂ R ys vs := by
  constructor
  · intro all
    have first := List.forall₂_take_append zs xs ys all.flip
    have rest := List.forall₂_drop_append zs xs ys all.flip
    exact ⟨_, _, (List.take_append_drop xs.length zs).symm, first.flip, rest.flip⟩
  · rintro ⟨us, vs, rfl, first, rest⟩
    exact List.rel_append first rest

theorem relatedUniform {R : α → β → Prop} {P : β → Prop} {xs : List α} {ys : List β}
    (same : ∀ x ∈ xs, ∀ y, R x y ↔ P y) :
    List.Forall₂ R xs ys ↔ ys.length = xs.length ∧ ∀ y ∈ ys, P y := by
  induction xs generalizing ys with
  | nil => cases ys <;> simp
  | cons x xs ih =>
    obtain ⟨head, tail⟩ := List.forall_mem_cons.mp same
    cases ys with
    | nil => simp
    | cons y ys =>
      rw [List.forall₂_cons, head, ih tail, List.forall_mem_cons, List.length_cons,
        List.length_cons, Nat.add_right_cancel_iff]
      tauto

theorem relate {R : α → β → Prop} {xs : List α} (each : ∀ x ∈ xs, ∃ y, R x y) :
    ∃ ys, List.Forall₂ R xs ys := by
  induction xs with
  | nil => exact ⟨[], .nil⟩
  | cons x xs ih =>
    obtain ⟨⟨y, first⟩, rest⟩ := List.forall_mem_cons.mp each
    obtain ⟨ys, tail⟩ := ih rest
    exact ⟨y :: ys, .cons first tail⟩

theorem forMOk {f : α → Except ε Unit} {xs : List α} :
    xs.forM f = .ok () ↔ ∀ x ∈ xs, f x = .ok () := by
  induction xs with
  | nil => simp [pureOk, List.forM]
  | cons x xs ih =>
    rw [List.forM, bindOk, List.forall_mem_cons, ← ih]
    exact ⟨fun ⟨_, first, rest⟩ => ⟨first, rest⟩, fun ⟨first, rest⟩ => ⟨(), first, rest⟩⟩

theorem allMOk {f : α → Except ε Bool} {xs : List α} :
    xs.allM f = .ok true ↔ ∀ x ∈ xs, f x = .ok true := by
  induction xs with
  | nil => simp [List.allM, pureOk]
  | cons x xs ih =>
    simp only [List.allM, bindOk, List.forall_mem_cons, ← ih]
    constructor
    · rintro ⟨b, first, rest⟩
      cases b
      · simp [pureOk] at rest
      · exact ⟨first, rest⟩
    · rintro ⟨first, rest⟩
      exact ⟨true, first, rest⟩

theorem allMDecided {f : α → Except Failure Bool} {xs : List α}
    (decided : ∀ x ∈ xs, ∃ b, f x = .ok b) : xs.allM f = .ok (xs.all fun x => f x = .ok true) := by
  induction xs with
  | nil => rfl
  | cons x xs ih =>
    obtain ⟨⟨b, first⟩, rest⟩ := List.forall_mem_cons.mp decided
    rw [List.allM, first, List.all_cons, first]
    cases b
    · rfl
    · exact ih rest

theorem mapMError {f : α → Except ε β} {xs : List α} {e : ε} (failed : xs.mapM f = .error e) :
    ∃ x ∈ xs, f x = .error e := by
  induction xs with
  | nil => exact absurd failed pureError
  | cons x xs ih =>
    rw [List.mapM_cons, bindError] at failed
    simp only [mapError] at failed
    rcases failed with first | ⟨_, _, rest⟩
    · exact ⟨x, by simp, first⟩
    · obtain ⟨y, mem, later⟩ := ih rest
      exact ⟨y, List.mem_cons_of_mem x mem, later⟩

theorem anyMError {f : α → Except ε Bool} {xs : List α} {e : ε} (failed : xs.anyM f = .error e) :
    ∃ x ∈ xs, f x = .error e := by
  induction xs with
  | nil => exact absurd failed pureError
  | cons x xs ih =>
    simp only [List.anyM, bindError] at failed
    rcases failed with first | ⟨b, _, rest⟩
    · exact ⟨x, by simp, first⟩
    · cases b with
      | true => exact absurd rest pureError
      | false =>
        obtain ⟨y, mem, later⟩ := ih rest
        exact ⟨y, List.mem_cons_of_mem x mem, later⟩

theorem allMError {f : α → Except ε Bool} {xs : List α} {e : ε} (failed : xs.allM f = .error e) :
    ∃ x ∈ xs, f x = .error e := by
  rw [List.allM_eq_not_anyM_not, map_eq_pure_bind] at failed
  obtain ⟨x, mem, failed⟩ := anyMError (mapError.mp failed)
  rw [map_eq_pure_bind] at failed
  exact ⟨x, mem, mapError.mp failed⟩

theorem runBind {x : EStateM ε σ α} {f : α → EStateM ε σ β} {s t : σ} {b : β} :
    (x >>= f) s = .ok b t ↔ ∃ a u, x s = .ok a u ∧ f a u = .ok b t := by
  cases h : x s <;> simp [bind, EStateM.bind, h]

theorem runAfter {x : EStateM ε σ α} {f : α → EStateM ε σ β} {s t : σ} {a : α}
    (ran : x s = .ok a t) : (x >>= f) s = f a t := by
  simp [bind, EStateM.bind, ran]

theorem runFails {x : EStateM ε σ α} {f : α → EStateM ε σ β} {s t : σ} {e : ε}
    (failed : x s = .error e t) : (x >>= f) s = .error e t := by
  simp [bind, EStateM.bind, failed]

theorem runPure {s t : σ} {a b : α} : (pure a : EStateM ε σ α) s = .ok b t ↔ a = b ∧ s = t := by
  simp [pure, EStateM.pure]

theorem runMap {x : EStateM ε σ α} {f : α → β} {s t : σ} {b : β} :
    (do return f (← x)) s = .ok b t ↔ ∃ a, x s = .ok a t ∧ f a = b := by
  simp only [runBind, runPure]
  exact ⟨fun ⟨a, _, ran, same, last⟩ => ⟨a, last ▸ ran, same⟩,
    fun ⟨a, ran, same⟩ => ⟨a, t, ran, same, rfl⟩⟩

theorem runThrow {s t : σ} {b : β} {e : ε} : (throw e : EStateM ε σ β) s ≠ .ok b t :=
  fun h => EStateM.Result.noConfusion rfl rfl rfl (heq_of_eq h)

theorem runGet {s t u : σ} : (get : EStateM ε σ σ) s = .ok t u ↔ s = t ∧ s = u := by
  simp [get, getThe, MonadStateOf.get, EStateM.get]

theorem runModify {f : σ → σ} {s t : σ} {u : PUnit} :
    (modify f : EStateM ε σ PUnit) s = .ok u t ↔ f s = t := by
  simp [modify, modifyGet, MonadStateOf.modifyGet, EStateM.modifyGet]

theorem runLift {x : Except Failure α} {s t : σ} {b : α} :
    (liftM x : EStateM Failure σ α) s = .ok b t ↔ x = .ok b ∧ s = t := by
  cases x with
  | ok a => exact runPure.trans (by simp)
  | error e => exact iff_of_false runThrow (by simp)

theorem liftFails {x : Except Failure α} {s : σ} {e : Failure} (failed : x = .error e) :
    (liftM x : EStateM Failure σ α) s = .error e s := by
  rw [failed]
  rfl

theorem runMapMLift {f : α → Except Failure β} {xs : List α} {ys : List β} {s t : σ} :
    (xs.mapM fun x => (liftM (f x) : EStateM Failure σ β)) s = .ok ys t ↔
      List.Forall₂ (fun x y => f x = .ok y) xs ys ∧ s = t := by
  induction xs generalizing ys s with
  | nil => cases ys <;> simp [runPure]
  | cons x xs ih =>
    rw [List.mapM_cons, List.forall₂_cons_left_iff]
    simp only [runBind, runLift, runPure]
    grind

theorem runAnyMLift {f : α → Except Failure Bool} {xs : List α} {b : Bool} {s t : σ}
    (ok : (xs.anyM fun x => (liftM (f x) : EStateM Failure σ Bool)) s = .ok b t) :
    s = t ∧ (b = true → ∃ x ∈ xs, f x = .ok true) ∧ (b = false → ∀ x ∈ xs, f x = .ok false) := by
  induction xs with
  | nil =>
    obtain ⟨rfl, rfl⟩ := runPure.mp ok
    simp
  | cons x xs ih =>
    simp only [List.anyM, runBind, runLift] at ok
    obtain ⟨c, _, ⟨first, rfl⟩, ok⟩ := ok
    cases c with
    | true =>
      obtain ⟨rfl, rfl⟩ := runPure.mp ok
      simp [first]
    | false =>
      obtain ⟨same, found, missing⟩ := ih ok
      refine ⟨same, fun h => ?_, fun h => List.forall_mem_cons.mpr ⟨first, missing h⟩⟩
      exact (found h).imp fun y hy => ⟨List.mem_cons_of_mem _ hy.1, hy.2⟩

theorem runAnyMDecided {f : α → Except Failure Bool} {xs : List α} {s : σ}
    (decided : ∀ x ∈ xs, ∃ b, f x = .ok b) :
    ∃ b, (xs.anyM fun x => (liftM (f x) : EStateM Failure σ Bool)) s = .ok b s := by
  induction xs with
  | nil => exact ⟨false, rfl⟩
  | cons x xs ih =>
    obtain ⟨⟨c, first⟩, rest⟩ := List.forall_mem_cons.mp decided
    rw [List.anyM, runAfter (runLift.mpr ⟨first, rfl⟩)]
    cases c with
    | true => exact ⟨true, rfl⟩
    | false => exact ih rest

theorem runAsk {q : Model → Except Failure α} {m n : Model} {b : α} :
    Model.ask q m = .ok b n ↔ q m = .ok b ∧ m = n := by
  rw [Model.askRun]
  cases q m <;> simp

theorem askFails {q : Model → Except Failure α} {m : Model} {e : Failure} (failed : q m = .error e) :
    Model.ask q m = .error e m := by
  rw [Model.askRun, failed]

theorem runOnModel {E : Type} {action : Build α} {w v : Workspace E} {b : α} :
    (liftM action : Operate E α) w = .ok b v ↔
      action w.model = .ok b v.model ∧ w.encoder = v.encoder := by
  change onModel action w = _ ↔ _
  rw [onModel]
  cases v
  cases action w.model <;> simp [and_assoc, eq_comm]

end ConstraintAlgebra
